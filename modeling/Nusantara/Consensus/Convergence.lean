import Nusantara.Consensus.Counting
import Nusantara.Consensus.Tally

/-!
# Convergence of the fork choice

Two nodes that have seen the same blocks and the same gossip votes should choose the same fork,
whatever the order in which they came.  The fork tree counts a voter once, for the first slot of the
tree it is seen to vote for; later votes are dropped.  So the order matters as soon as a voter votes
twice, or a block carries a vote for a slot that is not in the tree yet.

Where every voter votes for one slot, and a vote in a block is for a slot of the tree, the stage is a
function of the set of events it has seen (`Represents`): the links of the tree come from the blocks,
and a voter is counted exactly if its slot is in the tree and it voted by gossip or in a block.  The
node's own votes go through its tower, which takes the first and refuses the others.

## Main results

* `ReplayStage.Represents.step`: a step adds its event to what the stage represents.
* `ReplayStage.Represents.agree`: stages that represent the same events have trees that agree.
* `ReplayStage.forkChoice_converges`: same events, same stakes and same best fork.
-/

namespace Nusantara

open Exec List Trace ForkTree Tower

namespace ReplayStage

/-! ### Quiet runs -/

/-- A block comes after its parent, a gossip vote has the stake of its voter and displaces no other
vote that waits, and the root stays where it is. -/
def Orderly (s : ReplayStage) : StageEvent → Prop
  | .block block _ _ => block.header.parentSlot ∈ s.forkTree.nodes
  | .gossip voter slot _ stake => stake = s.bank.getValidatorStake voter ∧
      (insert slot s.pendingVotes.keys).card ≤ maxPendingVoteSlots
  | .root _ => False

instance (s : ReplayStage) (e : StageEvent) : Decidable (s.Orderly e) :=
  match e with
  | .block block _ _ => inferInstanceAs (Decidable (block.header.parentSlot ∈ s.forkTree.nodes))
  | .gossip voter slot _ stake => inferInstanceAs (Decidable (stake = s.bank.getValidatorStake voter ∧
      (insert slot s.pendingVotes.keys).card ≤ maxPendingVoteSlots))
  | .root _ => inferInstanceAs (Decidable False)

/-- A step of a quiet run. -/
def QuietStep (P : Platform) (s : ReplayStage) (e : StageEvent) (s' : ReplayStage) : Prop :=
  s.Orderly e ∧ StageStep P s e s'

/-- Every vote is for the one slot of its voter, and a vote in a block is for the slot of the block or
for one that is in the tree. -/
def VotesOnce (P : Platform) (slotOf : Hash → UInt64) (s : ReplayStage) : StageEvent → Prop
  | .block block _ _ => ∀ q ∈ carriedVotes P block, ∀ slot, q.2.2.slots.getLast? = some slot →
      slot = slotOf q.2.1 ∧ (slot = block.header.slot ∨ slot ∈ s.forkTree.nodes)
  | .gossip voter slot _ _ => slot = slotOf voter
  | .root _ => True

/-- A step of a quiet run in which every voter votes for one slot. -/
def VotesOnceStep (P : Platform) (slotOf : Hash → UInt64) (s : ReplayStage) (e : StageEvent)
    (s' : ReplayStage) : Prop :=
  QuietStep P s e s' ∧ s.VotesOnce P slotOf e

/-- A stage that has seen nothing: the tree is its root, no vote waits, and the tower is empty. -/
structure Fresh (rootSlot : UInt64) (blockHash bankHash : Hash) (s : ReplayStage) : Prop where
  forkTree : s.forkTree = new rootSlot blockHash bankHash
  pendingVotes : s.pendingVotes = ∅
  votes : s.tower.voteState.votes = []
  noRoot : s.tower.rootSlot = none

/-! ### Votes -/

variable {P : Platform} {stakeOf slotOf : Hash → UInt64} {s s' : ReplayStage} {slot : UInt64}
  {voter : Hash} {vote : Vote} {a a' : VoteTally}

theorem applyPendingVotes_grows {votes : List (Hash × Hash × UInt64)}
    (ht : s.forkTree.Tallied stakeOf slotOf)
    (hv : ∀ q ∈ votes, slotOf q.1 = slot ∧ q.2.2 = stakeOf q.1)
    (h : votes.foldlM (applyPendingVote slot) s = .ok s') :
    ∃ forkTree commitmentTracker, s' = { s with forkTree, commitmentTracker } ∧
      s.forkTree.Grows stakeOf slotOf {v | ∃ q ∈ votes, q.1 = v} forkTree := by
  induction votes generalizing s with
  | nil =>
    obtain rfl := Except.ok.inj h
    refine ⟨s.forkTree, s.commitmentTracker, rfl, ht.grows_self ?_⟩
    rintro v ⟨q, hq, -⟩
    exact absurd hq not_mem_nil
  | cons q votes ih =>
    rw [foldlM_cons] at h
    obtain ⟨s₁, hfirst, h⟩ := exceptBind_eq_ok.mp h
    obtain ⟨⟨added, tree⟩, htree, hfirst⟩ := exceptBind_eq_ok.mp hfirst
    obtain rfl := Except.ok.inj hfirst
    obtain ⟨hslot, hstake⟩ := hv q mem_cons_self
    rw [← hslot, hstake] at htree
    have hgrows := ht.grows_addVote htree
    obtain ⟨forkTree, commitmentTracker, rfl, hrest⟩ :=
      ih hgrows.tallied (fun q' hq' => hv q' (mem_cons_of_mem _ hq')) h
    refine ⟨forkTree, commitmentTracker, rfl, ?_⟩
    have hset : {v | ∃ q' ∈ q :: votes, q'.1 = v} = {q.1} ∪ {v | ∃ q' ∈ votes, q'.1 = v} := by
      ext v
      simp [eq_comm]
    rw [hset]
    exact hgrows.trans hrest

theorem countVote_grows (ht : s.forkTree.Tallied stakeOf slotOf)
    (hslot : vote.slots.getLast? = some (slotOf voter))
    (hstake : s.bank.getValidatorStake voter = stakeOf voter)
    (h : countVote s voter vote = .ok s') :
    ∃ forkTree commitmentTracker, s' = { s with forkTree, commitmentTracker } ∧
      s.forkTree.Grows stakeOf slotOf {voter} forkTree := by
  simp only [countVote, hslot, hstake, exceptBind_eq_ok] at h
  obtain ⟨⟨added, tree⟩, htree, h⟩ := h
  exact ⟨tree, _, (Except.ok.inj h).symm, ht.grows_addVote htree⟩

/-! ### The tower -/

/-- The tower has seen no vote of its voter, or the one vote, which is counted. -/
def TowerIdle (slotOf : Hash → UInt64) (s : ReplayStage) : Prop :=
  s.tower.rootSlot = none ∧ (s.tower.voteState.votes = [] ∨
    s.tower.voteState.votes = [⟨slotOf s.authorizedVoter, 1⟩] ∧
      s.authorizedVoter ∈ s.forkTree.counted)

/-- The first vote of an empty tower. -/
theorem processVote_empty {t t' : Tower} {result : TowerVoteResult}
    (hvotes : t.voteState.votes = []) (hslot : vote.slots.getLast? = some slot)
    (h : (processVote P vote).run t = .ok result t') :
    t'.voteState.votes = [⟨slot, 1⟩] ∧ t'.rootSlot = t.rootSlot := by
  obtain ⟨slot', hslot', hrun⟩ := processVote_of_accepts (P := P) (processVote_eq_ok h).1
  cases hslot.symm.trans hslot'
  have hpush : t.pushVote P slot = .ok ({ newRootSlots := [], expiredLockouts := [] },
      { voteState := { t.voteState with votes := [⟨slot, 1⟩] } }) := by
    simp [pushVote, hvotes]
    rfl
  rw [hrun, hpush] at h
  obtain ⟨-, rfl⟩ := Outcome.ok.inj h
  exact ⟨rfl, rfl⟩

/-- An idle tower refuses every vote but the first of its voter. -/
theorem TowerIdle.accepts_iff (h : TowerIdle slotOf s)
    (hslot : vote.slots.getLast? = some (slotOf s.authorizedVoter)) :
    s.tower.Accepts vote ↔ s.tower.voteState.votes = [] := by
  obtain ⟨hroot, hvotes⟩ := h
  constructor
  · rintro ⟨slot, hslot', -, hlock⟩
    cases hslot.symm.trans hslot'
    refine hvotes.resolve_right fun hone => ?_
    -- The vote is in the tower already, and locked out at its own slot.
    have hlt := hlock ⟨slotOf s.authorizedVoter, 1⟩ (by simp [hone.1]) (isLockedOutAtSlot_self _)
    exact UInt64.lt_irrefl _ hlt
  · intro hempty
    refine ⟨slotOf s.authorizedVoter, hslot, fun root hr => ?_, fun l hl => ?_⟩
    · exact absurd (hroot.symm.trans hr) (by simp)
    · rw [hempty] at hl
      exact absurd hl not_mem_nil

/-- The voters whose votes in a list are not skipped. -/
def creditable (slotOf : Hash → UInt64) (votes : List (ℕ × Hash × Vote)) : Set Hash :=
  {v | 0 < slotOf v ∧ ∃ q ∈ votes, q.2.1 = v ∧ q.2.2.slots.getLast?.isSome}

section

variable (ht : a.stage.forkTree.Tallied stakeOf slotOf) (hidle : TowerIdle slotOf a.stage)

include ht hidle

/-- A vote in a block counts its voter, if it is above slot 0.  One that the tower refuses is of a
voter that is counted already. -/
theorem creditVote_grows {i : ℕ}
    (hstake : a.stage.bank.getValidatorStake voter = stakeOf voter)
    (hv : ∀ slot, vote.slots.getLast? = some slot →
      slot = slotOf voter ∧ slot ∈ a.stage.forkTree.nodes)
    (h : creditVote P 0 voter vote a = .ok a') :
    TowerIdle slotOf a'.stage ∧ ∃ forkTree commitmentTracker tower,
      a'.stage = { a.stage with forkTree, commitmentTracker, tower } ∧
        a.stage.forkTree.Grows stakeOf slotOf (creditable slotOf [(i, voter, vote)]) forkTree := by
  have hset : ∀ v, v ∈ creditable slotOf [(i, voter, vote)] ↔
      v = voter ∧ vote.slots.getLast?.isSome ∧ 0 < slotOf v := by
    intro v
    simp only [creditable, mem_singleton, exists_eq_left, Set.mem_ofPred_eq]
    tauto
  unfold creditVote at h
  split_ifs at h with hskip hown
  · -- The vote is skipped: it is empty or for slot 0.
    cases h
    refine ⟨hidle, _, _, _, rfl, ht.grows_self fun v hmem => ?_⟩
    obtain ⟨rfl, hsome, hpos⟩ := (hset v).mp hmem
    obtain ⟨slot, hslot⟩ := Option.isSome_iff_exists.mp hsome
    rw [hslot, Option.getD_some, (hv slot hslot).1] at hskip
    exact absurd hpos (UInt64.not_lt.mpr hskip)
  all_goals
    obtain ⟨slot, hslot⟩ : ∃ slot, vote.slots.getLast? = some slot := by
      cases hl : vote.slots.getLast? with
      | none => simp [hl] at hskip
      | some slot => exact ⟨slot, rfl⟩
    obtain ⟨rfl, hmem⟩ := hv slot hslot
    have hpos : 0 < slotOf voter := by
      rw [hslot, Option.getD_some] at hskip
      exact UInt64.not_le.mp hskip
    have hvoter : creditable slotOf [(i, voter, vote)] = {voter} := by
      ext v
      rw [hset, Set.mem_singleton_iff]
      refine ⟨And.left, ?_⟩
      rintro rfl
      exact ⟨rfl, by simp [hslot], hpos⟩
    rw [hvoter]
  · subst hown
    have haccepts := hidle.accepts_iff hslot
    split at h
    case h_1 => simp at h
    case h_2 e tower hrun =>
      cases h
      obtain ⟨hnot, rfl⟩ := processVote_eq_err hrun
      have hcounted := (hidle.2.resolve_left fun hempty => hnot (haccepts.mpr hempty)).2
      refine ⟨hidle, _, _, _, rfl, ht.grows_self fun v hmem => ?_⟩
      rw [Set.mem_singleton_iff.mp hmem]
      exact hcounted
    case h_3 result tower hrun =>
      obtain ⟨s₁, hcount, h⟩ := exceptBind_eq_ok.mp h
      cases h
      have hempty := haccepts.mp (processVote_eq_ok hrun).1
      obtain ⟨hvotes, hroot⟩ := processVote_empty hempty hslot hrun
      obtain ⟨forkTree, tracker, rfl, hgrows⟩ := countVote_grows
        (s := { a.stage with tower }) ht hslot hstake hcount
      have hcounted := (hgrows.counted a.stage.authorizedVoter).mpr (.inr ⟨rfl, hmem⟩)
      exact ⟨⟨hroot.trans hidle.1, .inr ⟨hvotes, hcounted⟩⟩, _, _, _, rfl, hgrows⟩
  · obtain ⟨s₁, hcount, h⟩ := exceptBind_eq_ok.mp h
    cases h
    obtain ⟨forkTree, tracker, rfl, hgrows⟩ := countVote_grows ht hslot hstake hcount
    refine ⟨⟨hidle.1, hidle.2.imp_right fun hone => ⟨hone.1, ?_⟩⟩, _, _, _, rfl, hgrows⟩
    exact (hgrows.counted _).mpr (.inl hone.2)

theorem creditVotes_grows {votes : List (ℕ × Hash × Vote)}
    (hstake : ∀ v, a.stage.bank.getValidatorStake v = stakeOf v)
    (hv : ∀ q ∈ votes, ∀ slot, q.2.2.slots.getLast? = some slot →
      slot = slotOf q.2.1 ∧ slot ∈ a.stage.forkTree.nodes)
    (h : creditVotes P 0 votes a = .ok a') :
    TowerIdle slotOf a'.stage ∧ ∃ forkTree commitmentTracker tower,
      a'.stage = { a.stage with forkTree, commitmentTracker, tower } ∧
        a.stage.forkTree.Grows stakeOf slotOf (creditable slotOf votes) forkTree := by
  unfold creditVotes at h
  induction votes generalizing a with
  | nil =>
    cases h
    refine ⟨hidle, _, _, _, rfl, ht.grows_self ?_⟩
    rintro v ⟨-, q, hq, -⟩
    exact absurd hq not_mem_nil
  | cons q votes ih =>
    rw [foldlM_cons] at h
    obtain ⟨a₁, hfirst, h⟩ := exceptBind_eq_ok.mp h
    obtain ⟨hidle₁, tree₁, tracker₁, tower₁, hstage₁, hgrows₁⟩ := creditVote_grows (i := q.1) ht hidle
      (hstake q.2.1) (hv q mem_cons_self) hfirst
    have hrest := ih (a := a₁) (by rw [hstage₁]; exact hgrows₁.tallied) hidle₁
      (by rw [hstage₁]; exact hstake) ?_ h
    · obtain ⟨hidle', tree, tracker, tower, hstage, hgrows⟩ := hrest
      rw [hstage₁] at hstage hgrows
      refine ⟨hidle', tree, tracker, tower, hstage, ?_⟩
      have hset : creditable slotOf (q :: votes)
          = creditable slotOf [(q.1, q.2.1, q.2.2)] ∪ creditable slotOf votes := by
        ext v
        simp only [creditable, mem_cons, not_mem_nil, or_false, Set.mem_union,
          Set.mem_ofPred_eq, exists_eq_or_imp, exists_eq_left]
        tauto
      rw [hset]
      exact hgrows₁.trans hgrows
    · intro q' hq' slot hslot
      obtain ⟨heq, hmem⟩ := hv q' (mem_cons_of_mem _ hq') slot hslot
      rw [hstage₁]
      exact ⟨heq, hgrows₁.links.mem_iff.mpr hmem⟩

end

/-! ### What a stage represents -/

/-- The voters of the votes that wait for a slot. -/
def waiting (s : ReplayStage) (slot : UInt64) : Set Hash :=
  {v | ∃ votes, s.pendingVotes.lookup slot = some votes ∧ ∃ q ∈ votes, q.1 = v}

/-- The stage is what the blocks and the votes make of a fresh one, in whatever order they came: the
votes by gossip (`gossiped`) and those in the blocks (`carried`). -/
structure Represents (stakeOf slotOf : Hash → UInt64) (rootSlot : UInt64) (rootHash : Hash)
    (blocks : Set Block) (gossiped carried : Set Hash) (s : ReplayStage) : Prop where
  tallied : s.forkTree.Tallied stakeOf slotOf
  stake : ∀ v, s.bank.getValidatorStake v = stakeOf v
  root : s.forkTree.rootSlot = rootSlot ∧
    (s.forkTree.nodes.lookup rootSlot).map ForkNode.blockHash = some rootHash
  mem : ∀ x, x ∈ s.forkTree.nodes ↔ x = rootSlot ∨ ∃ block ∈ blocks, block.header.slot = x
  block : ∀ block ∈ blocks, s.forkTree.up block.header.slot = some block.header.parentSlot ∧
    (s.forkTree.nodes.lookup block.header.slot).map ForkNode.blockHash = some block.header.blockHash
  pending : ∀ slot votes, s.pendingVotes.lookup slot = some votes → slot ∉ s.forkTree.nodes ∧
    ∀ q ∈ votes, slotOf q.1 = slot ∧ q.2.2 = stakeOf q.1 ∧ q.1 ∈ gossiped
  counted : ∀ v ∈ s.forkTree.counted, v ∈ gossiped ∪ carried
  ofGossip : ∀ v ∈ gossiped, v ∈ s.forkTree.counted ∨ v ∈ s.waiting (slotOf v)
  ofBlock : ∀ v ∈ carried, v ∈ s.forkTree.counted
  tower : TowerIdle slotOf s

variable {rootSlot : UInt64} {rootHash bankHash : Hash} {blocks : Set Block}
  {gossiped carried : Set Hash}

theorem represents_fresh (h : Fresh rootSlot rootHash bankHash s) :
    Represents s.bank.getValidatorStake slotOf rootSlot rootHash ∅ ∅ ∅ s := by
  have hcounted : s.forkTree.counted = ∅ := by
    rw [h.forkTree]
    rfl
  refine ⟨?_, fun _ => rfl, ?_, fun x => ?_, fun _ hin => hin.elim, ?_, ?_, fun _ hin => hin.elim,
    fun _ hin => hin.elim, h.noRoot, .inl h.votes⟩
  · rw [h.forkTree]
    exact tallied_new rootSlot rootHash bankHash
  · rw [h.forkTree]
    exact ⟨rfl, by simp [new]⟩
  · rw [h.forkTree]
    refine (Finmap.mem_singleton x rootSlot _).trans ⟨.inl, ?_⟩
    rintro (rfl | ⟨block, hin, -⟩)
    · rfl
    · exact hin.elim
  · intro slot votes hvotes
    rw [h.pendingVotes] at hvotes
    exact absurd hvotes (by simp)
  · rw [hcounted]
    exact fun v hv => absurd hv (Finset.notMem_empty v)

/-- Voters are counted, by gossip or in blocks, and nothing else happens to the tree. -/
theorem Represents.grows {voters gossiped' carried' : Set Hash} {forkTree : ForkTree}
    (h : Represents stakeOf slotOf rootSlot rootHash blocks gossiped carried s)
    (hgrows : s.forkTree.Grows stakeOf slotOf voters forkTree) (htree : s'.forkTree = forkTree)
    (hstake : ∀ v, s'.bank.getValidatorStake v = s.bank.getValidatorStake v)
    (hpending : s'.pendingVotes = s.pendingVotes) (htower : TowerIdle slotOf s')
    (hgossiped : gossiped ⊆ gossiped') (hcarried : carried ⊆ carried')
    (hvoters : voters ⊆ gossiped' ∪ carried')
    (hnew : ∀ v, v ∈ gossiped' \ gossiped ∨ v ∈ carried' \ carried →
      v ∈ voters ∧ slotOf v ∈ s.forkTree.nodes) :
    Represents stakeOf slotOf rootSlot rootHash blocks gossiped' carried' s' := by
  subst htree
  have hkept : ∀ v ∈ s.forkTree.counted, v ∈ s'.forkTree.counted :=
    fun v hv => (hgrows.counted v).mpr (.inl hv)
  refine ⟨hgrows.tallied, fun v => (hstake v).trans (h.stake v),
    ⟨hgrows.links.rootSlot.trans h.root.1, ?_⟩,
    fun x => hgrows.links.mem_iff.trans (h.mem x), fun block hblock => ?_, fun k votes hvotes => ?_,
    fun v hv => ?_, fun v hv => ?_, fun v hv => ?_, htower⟩
  · exact (hgrows.hashes _).trans h.root.2
  · obtain ⟨hup, hhash⟩ := h.block block hblock
    exact ⟨hgrows.links.up_eq ▸ hup, (hgrows.hashes _).trans hhash⟩
  · rw [hpending] at hvotes
    obtain ⟨hnot, hvotes⟩ := h.pending k votes hvotes
    refine ⟨fun hmem => hnot (hgrows.links.mem_iff.mp hmem), fun q hq => ?_⟩
    obtain ⟨hslot, hstake, hin⟩ := hvotes q hq
    exact ⟨hslot, hstake, hgossiped hin⟩
  · rcases (hgrows.counted v).mp hv with hold | ⟨hvoter, -⟩
    · exact (h.counted v hold).imp (fun hin => hgossiped hin) fun hin => hcarried hin
    · exact hvoters hvoter
  · by_cases hold : v ∈ gossiped
    · unfold waiting
      rw [hpending]
      exact (h.ofGossip v hold).imp_left (hkept v)
    · exact .inl ((hgrows.counted v).mpr (.inr (hnew v (.inl ⟨hv, hold⟩))))
  · by_cases hold : v ∈ carried
    · exact hkept v (h.ofBlock v hold)
    · exact (hgrows.counted v).mpr (.inr (hnew v (.inr ⟨hv, hold⟩)))

theorem TowerIdle.grows {voters : Set Hash} {forkTree : ForkTree} (h : TowerIdle slotOf s)
    (hgrows : s.forkTree.Grows stakeOf slotOf voters forkTree) (htree : s'.forkTree = forkTree)
    (htower : s'.tower = s.tower) (hvoter : s'.authorizedVoter = s.authorizedVoter) :
    TowerIdle slotOf s' := by
  subst htree
  unfold TowerIdle
  rw [htower, hvoter]
  exact ⟨h.1, h.2.imp_right fun hone => ⟨hone.1, (hgrows.counted _).mpr (.inl hone.2)⟩⟩

/-! ### Gossip votes -/

theorem bufferVote_of_room {v : Hash × Hash × UInt64}
    (h : (insert slot s.pendingVotes.keys).card ≤ maxPendingVoteSlots) :
    s.bufferVote slot v = { s with
      pendingVotes := s.pendingVotes.insert slot ((s.pendingVotes.lookup slot).getD [] ++ [v]) } := by
  have hkeys : (s.pendingVotes.insert slot ((s.pendingVotes.lookup slot).getD [] ++ [v])).keys
      = insert slot s.pendingVotes.keys := by
    ext k
    simp [Finmap.mem_keys]
  unfold bufferVote
  dsimp only
  rw [hkeys, Nat.sub_eq_zero_of_le h, take_zero, foldl_nil]

variable (h : Represents stakeOf slotOf rootSlot rootHash blocks gossiped carried s)

section

variable {hash : Hash}

include h

/-- A vote is put with those that wait for its slot. -/
theorem Represents.wait (hnot : slotOf voter ∉ s.forkTree.nodes) :
    Represents stakeOf slotOf rootSlot rootHash blocks (insert voter gossiped) carried { s with
      pendingVotes := s.pendingVotes.insert (slotOf voter)
        ((s.pendingVotes.lookup (slotOf voter)).getD [] ++ [(voter, hash, stakeOf voter)]) } := by
  have hold : ∀ q ∈ (s.pendingVotes.lookup (slotOf voter)).getD [],
      slotOf q.1 = slotOf voter ∧ q.2.2 = stakeOf q.1 ∧ q.1 ∈ gossiped := by
    intro q hq
    cases hwait : s.pendingVotes.lookup (slotOf voter) with
    | none => simp [hwait] at hq
    | some votes =>
      rw [hwait] at hq
      exact (h.pending _ votes hwait).2 q hq
  refine ⟨h.tallied, h.stake, h.root, h.mem, h.block, fun k votes hvotes => ?_, fun v hv => ?_,
    fun v hv => ?_, h.ofBlock, h.tower⟩
  · dsimp only at hvotes
    by_cases hk : k = slotOf voter
    · subst hk
      rw [Finmap.lookup_insert] at hvotes
      cases hvotes
      refine ⟨hnot, fun q hq => ?_⟩
      rcases mem_append.mp hq with hq | hq
      · obtain ⟨hslot, hstake, hin⟩ := hold q hq
        exact ⟨hslot, hstake, .inr hin⟩
      · rw [mem_singleton.mp hq]
        exact ⟨rfl, rfl, .inl rfl⟩
    · rw [Finmap.lookup_insert_of_ne _ hk] at hvotes
      obtain ⟨hmem, hvotes⟩ := h.pending k votes hvotes
      refine ⟨hmem, fun q hq => ?_⟩
      obtain ⟨hslot, hstake, hin⟩ := hvotes q hq
      exact ⟨hslot, hstake, .inr hin⟩
  · exact (h.counted v hv).imp_left .inr
  · unfold waiting
    dsimp only
    by_cases hk : slotOf v = slotOf voter
    · -- The voter is the new one, or it was waiting for the same slot.
      rw [hk, Finmap.lookup_insert]
      rcases hv with rfl | hv
      · exact .inr ⟨_, rfl, _, mem_append_right _ (mem_singleton_self _), rfl⟩
      · refine (h.ofGossip v hv).imp_right ?_
        rintro ⟨votes, hvotes, q, hq, hqv⟩
        refine ⟨_, rfl, q, mem_append_left _ ?_, hqv⟩
        rw [← hk, hvotes]
        exact hq
    · rw [Finmap.lookup_insert_of_ne _ hk]
      rcases hv with rfl | hv
      · exact absurd rfl hk
      · exact h.ofGossip v hv

/-- A gossip vote is counted, or it waits for its slot. -/
theorem Represents.gossip {stake : UInt64}
    (horderly : s.Orderly (.gossip voter (slotOf voter) hash stake))
    (hrun : s.processGossipVote voter (slotOf voter) hash stake = .ok s') :
    Represents stakeOf slotOf rootSlot rootHash blocks (insert voter gossiped) carried s' := by
  obtain ⟨hstake, hroom⟩ := horderly
  obtain rfl : stake = stakeOf voter := hstake.trans (h.stake voter)
  unfold processGossipVote at hrun
  split_ifs at hrun with hin
  · have hin : slotOf voter ∈ s.forkTree.nodes := by simpa [ForkTree.contains] using hin
    obtain ⟨⟨added, tree⟩, htree, hrun⟩ := exceptBind_eq_ok.mp hrun
    cases hrun
    have hgrows := h.tallied.grows_addVote htree
    refine h.grows hgrows rfl (fun _ => rfl) rfl (h.tower.grows hgrows rfl rfl rfl)
      (Set.subset_insert _ _) subset_rfl ?_ ?_
    · rintro v rfl
      exact .inl (.inl rfl)
    · rintro v (⟨hv | hv, hold⟩ | ⟨hv, hold⟩)
      · exact ⟨hv, hv ▸ hin⟩
      all_goals exact absurd hv hold
  · have hin : slotOf voter ∉ s.forkTree.nodes := by simpa [ForkTree.contains] using hin
    rw [bufferVote_of_room hroom] at hrun
    cases hrun
    exact h.wait hin

end

/-! ### Blocks -/

/-- The votes that wait for a slot are counted, and no longer wait. -/
theorem drainPendingVotes_grows (ht : s.forkTree.Tallied stakeOf slotOf)
    (hv : ∀ votes, s.pendingVotes.lookup slot = some votes →
      ∀ q ∈ votes, slotOf q.1 = slot ∧ q.2.2 = stakeOf q.1)
    (h : drainPendingVotes slot s = .ok s') :
    ∃ forkTree commitmentTracker pendingVotes,
      s' = { s with forkTree, commitmentTracker, pendingVotes } ∧
        (∀ k, pendingVotes.lookup k = if k = slot then none else s.pendingVotes.lookup k) ∧
          s.forkTree.Grows stakeOf slotOf (s.waiting slot) forkTree := by
  unfold drainPendingVotes at h
  split at h
  case h_1 hnone =>
    cases h
    refine ⟨_, _, s.pendingVotes, rfl, fun k => ?_, ht.grows_self ?_⟩
    · split_ifs with hk
      · rw [hk, hnone]
      · rfl
    · rintro v ⟨votes, hvotes, -⟩
      exact absurd (hnone.symm.trans hvotes) (by simp)
  case h_2 votes hvotes =>
    obtain ⟨forkTree, tracker, rfl, hgrows⟩ := applyPendingVotes_grows
      (s := { s with pendingVotes := s.pendingVotes.erase slot }) ht (hv votes hvotes) h
    refine ⟨forkTree, tracker, _, rfl, fun k => ?_, ?_⟩
    · split_ifs with hk
      · rw [hk, Finmap.lookup_erase]
      · rw [Finmap.lookup_erase_ne hk]
    · have hset : s.waiting slot = {v | ∃ q ∈ votes, q.1 = v} := by
        ext v
        simp [waiting, hvotes]
      rw [hset]
      exact hgrows

section

variable {block : Block} (hparent : block.header.parentSlot ∈ s.forkTree.nodes)

include h hparent

/-- A slot joins the tree with the votes that wait for it. -/
theorem Represents.join {tree : ForkTree}
    (hadd : s.forkTree.addSlot block.header.slot block.header.parentSlot block.header.blockHash
      block.header.bankHash = .ok tree)
    (hdrain : drainPendingVotes block.header.slot { s with forkTree := tree } = .ok s') :
    Represents stakeOf slotOf rootSlot rootHash (insert block blocks) gossiped carried s' ∧
      ∀ x, x ∈ s'.forkTree.nodes ↔ x = block.header.slot ∨ x ∈ s.forkTree.nodes := by
  obtain ⟨hslot, -, htree, -⟩ := addSlot_lookup hadd
  obtain ⟨htallied, hcounted⟩ := h.tallied.addSlot hadd hparent
  obtain ⟨hup, hupOther⟩ := up_addSlot hadd hparent
  have hhash := addSlot_map (f := ForkNode.blockHash) hadd (fun _ => rfl) fun _ _ => rfl
  obtain ⟨forkTree, tracker, pendingVotes, rfl, hpending, hgrows⟩ := drainPendingVotes_grows
    (s := { s with forkTree := tree }) htallied (fun votes hvotes q hq => by
      obtain ⟨heq, hstake, -⟩ := (h.pending _ votes hvotes).2 q hq
      exact ⟨heq, hstake⟩) hdrain
  have hmem : ∀ x, x ∈ forkTree.nodes ↔ x = block.header.slot ∨ x ∈ s.forkTree.nodes :=
    fun x => hgrows.links.mem_iff.trans (mem_addSlot hadd)
  have hkept : ∀ v ∈ s.forkTree.counted, v ∈ forkTree.counted :=
    fun v hv => (hgrows.counted v).mpr (.inl (hcounted ▸ hv))
  have hne : ∀ x ∈ s.forkTree.nodes, x ≠ block.header.slot := fun x hx heq => hslot (heq ▸ hx)
  have hroot : rootSlot ≠ block.header.slot := hne _ ((h.mem _).mpr (.inl rfl))
  refine ⟨⟨hgrows.tallied, h.stake, ⟨?_, ?_⟩, fun x => ?_, ?_, fun k votes hvotes => ?_, fun v hv => ?_,
    fun v hv => ?_, fun v hv => hkept v (h.ofBlock v hv), h.tower.1,
    h.tower.2.imp_right fun hone => ⟨hone.1, hkept _ hone.2⟩⟩, hmem⟩
  · refine hgrows.links.rootSlot.trans (Eq.trans ?_ h.root.1)
    rw [htree]
  · dsimp only
    rw [hgrows.hashes, hhash, if_neg hroot]
    exact h.root.2
  · dsimp only
    rw [hmem, h.mem]
    constructor
    · rintro (rfl | rfl | ⟨b, hb, rfl⟩)
      · exact .inr ⟨block, .inl rfl, rfl⟩
      · exact .inl rfl
      · exact .inr ⟨b, .inr hb, rfl⟩
    · rintro (rfl | ⟨b, rfl | hb, rfl⟩)
      · exact .inr (.inl rfl)
      · exact .inl rfl
      · exact .inr (.inr ⟨b, hb, rfl⟩)
  · rintro b (rfl | hb)
    · dsimp only
      rw [hgrows.links.up_eq, hgrows.hashes, hhash, if_pos rfl]
      exact ⟨hup, rfl⟩
    · have hold := hne _ ((h.mem _).mpr (.inr ⟨b, hb, rfl⟩))
      dsimp only
      rw [hgrows.links.up_eq, hgrows.hashes, hhash, if_neg hold, hupOther _ hold]
      exact h.block b hb
  · dsimp only at hvotes
    rw [hpending] at hvotes
    split_ifs at hvotes with hk
    obtain ⟨hnot, hvotes⟩ := h.pending k votes hvotes
    exact ⟨fun hin => ((hmem k).mp hin).elim hk hnot, hvotes⟩
  · refine ((hgrows.counted v).mp hv).elim (fun hold => h.counted v (hcounted ▸ hold)) ?_
    rintro ⟨⟨votes, hvotes, q, hq, rfl⟩, -⟩
    exact .inl ((h.pending _ votes hvotes).2 q hq).2.2
  · refine (h.ofGossip v hv).elim (fun hold => .inl (hkept v hold)) fun hwait => ?_
    by_cases hk : slotOf v = block.header.slot
    · refine .inl ((hgrows.counted v).mpr (.inr ⟨hk ▸ hwait, ?_⟩))
      exact (mem_addSlot hadd).mpr (.inl hk)
    · obtain ⟨votes, hvotes, hq⟩ := hwait
      refine .inr ⟨votes, ?_, hq⟩
      exact (hpending _).trans ((if_neg hk).trans hvotes)

/-- A block is replayed. -/
theorem Represents.replay {pohEntries : List PohEntry} {parentPoh : Hash}
    {result : ReplayResult}
    (honce : s.VotesOnce P slotOf (.block block pohEntries parentPoh))
    (hrun : (replayBlock P block pohEntries parentPoh).run s = .ok result s') :
    Represents stakeOf slotOf rootSlot rootHash (insert block blocks) gossiped
      (carried ∪ creditable slotOf (carriedVotes P block)) s' := by
  obtain ⟨frozen, s₁, tally, henter, hvotes, hleave⟩ := replayBlock_parts hrun
  obtain ⟨⟨tree, hadd, hdrain⟩, -⟩ := enterSlot_eq_ok henter
  obtain ⟨hjoined, hmem⟩ := h.join hparent hadd hdrain
  have hroot : s₁.rootSlot = 0 := by
    unfold ReplayStage.rootSlot
    rw [hjoined.tower.1, Option.getD_none]
  rw [hroot] at hvotes
  -- The slots of the votes are in the tree by now.
  have hslots : ∀ q ∈ carriedVotes P block, ∀ slot, q.2.2.slots.getLast? = some slot →
      slot = slotOf q.2.1 ∧ slot ∈ s₁.forkTree.nodes := by
    intro q hq slot hslot
    obtain ⟨heq, hin⟩ := honce q hq slot hslot
    exact ⟨heq, (hmem slot).mpr hin⟩
  obtain ⟨hidle, forkTree, tracker, tower, hstage, hgrows⟩ := creditVotes_grows
    (a := { stage := s₁ }) hjoined.tallied hjoined.tower hjoined.stake hslots hvotes
  simp only [leaveSlot, exceptBind_eq_ok] at hleave
  obtain ⟨bank, hbank, best, hbest, hleave⟩ := hleave
  obtain ⟨clock, rfl⟩ := ConsensusBank.advanceSlot_eq_ok hbank
  obtain ⟨-, rfl⟩ := Prod.mk.inj (Except.ok.inj hleave)
  obtain ⟨bestSlot, -, hbest⟩ := exceptBind_eq_ok.mp hbest
  cases hbest
  rw [hstage] at hidle ⊢
  have hall := hgrows.trans (hgrows.tallied.grows_bestSlot bestSlot)
  rw [Set.union_empty] at hall
  refine hjoined.grows hall rfl (fun _ => rfl) rfl ⟨hidle.1, hidle.2⟩ subset_rfl
    Set.subset_union_left (fun v hv => .inr (.inr hv)) ?_
  rintro v (⟨hv, hold⟩ | ⟨hv | hv, hold⟩)
  · exact absurd hv hold
  · exact absurd hv hold
  · obtain ⟨-, q, hq, rfl, hsome⟩ := id hv
    obtain ⟨slot, hslot⟩ := Option.isSome_iff_exists.mp hsome
    obtain ⟨rfl, hin⟩ := hslots q hq slot hslot
    exact ⟨hv, hin⟩

end

/-! ### Runs -/

/-- The blocks of an event. -/
def blocksOf : StageEvent → Set Block
  | .block block _ _ => {block}
  | _ => ∅

/-- The voters of the gossip votes of an event. -/
def gossipOf : StageEvent → Set Hash
  | .gossip voter _ _ _ => {voter}
  | _ => ∅

/-- The voters that an event lets vote in a block. -/
def carriedOf (P : Platform) (slotOf : Hash → UInt64) : StageEvent → Set Hash
  | .block block _ _ => creditable slotOf (carriedVotes P block)
  | _ => ∅

variable {e : StageEvent} {events events' : List StageEvent} {s₁ s₂ s₁' s₂' : ReplayStage}

section

include h

/-- **The step lemma.**  A step adds its event to what the stage represents. -/
theorem Represents.step (hstep : VotesOnceStep P slotOf s e s') :
    Represents stakeOf slotOf rootSlot rootHash (blocks ∪ blocksOf e) (gossiped ∪ gossipOf e)
      (carried ∪ carriedOf P slotOf e) s' := by
  obtain ⟨⟨horderly, hrun⟩, honce⟩ := hstep
  cases e with
  | block block pohEntries parentPoh =>
    obtain ⟨result, hrun⟩ := hrun
    simp only [blocksOf, gossipOf, carriedOf, Set.union_singleton, Set.union_empty]
    exact h.replay horderly honce hrun
  | gossip voter slot hash stake =>
    obtain rfl : slot = slotOf voter := honce
    simp only [blocksOf, gossipOf, carriedOf, Set.union_singleton, Set.union_empty]
    exact h.gossip horderly hrun
  | root => exact horderly.elim

/-- **The run lemma.** -/
theorem Represents.steps (hrun : Steps (VotesOnceStep P slotOf) s events s') :
    Represents stakeOf slotOf rootSlot rootHash (blocks ∪ {b | ∃ e ∈ events, b ∈ blocksOf e})
      (gossiped ∪ {v | ∃ e ∈ events, v ∈ gossipOf e})
      (carried ∪ {v | ∃ e ∈ events, v ∈ carriedOf P slotOf e}) s' := by
  induction hrun generalizing blocks gossiped carried with
  | nil s => simpa using h
  | @cons s t u e events head tail ih =>
    have hset : ∀ {α : Type} (f : StageEvent → Set α) (start : Set α),
        start ∪ f e ∪ {x | ∃ e' ∈ events, x ∈ f e'} = start ∪ {x | ∃ e' ∈ e :: events, x ∈ f e'} := by
      intro α f start
      ext x
      simp [or_assoc]
    have hrest := ih (h.step head)
    rwa [hset, hset, hset] at hrest

end

/-! ### Convergence -/

/-- A voter is counted exactly if it has voted and its slot is in the tree. -/
theorem Represents.mem_counted_iff {v : Hash}
    (h : Represents stakeOf slotOf rootSlot rootHash blocks gossiped carried s) :
    v ∈ s.forkTree.counted ↔ slotOf v ∈ s.forkTree.nodes ∧ v ∈ gossiped ∪ carried := by
  constructor
  · exact fun hv => ⟨h.tallied.voted v hv, h.counted v hv⟩
  · rintro ⟨hslot, hv | hv⟩
    · refine (h.ofGossip v hv).resolve_right ?_
      rintro ⟨votes, hvotes, -⟩
      exact (h.pending _ votes hvotes).1 hslot
    · exact h.ofBlock v hv

/-- Stages that represent the same blocks and votes have trees that agree. -/
theorem Represents.agree
    (h₁ : Represents stakeOf slotOf rootSlot rootHash blocks gossiped carried s₁)
    (h₂ : Represents stakeOf slotOf rootSlot rootHash blocks gossiped carried s₂) :
    ForkTree.Agree s₁.forkTree s₂.forkTree := by
  have hmem : ∀ x, x ∈ s₂.forkTree.nodes ↔ x ∈ s₁.forkTree.nodes :=
    fun x => (h₂.mem x).trans (h₁.mem x).symm
  refine ⟨h₂.root.1.trans h₁.root.1.symm, funext fun x => ?_, fun x => ?_, ?_⟩
  · by_cases hx : x ∈ s₁.forkTree.nodes
    · rcases (h₁.mem x).mp hx with rfl | ⟨block, hblock, rfl⟩
      · have hup₁ := h₁.tallied.wellFormed.root.2
        have hup₂ := h₂.tallied.wellFormed.root.2
        rw [h₁.root.1] at hup₁
        rw [h₂.root.1] at hup₂
        rw [hup₁, hup₂]
      · rw [(h₁.block block hblock).1, (h₂.block block hblock).1]
    · have hnone : ∀ t : ForkTree, x ∉ t.nodes → t.up x = none := by
        intro t hnot
        cases hup : t.up x with
        | none => rfl
        | some y => exact absurd (mem_of_up hup) hnot
      rw [hnone _ hx, hnone _ fun hin => hx ((hmem x).mp hin)]
  · by_cases hx : x ∈ s₁.forkTree.nodes
    · rcases (h₁.mem x).mp hx with rfl | ⟨block, hblock, rfl⟩
      · rw [h₁.root.2, h₂.root.2]
      · rw [(h₁.block block hblock).2, (h₂.block block hblock).2]
    · have hx' : x ∉ s₂.forkTree.nodes := fun hin => hx ((hmem x).mp hin)
      rw [Finmap.lookup_eq_none.mpr hx, Finmap.lookup_eq_none.mpr hx']
  · ext v
    rw [h₁.mem_counted_iff, h₂.mem_counted_iff, hmem]

/-- Different blocks on one parent have different hashes. -/
def BlocksDiffer (events : List StageEvent) : Prop :=
  ∀ e ∈ events, ∀ e' ∈ events, ∀ block ∈ blocksOf e, ∀ block' ∈ blocksOf e',
    block.header.parentSlot = block'.header.parentSlot →
      block.header.blockHash = block'.header.blockHash → block.header.slot = block'.header.slot

/-- The hashes of siblings in the tree are those of blocks on one parent. -/
theorem Represents.siblingsDiffer
    (h : Represents stakeOf slotOf rootSlot rootHash {b | ∃ e ∈ events, b ∈ blocksOf e} gossiped
      carried s) (hdiffer : BlocksDiffer events) : s.forkTree.SiblingsDiffer := by
  have hblock : ∀ c p node, s.forkTree.up c = some p → s.forkTree.nodes.lookup c = some node →
      ∃ e ∈ events, ∃ block ∈ blocksOf e, block.header.slot = c ∧ block.header.parentSlot = p ∧
        block.header.blockHash = node.blockHash := by
    intro c p node hup hnode
    rcases (h.mem c).mp (mem_of_up hup) with rfl | ⟨block, hin, rfl⟩
    · have hnone := h.tallied.wellFormed.root.2
      rw [h.root.1, hup] at hnone
      exact absurd hnone (by simp)
    · obtain ⟨e, he, hb⟩ := hin
      obtain ⟨hup', hhash⟩ := h.block block ⟨e, he, hb⟩
      rw [hnode, Option.map_some] at hhash
      exact ⟨e, he, block, hb, rfl, Option.some.inj (hup'.symm.trans hup),
        (Option.some.inj hhash).symm⟩
  intro c d p node node' hc hd hnode hnode' heq
  obtain ⟨e, he, block, hb, rfl, hp, hhash⟩ := hblock c p node hc hnode
  obtain ⟨e', he', block', hb', rfl, hp', hhash'⟩ := hblock d p node' hd hnode'
  exact hdiffer e he e' he' block hb block' hb' (hp.trans hp'.symm)
    (hhash.trans (heq.trans hhash'.symm))

/-- Two stages have the same stakes at every slot, and choose the same fork. -/
def SameForkChoice (s₁ s₂ : ReplayStage) : Prop :=
  (∀ slot, s₁.forkTree.stakes slot = s₂.forkTree.stakes slot) ∧
    ∃ t₁ t₂, s₁.forkTree.computeBestFork = .ok t₁ ∧ s₂.forkTree.computeBestFork = .ok t₂ ∧
      t₁.bestSlot = t₂.bestSlot

/-- **Convergence.**  Two fresh stages with the same stakes see the same events, in any order in which
a block comes after its parent, with no root that advances and no vote that is displaced.  If every
voter votes for one slot, the votes in blocks are for slots that are in the tree, and different blocks
on one parent have different hashes, the stages end with the same fork choice. -/
theorem forkChoice_converges (hfresh₁ : Fresh rootSlot rootHash bankHash s₁)
    (hfresh₂ : Fresh rootSlot rootHash bankHash s₂)
    (hstakes : ∀ v, s₁.bank.getValidatorStake v = s₂.bank.getValidatorStake v)
    (hrun₁ : Trace.Steps (VotesOnceStep P slotOf) s₁ events s₁')
    (hrun₂ : Trace.Steps (VotesOnceStep P slotOf) s₂ events' s₂')
    (hsame : ∀ e, e ∈ events ↔ e ∈ events') (hdiffer : BlocksDiffer events) :
    SameForkChoice s₁' s₂' := by
  have h₁ := (represents_fresh hfresh₁).steps hrun₁
  have h₂ := (represents_fresh hfresh₂).steps hrun₂
  simp only [Set.empty_union] at h₁ h₂
  simp only [← hsame, ← funext hstakes] at h₂
  have halike := h₁.tallied.alike h₂.tallied (h₁.agree h₂)
  refine ⟨fun slot => ?_, ?_⟩
  · unfold stakes
    cases hx : s₂'.forkTree.nodes.lookup slot with
    | none =>
      have hvotes := halike.votes slot
      rw [hx, Option.map_none, eq_comm, Option.map_eq_none_iff] at hvotes
      rw [hvotes]
    | some node' =>
      obtain ⟨node, hnode, hsubtree, hvotes⟩ := halike.lookup h₁.tallied h₂.tallied hx
      rw [hnode, Option.map_some, Option.map_some, hsubtree, (Prod.mk.inj hvotes).1]
  · obtain ⟨t₁, t₂, ht₁, ht₂, heq⟩ := halike.bestSlot_eq h₁.tallied h₂.tallied
      (h₁.siblingsDiffer hdiffer)
    exact ⟨t₁, t₂, ht₁, ht₂, heq.symm⟩

end ReplayStage

/-! ### Two votes of one voter -/

namespace Sample

open ReplayStage

/-- A step of a quiet run as a function. -/
def quietNext (s : ReplayStage) (e : StageEvent) : Option ReplayStage :=
  if s.Orderly e then next (Platform.sample false) s e else none

theorem quietSteps_of_foldlM {s s' : ReplayStage} {events : List StageEvent}
    (h : events.foldlM quietNext s = some s') :
    Steps (QuietStep .release) s events s' := by
  refine (Steps.of_foldlM h).mono fun s e s' hstep => ?_
  unfold quietNext at hstep
  split_ifs at hstep with horderly
  exact ⟨horderly, stageStep_of_next hstep⟩

/-- An empty block for slot 1 or 2, on slot 0. -/
def fork (slot : UInt64) : StageEvent :=
  .block ⟨{ header with slot, blockHash := Hash.repeated slot.toUInt8 }, [], []⟩ [] Hash.zero

/-- A gossip vote of `victim`. -/
def voteFor (slot : UInt64) : StageEvent := .gossip victim slot (Hash.repeated slot.toUInt8) 10

/-- A block for slot 2 on slot 0 that carries a vote for slot 1. -/
def carrier : StageEvent :=
  .block ⟨{ header with slot := 2 }, [forgedVote], []⟩ [] Hash.zero

theorem fresh_backed : Fresh 0 Hash.zero Hash.zero backed := ⟨rfl, rfl, rfl, rfl⟩

end Sample

open Sample ReplayStage in
/-- A voter votes for slot 1 and for slot 2, and the vote that comes first is counted.  A vote in a
block is counted only if its slot has come before. -/
theorem order_decides_the_fork :
    (∃ s s', Trace.Steps (QuietStep (Platform.sample false)) backed
        [fork 1, fork 2, voteFor 1, voteFor 2] s ∧
      Trace.Steps (QuietStep (Platform.sample false)) backed
        [fork 1, fork 2, voteFor 2, voteFor 1] s' ∧ ¬ SameForkChoice s s') ∧
    ∃ s s', Trace.Steps (QuietStep (Platform.sample false)) backed [fork 1, carrier] s ∧
      Trace.Steps (QuietStep (Platform.sample false)) backed [carrier, fork 1] s' ∧
        ¬ SameForkChoice s s' := by
  constructor
  · obtain ⟨s, hs, s', hs', hne⟩ :
        ∃ s, [fork 1, fork 2, voteFor 1, voteFor 2].foldlM quietNext backed = some s ∧
        ∃ s', [fork 1, fork 2, voteFor 2, voteFor 1].foldlM quietNext backed = some s' ∧
        s.forkTree.stakes 1 ≠ s'.forkTree.stakes 1 := by decide +kernel
    exact ⟨s, s', quietSteps_of_foldlM hs, quietSteps_of_foldlM hs', fun h => hne (h.1 1)⟩
  · obtain ⟨s, hs, s', hs', hne⟩ :
        ∃ s, [fork 1, carrier].foldlM quietNext backed = some s ∧
        ∃ s', [carrier, fork 1].foldlM quietNext backed = some s' ∧
        s.forkTree.stakes 1 ≠ s'.forkTree.stakes 1 := by decide +kernel
    exact ⟨s, s', quietSteps_of_foldlM hs, quietSteps_of_foldlM hs', fun h => hne (h.1 1)⟩

namespace Sample

open ReplayStage

/-- A step of a run with no event but a block for slot 1 and a vote for it. -/
def onceNext (s : ReplayStage) (e : StageEvent) : Option ReplayStage :=
  if e = fork 1 ∨ e = voteFor 1 then quietNext s e else none

theorem onceSteps_of_foldlM {s s' : ReplayStage} {events : List StageEvent}
    (h : events.foldlM onceNext s = some s') :
    Steps (VotesOnceStep .release fun _ => 1) s events s' := by
  refine (Steps.of_foldlM h).mono fun s e s' hstep => ?_
  unfold onceNext quietNext at hstep
  split_ifs at hstep with hevent horderly
  refine ⟨⟨horderly, stageStep_of_next hstep⟩, ?_⟩
  rcases hevent with rfl | rfl
  · intro q hq
    cases hq
  · rfl

end Sample

open Sample ReplayStage in
/-- A block and a vote for it are counted alike in both orders. -/
theorem one_vote_in_any_order :
    ∃ s s', Trace.Steps (VotesOnceStep (Platform.sample false) fun _ => 1) backed
        [fork 1, voteFor 1] s ∧
      Trace.Steps (VotesOnceStep (Platform.sample false) fun _ => 1) backed
        [voteFor 1, fork 1] s' ∧
      s.forkTree.stakes 1 = some (10, 10) ∧ SameForkChoice s s' := by
  obtain ⟨s, hs, s', hs', hstakes⟩ :
      ∃ s, [fork 1, voteFor 1].foldlM onceNext backed = some s ∧
      ∃ x, [voteFor 1, fork 1].foldlM onceNext backed = some x ∧
      s.forkTree.stakes 1 = some (10, 10) := by decide +kernel
  have hdiffer : BlocksDiffer [fork 1, voteFor 1] := by
    intro e he e' he' block hb block' hb' _ _
    have hone : ∀ e ∈ [fork 1, voteFor 1], ∀ block ∈ blocksOf e, block.header.slot = 1 := by
      intro e he block hb
      simp only [mem_cons, not_mem_nil, or_false] at he
      rcases he with rfl | rfl
      · rw [Set.mem_singleton_iff.mp hb]
      · exact hb.elim
    rw [hone e he block hb, hone e' he' block' hb']
  refine ⟨s, s', onceSteps_of_foldlM hs, onceSteps_of_foldlM hs', hstakes, ?_⟩
  exact forkChoice_converges fresh_backed fresh_backed (fun _ => rfl) (onceSteps_of_foldlM hs)
    (onceSteps_of_foldlM hs') (by simp [or_comm]) hdiffer

end Nusantara
