import Nusantara.Consensus.ForkLinks
import Nusantara.Consensus.ForkSwitch
import Nusantara.Lib.Trace

/-!
# The block a vote is counted for

A vote names a slot and the hash of a block.  Votes come in blocks and by gossip, and the gossip
votes for a slot that is not in the tree wait for it.  All of them go to the fork tree and to the
commitment.  The commitment ignores a vote for another hash than that of its entry; the fork tree
does not look at the hash, and a vote in a block is handed to the commitment under the hash of the
tree instead of its own.

So a vote counts for the block it names as long as there is one block for each slot, and every vote
names it.

## Main results

* `ReplayStage.OneHash.step`: a step of the stage keeps to one hash for each slot.
* `ReplayStage.countsItsBlock_of_steps`: where there is one hash for each slot, votes count only for
  the block they name.
-/

namespace Nusantara

open Exec List Finmap Option SlotCommitment Hash

/-! ### Stakes -/

/-- The stakes at a slot of the tree: of the votes for it, and of those for its subtree. -/
def ForkTree.stakes (t : ForkTree) (slot : UInt64) : Option (UInt64 × UInt64) :=
  (t.nodes.lookup slot).map fun node => (node.stakeVoted, node.subtreeStake)

/-- The stake in the commitment of a slot. -/
def CommitmentTracker.stake (c : CommitmentTracker) (slot : UInt64) : UInt64 :=
  ((c.slots.lookup slot).map totalStakeVoted).getD 0

namespace ReplayStage

/-- A vote for a slot and a hash took the stage from `s` to `s'` and added stake to no other block:
if any stake in the tree has changed, the slot has a node with this hash, and if the stake of a
commitment has changed, it is that of the slot, with this hash. -/
structure CountsItsBlock (slot : UInt64) (hash : Hash) (s s' : ReplayStage) : Prop where
  tree : ∀ k, s'.forkTree.stakes k ≠ s.forkTree.stakes k →
    (s'.forkTree.nodes.lookup slot).map ForkNode.blockHash = some hash
  commitment : ∀ k, s'.commitmentTracker.stake k ≠ s.commitmentTracker.stake k →
    k = slot ∧ (s'.commitmentTracker.slots.lookup slot).map blockHash = some hash

/-! ### Runs of the stage -/

/-- What happens to the stage. -/
inductive StageEvent where
  | block (block : Block) (pohEntries : List PohEntry) (parentPoh : Hash)
  | gossip (voter : Hash) (slot : UInt64) (hash : Hash) (stake : UInt64)
  | root (slot : UInt64)
  deriving DecidableEq

section Runs

variable (P : Platform)

/-- A step of the stage: a block is replayed, a gossip vote is processed, or the root advances. -/
def StageStep (s : ReplayStage) (e : StageEvent) (s' : ReplayStage) : Prop :=
  match e with
  | .block block pohEntries parentPoh =>
    ∃ result, (replayBlock P block pohEntries parentPoh).run s = .ok result s'
  | .gossip voter slot hash stake => s.processGossipVote voter slot hash stake = .ok s'
  | .root slot => (advanceRoot slot).run s = .ok () s'

/-- A step of the stage as a function. -/
def next (s : ReplayStage) : StageEvent → Option ReplayStage
  | .block block pohEntries parentPoh => ((replayBlock P block pohEntries parentPoh).run s).okState
  | .gossip voter slot hash stake => (s.processGossipVote voter slot hash stake).toOption
  | .root slot => ((advanceRoot slot).run s).okState

/-- In the course of an event that meets the stage `s`, a vote for a slot and a hash is looked at,
which takes the stage from `t` to `t'`. -/
inductive Looks (s : ReplayStage) : StageEvent → UInt64 → Hash → ReplayStage → ReplayStage → Prop
  /-- A gossip vote for a slot of the tree. -/
  | gossip {voter hash : Hash} {slot stake : UInt64} {t' : ReplayStage}
      (run : s.applyPendingVote slot (voter, hash, stake) = .ok t') :
      Looks s (.gossip voter slot hash stake) slot hash s t'
  /-- A gossip vote that was waiting for the slot of a block. -/
  | pending {block : Block} {pohEntries : List PohEntry} {parentPoh voter hash : Hash}
      {stake : UInt64} {before after : List (Hash × Hash × UInt64)} {tree : ForkTree}
      {t t' : ReplayStage}
      (join : s.forkTree.addSlot block.header.slot block.header.parentSlot block.header.blockHash
        block.header.bankHash = .ok tree)
      (votes : s.pendingVotes.lookup block.header.slot
        = some (before ++ (voter, hash, stake) :: after))
      (earlier : before.foldlM (applyPendingVote block.header.slot)
        { s with forkTree := tree, pendingVotes := s.pendingVotes.erase block.header.slot } = .ok t)
      (run : t.applyPendingVote block.header.slot (voter, hash, stake) = .ok t') :
      Looks s (.block block pohEntries parentPoh) block.header.slot hash t t'
  /-- A vote in the transactions of a block; it is for the last of its slots. -/
  | carried {block : Block} {pohEntries : List PohEntry} {parentPoh voter : Hash}
      {rootSlot slot : UInt64} {i : ℕ} {vote : Vote} {t t' : ReplayStage}
      (handles : Handles P s block pohEntries parentPoh rootSlot i voter vote t t')
      (last : vote.slots.getLast? = some slot) :
      Looks s (.block block pohEntries parentPoh) slot vote.hash t t'

/-- The blocks and votes of an event have the hash that `H` gives their slot. -/
def StageEvent.Follows (H : UInt64 → Hash) : StageEvent → Prop
  | .block b _ _ => b.header.blockHash = H b.header.slot ∧
      ∀ v ∈ carriedVotes P b, ∀ slot, v.2.2.slots.getLast? = some slot → v.2.2.hash = H slot
  | .gossip _ slot hash _ => hash = H slot
  | .root _ => True

end Runs

theorem stageStep_of_next {P : Platform} {s s' : ReplayStage} {e : StageEvent}
    (h : next P s e = some s') : StageStep P s e s' := by
  cases e with
  | block => exact Outcome.okState_eq_some.mp h
  | gossip => exact exceptToOption_eq_some.mp h
  | root =>
    obtain ⟨⟨⟩, hrun⟩ := Outcome.okState_eq_some.mp h
    exact hrun

/-- The stage knows the block of a slot by the hash that `H` gives it: in the tree, in the
commitment and in the votes that wait. -/
structure OneHash (H : UInt64 → Hash) (s : ReplayStage) : Prop where
  tree : s.forkTree.nodes.ForAll fun k node => node.blockHash = H k
  commitment : s.commitmentTracker.slots.ForAll fun k e => e.blockHash = H k
  pending : s.pendingVotes.ForAll fun k votes => ∀ v ∈ votes, v.2.1 = H k

end ReplayStage

/-! ### One hash for each slot -/

section Parts

variable {H : UInt64 → Hash} {t t' : ForkTree} {c : CommitmentTracker} {slot : UInt64}
  {voter : Hash} {stake : UInt64}

namespace ForkTree

/-- A vote that changes a stake finds its slot in the tree. -/
theorem mem_of_stakes_ne {counted : Bool} {k : UInt64}
    (h : t.addVote slot voter stake = .ok (counted, t')) (hne : t'.stakes k ≠ t.stakes k) :
    slot ∈ t'.nodes := by
  obtain ⟨-, -, rfl⟩ | ⟨-, -, node, nodes, hnode, -, -⟩ := addVote_eq_ok h
  · exact absurd rfl hne
  · have hhash := addVote_blockHash h slot
    rw [hnode, map_some] at hhash
    obtain ⟨node', hnode', -⟩ := map_eq_some_iff.mp hhash
    exact mem_iff.mpr ⟨node', hnode'⟩

end ForkTree

namespace CommitmentTracker

theorem blockHash_entry (hc : c.slots.ForAll fun k e => e.blockHash = H k) :
    (c.entry slot (H slot)).blockHash = H slot := by
  unfold entry
  cases he : c.slots.lookup slot with
  | none => rfl
  | some e => exact hc slot e he

/-- A vote leaves the other entries alone, and the hash of its own. -/
theorem recordVote_eq {blockHash : Hash} :
    ∃ e, (c.recordVote slot blockHash voter stake).2.slots = c.slots.insert slot e ∧
      e.blockHash = (c.entry slot blockHash).blockHash := by
  unfold recordVote
  simp only
  split_ifs
  all_goals exact ⟨_, rfl, rfl⟩

theorem forAll_recordVote (hc : c.slots.ForAll fun k e => e.blockHash = H k) :
    (c.recordVote slot (H slot) voter stake).2.slots.ForAll fun k e => e.blockHash = H k := by
  obtain ⟨e, hslots, he⟩ : ∃ e, (c.recordVote slot (H slot) voter stake).2.slots
    = c.slots.insert slot e ∧ _ := recordVote_eq
  rw [hslots]
  exact hc.insert (he.trans (blockHash_entry hc))

theorem forAll_trackSlot (hc : c.slots.ForAll fun k e => e.blockHash = H k) :
    (c.trackSlot slot (H slot)).slots.ForAll fun k e => e.blockHash = H k := by
  unfold trackSlot evictOldest
  dsimp only
  generalize take _ _ = oldest
  exact (hc.insert (blockHash_entry hc)).eraseAll oldest

/-- A mark changes neither a hash nor a stake. -/
theorem lookup_markFinalized (k : UInt64) :
    ((c.markFinalized slot).slots.lookup k).map (fun e => (e.blockHash, e.totalStakeVoted))
      = (c.slots.lookup k).map fun e => (e.blockHash, e.totalStakeVoted) := by
  unfold markFinalized
  split
  case h_1 => rfl
  case h_2 e he =>
    by_cases hk : k = slot
    · subst hk
      rw [lookup_insert, he]
      rfl
    · rw [lookup_insert_of_ne _ hk]

end CommitmentTracker

end Parts

namespace ReplayStage

variable {P : Platform} {H : UInt64 → Hash} {s s' t t' : ReplayStage} {slot rootSlot : UInt64}
  {voter hash : Hash} {vote : Vote} {a a' : VoteTally}

/-- A vote under the hash of its slot joins the tree and the commitment. -/
theorem OneHash.addVote {stake : UInt64} {counted : Bool} {tree : ForkTree} (h : OneHash H s)
    (htree : s.forkTree.addVote slot voter stake = .ok (counted, tree)) :
    let s' := { s with
      forkTree := tree
      commitmentTracker := (s.commitmentTracker.recordVote slot (H slot) voter stake).2 }
    OneHash H s' ∧ CountsItsBlock slot (H slot) s s' := by
  have hnodes := ForkTree.HashesMeet.congr (q := fun k hash => hash = H k) h.tree
    (ForkTree.addVote_blockHash htree)
  refine ⟨⟨hnodes, CommitmentTracker.forAll_recordVote h.commitment, h.pending⟩, ?_, ?_⟩
  · intro k hne
    obtain ⟨node, hnode⟩ := mem_iff.mp (ForkTree.mem_of_stakes_ne htree hne)
    rw [hnode]
    exact congrArg some (hnodes slot node hnode)
  · intro k hne
    obtain ⟨e, hslots, he⟩ : ∃ e, (s.commitmentTracker.recordVote slot (H slot) voter stake).2.slots
      = s.commitmentTracker.slots.insert slot e ∧ _ := CommitmentTracker.recordVote_eq
    have hk : k = slot := by
      by_contra hk
      refine hne ?_
      dsimp only [CommitmentTracker.stake]
      rw [hslots, lookup_insert_of_ne _ hk]
    refine ⟨hk, ?_⟩
    dsimp only
    rw [hslots, lookup_insert, map_some, he,
      CommitmentTracker.blockHash_entry h.commitment]

theorem OneHash.applyPendingVote {v : Hash × Hash × UInt64} (h : OneHash H s) (hv : v.2.1 = H slot)
    (hrun : s.applyPendingVote slot v = .ok s') :
    OneHash H s' ∧ CountsItsBlock slot v.2.1 s s' := by
  obtain ⟨⟨counted, tree⟩, htree, hrun⟩ := exceptBind_eq_ok.mp hrun
  cases hrun
  rw [hv]
  exact h.addVote htree

theorem OneHash.countVote (h : OneHash H s)
    (hv : ∀ slot, vote.slots.getLast? = some slot → vote.hash = H slot)
    (hrun : countVote s voter vote = .ok s') :
    OneHash H s' ∧
      ∀ slot, vote.slots.getLast? = some slot → CountsItsBlock slot vote.hash s s' := by
  unfold ReplayStage.countVote at hrun
  split at hrun
  case h_1 hnone =>
    cases hrun
    exact ⟨h, fun slot hslot => by simp [hnone] at hslot⟩
  case h_2 last hlast =>
    obtain ⟨⟨counted, tree⟩, htree, hrun⟩ := exceptBind_eq_ok.mp hrun
    cases hrun
    -- The hash of the tree and the hash of the vote are those of the slot.
    have hhash : votedBlockHash tree vote last = H last := by
      unfold votedBlockHash
      cases hnode : tree.getNode last with
      | none => exact hv last hlast
      | some node => exact (h.addVote htree).1.tree last node hnode
    dsimp only
    rw [hhash]
    refine ⟨(h.addVote htree).1, fun slot hslot => ?_⟩
    cases hlast.symm.trans hslot
    rw [hv last hlast]
    exact (h.addVote htree).2

section

variable (roots : List UInt64) (k : UInt64)

theorem lookup_markFinalized :
    ((s.markFinalized roots).commitmentTracker.slots.lookup k).map
        (fun e => (e.blockHash, e.totalStakeVoted))
      = (s.commitmentTracker.slots.lookup k).map fun e => (e.blockHash, e.totalStakeVoted) := by
  refine foldlRecOn (motive := fun c : CommitmentTracker => (c.slots.lookup k).map
    (fun e => (e.blockHash, e.totalStakeVoted)) = _) roots _ rfl fun c hc root _ => ?_
  exact (CommitmentTracker.lookup_markFinalized k).trans hc

theorem blockHash_markFinalized :
    ((s.markFinalized roots).commitmentTracker.slots.lookup k).map blockHash
      = (s.commitmentTracker.slots.lookup k).map blockHash := by
  have hmap := congrArg (Option.map Prod.fst) (lookup_markFinalized (s := s) roots k)
  rw [Option.map_map, Option.map_map] at hmap
  exact hmap

theorem stake_markFinalized :
    (s.markFinalized roots).commitmentTracker.stake k = s.commitmentTracker.stake k := by
  have hmap := congrArg (Option.map Prod.snd) (lookup_markFinalized (s := s) roots k)
  rw [Option.map_map, Option.map_map] at hmap
  exact congrArg (Option.getD · 0) hmap

end

theorem OneHash.markFinalized (h : OneHash H s) (roots : List UInt64) :
    OneHash H (s.markFinalized roots) := by
  refine ⟨h.tree, fun k e he => ?_, h.pending⟩
  have hk := blockHash_markFinalized (s := s) roots k
  rw [he, map_some] at hk
  obtain ⟨e', he', heq⟩ := map_eq_some_iff.mp hk.symm
  exact heq.symm.trans (h.commitment k e' he')

theorem CountsItsBlock.markFinalized (h : CountsItsBlock slot hash s s') (roots : List UInt64) :
    CountsItsBlock slot hash s (s'.markFinalized roots) := by
  refine ⟨h.tree, fun k hne => ?_⟩
  rw [stake_markFinalized] at hne
  rw [blockHash_markFinalized]
  exact h.commitment k hne

theorem OneHash.creditVote (h : OneHash H a.stage)
    (hv : ∀ slot, vote.slots.getLast? = some slot → vote.hash = H slot)
    (hrun : creditVote P rootSlot voter vote a = .ok a') :
    OneHash H a'.stage ∧
      ∀ slot, vote.slots.getLast? = some slot → CountsItsBlock slot vote.hash a.stage a'.stage := by
  unfold ReplayStage.creditVote at hrun
  split_ifs at hrun
  · cases hrun
    exact ⟨h, fun slot _ => ⟨fun k hne => absurd rfl hne, fun k hne => absurd rfl hne⟩⟩
  · split at hrun
    case h_1 => simp at hrun
    case h_2 e tower _ =>
      cases hrun
      exact ⟨⟨h.tree, h.commitment, h.pending⟩,
        fun slot _ => ⟨fun k hne => absurd rfl hne, fun k hne => absurd rfl hne⟩⟩
    case h_3 result tower _ =>
      obtain ⟨s₁, hcount, hrun⟩ := exceptBind_eq_ok.mp hrun
      cases hrun
      have htower : OneHash H { a.stage with tower } := ⟨h.tree, h.commitment, h.pending⟩
      obtain ⟨hs₁, hcounts⟩ := htower.countVote hv hcount
      refine ⟨?_, fun slot hslot => ?_⟩
      · exact hs₁.markFinalized result.newRootSlots
      · have hmarked := (hcounts slot hslot).markFinalized result.newRootSlots
        exact ⟨hmarked.tree, hmarked.commitment⟩
  · obtain ⟨s₁, hcount, hrun⟩ := exceptBind_eq_ok.mp hrun
    cases hrun
    exact h.countVote hv hcount

/-! ### Steps -/

theorem OneHash.applyPendingVotes {votes : List (Hash × Hash × UInt64)} (h : OneHash H s)
    (hv : ∀ v ∈ votes, v.2.1 = H slot)
    (hrun : votes.foldlM (ReplayStage.applyPendingVote slot) s = .ok s') : OneHash H s' :=
  foldlM_keeps (I := OneHash H)
    (fun v hmem _ _ hb hstep => (hb.applyPendingVote (hv v hmem) hstep).1) h hrun

theorem OneHash.creditVotes {votes : List (ℕ × Hash × Vote)} (h : OneHash H a.stage)
    (hv : ∀ v ∈ votes, ∀ slot, v.2.2.slots.getLast? = some slot → v.2.2.hash = H slot)
    (hrun : creditVotes P rootSlot votes a = .ok a') : OneHash H a'.stage :=
  foldlM_keeps (I := fun b => OneHash H b.stage)
    (fun v hmem _ _ hb hstep => (hb.creditVote (hv v hmem) hstep).1) h hrun

section

variable {block : Block} (h : OneHash H s) (hhash : block.header.blockHash = H block.header.slot)

include h hhash

/-- A slot joins the tree under its hash, and the votes that waited for it are taken. -/
theorem OneHash.addSlot {tree : ForkTree}
    (hadd : s.forkTree.addSlot block.header.slot block.header.parentSlot block.header.blockHash
      block.header.bankHash = .ok tree) :
    OneHash H { s with
      forkTree := tree, pendingVotes := s.pendingVotes.erase block.header.slot } := by
  rw [hhash] at hadd
  exact ⟨ForkTree.HashesMeet.addSlot (q := fun k hash => hash = H k) h.tree rfl hadd, h.commitment,
    h.pending.erase _⟩

theorem OneHash.enterSlot {pohEntries : List PohEntry} {parentPoh : Hash}
    {frozen : FrozenBankState}
    (hrun : (enterSlot P block pohEntries parentPoh).run s = .ok frozen s') : OneHash H s' := by
  obtain ⟨⟨tree, hadd, hdrain⟩, -⟩ := enterSlot_eq_ok hrun
  have hjoined := h.addSlot hhash hadd
  unfold drainPendingVotes at hdrain
  split at hdrain
  case h_1 =>
    cases hdrain
    exact ⟨hjoined.tree, h.commitment, h.pending⟩
  case h_2 votes hvotes => exact hjoined.applyPendingVotes (h.pending _ votes hvotes) hdrain

end

theorem OneHash.leaveSlot {block : Block} {frozen : FrozenBankState} {result : ReplayResult}
    (h : OneHash H a.stage) (hhash : block.header.blockHash = H block.header.slot)
    (hrun : leaveSlot P block frozen a = .ok (result, s')) : OneHash H s' := by
  simp only [ReplayStage.leaveSlot, exceptBind_eq_ok] at hrun
  obtain ⟨bank, -, tree, htree, hrun⟩ := hrun
  obtain ⟨best, -, htree⟩ := exceptBind_eq_ok.mp htree
  cases htree
  obtain ⟨-, rfl⟩ := Prod.mk.inj (Except.ok.inj hrun)
  refine ⟨h.tree, ?_, h.pending⟩
  dsimp only
  rw [hhash]
  exact CommitmentTracker.forAll_trackSlot h.commitment

/-- **The step lemma.**  A step whose blocks and votes have the hashes of their slots keeps the stage
to these hashes. -/
theorem OneHash.step {e : StageEvent} (h : OneHash H s) (he : e.Follows P H)
    (hstep : StageStep P s e s') : OneHash H s' := by
  cases e with
  | block block pohEntries parentPoh =>
    obtain ⟨result, hrun⟩ := hstep
    obtain ⟨frozen, s₁, tally, henter, hvotes, hleave⟩ := replayBlock_parts hrun
    have hentered := h.enterSlot he.1 henter
    have htally := OneHash.creditVotes (a := { stage := s₁ }) hentered he.2 hvotes
    exact htally.leaveSlot he.1 hleave
  | gossip voter slot hash stake =>
    simp only [StageStep, processGossipVote] at hstep
    split_ifs at hstep
    · exact (h.applyPendingVote (v := (voter, hash, stake)) he hstep).1
    · -- The vote waits for its slot, under the hash of the slot.
      obtain ⟨oldest, hbuffer⟩ := bufferVote_eq s slot (voter, hash, stake)
      rw [hbuffer] at hstep
      cases hstep
      refine ⟨h.tree, h.commitment, (h.pending.insert fun v hv => ?_).eraseAll oldest⟩
      rcases mem_append.mp hv with hold | hnew
      · cases hvotes : s.pendingVotes.lookup slot with
        | none => simp [hvotes] at hold
        | some votes =>
          rw [hvotes] at hold
          exact h.pending slot votes hvotes v hold
      · rw [mem_singleton.mp hnew]
        exact he
  | root slot =>
    simp only [StageStep, advanceRoot] at hstep
    split_ifs at hstep
    · split at hstep
      case h_1 tree htree =>
        obtain ⟨-, rfl⟩ := (Outcome.ok.injEq ..).mp hstep
        exact ⟨ForkTree.forAll_setRoot h.tree (fun _ hnode => hnode) htree,
          h.commitment.retain, h.pending⟩
      all_goals simp at hstep
    · obtain ⟨-, rfl⟩ := (Outcome.ok.injEq ..).mp hstep
      exact h

/-- A vote that is looked at in the course of an event counts for its own block only. -/
theorem OneHash.looks {e : StageEvent} (h : OneHash H s) (he : e.Follows P H)
    (hlooks : Looks P s e slot hash t t') : CountsItsBlock slot hash t t' := by
  cases hlooks with
  | @gossip voter _ _ stake _ run => exact (h.applyPendingVote (v := (voter, hash, stake)) he run).2
  | @pending block _ _ voter _ stake before after tree _ _ join votes earlier run =>
    have hv := h.pending _ _ votes
    have hearlier := (h.addSlot he.1 join).applyPendingVotes
      (fun v hmem => hv v (mem_append_left _ hmem)) earlier
    exact (hearlier.applyPendingVote (hv (voter, hash, stake) (by simp)) run).2
  | @carried _ _ _ voter _ _ i vote _ _ handles last =>
    obtain ⟨frozen, s₁, before, after, a, a', henter, -, hvotes, hbefore, rfl, hvote, rfl⟩ := handles
    have hfollows := he.2
    rw [hvotes] at hfollows
    have hbefore := OneHash.creditVotes (a := { stage := s₁ }) (h.enterSlot he.1 henter)
      (fun v hmem => hfollows v (mem_append_left _ hmem)) hbefore
    exact (hbefore.creditVote (hfollows (i, voter, vote) (by simp)) hvote).2 slot last

/-- **Votes and the blocks they name.**  In a run in which there is one hash for each slot, which the
blocks and all votes for the slot have, every vote that is looked at adds stake only to the block it
names. -/
theorem countsItsBlock_of_steps {events : List StageEvent} {e : StageEvent} (h : OneHash H s)
    (hrun : Trace.Steps (StageStep P) s events s') (hevents : ∀ e ∈ events, e.Follows P H)
    (he : e.Follows P H) (hlooks : Looks P s' e slot hash t t') : CountsItsBlock slot hash t t' := by
  have hs' : OneHash H s' := hrun.invariant (I := OneHash H) (G := StageEvent.Follows P H)
    (fun _ _ _ hs he hstep => hs.step he hstep) h hevents
  exact hs'.looks he hlooks

end ReplayStage

/-! ### A vote for another block -/

namespace Sample

/-- A stage in an epoch in which `victim` has stake. -/
def backed : ReplayStage :=
  { stage Storage.empty with bank :=
    { bank Storage.empty with epochStakes := singleton victim 10 } }

/-- An empty block for slot 1 with a hash. -/
def hashed (blockHash : Hash) : Block := ⟨{ header with blockHash }, [], []⟩

/-- The block of slot 2 carries the vote of `forgedVote`, for slot 1 and the hash of ones. -/
def voting : Block := ⟨{ header with slot := 2, parentSlot := 1 }, [forgedVote], []⟩

end Sample

set_option synthInstance.maxSize 1024 in
open Sample ReplayStage in
/-- The block of slot 1 has the hash of fours.  A gossip vote for slot 1 and the hash of ones is
counted for it in the tree, and one in a block also in the commitment. -/
theorem other_hash_is_counted :
    ∃ s, StageStep (Platform.sample false) backed
        (.block (hashed (Hash.repeated 4)) [] Hash.zero) s ∧
      (∃ t', Looks (Platform.sample false) s (.gossip victim 1 (Hash.repeated 1) 10) 1
          (Hash.repeated 1) s t' ∧
        t'.forkTree.stakes 1 ≠ s.forkTree.stakes 1 ∧
        ¬ CountsItsBlock 1 (Hash.repeated 1) s t') ∧
      ∃ t t', Looks (Platform.sample false) s (.block voting [] Hash.zero) 1 (Hash.repeated 1) t t' ∧
        t'.forkTree.stakes 1 ≠ t.forkTree.stakes 1 ∧
        t'.commitmentTracker.stake 1 ≠ t.commitmentTracker.stake 1 ∧
        ¬ CountsItsBlock 1 (Hash.repeated 1) t t' := by
  let vote : Vote := { slots := [1], hash := repeated 1, timestamp := none }
  obtain ⟨result, s, hs, t', hgossip, frozen, s₁, henter, a, hvote, hstakes, hhash, hstakes',
      hhash', hcommitment⟩ :
      ∃ r s, (replayBlock .release (hashed (repeated 4)) [] Hash.zero).run
          backed = .ok r s ∧
      ∃ t', s.applyPendingVote 1 (victim, repeated 1, 10) = .ok t' ∧
      ∃ r s₁, (enterSlot .release voting [] Hash.zero).run s = .ok r s₁ ∧
      ∃ a, creditVote .release s₁.rootSlot victim vote { stage := s₁ } = .ok a ∧
      t'.forkTree.stakes 1 ≠ s.forkTree.stakes 1 ∧
      (t'.forkTree.nodes.lookup 1).map ForkNode.blockHash ≠ some (repeated 1) ∧
      a.stage.forkTree.stakes 1 ≠ s₁.forkTree.stakes 1 ∧
      (a.stage.forkTree.nodes.lookup 1).map ForkNode.blockHash ≠ some (repeated 1) ∧
      a.stage.commitmentTracker.stake 1 ≠ s₁.commitmentTracker.stake 1 := by decide +kernel
  have hvotes : carriedVotes .release voting = [(0, victim, vote)] := by
    decide +kernel
  refine ⟨s, ⟨result, hs⟩, ⟨t', .gossip hgossip, hstakes, ?_⟩, s₁, a.stage, ?_, hstakes',
    hcommitment, ?_⟩
  · exact fun h => hhash (h.tree 1 hstakes)
  · exact .carried ⟨frozen, s₁, [], [], { stage := s₁ }, a, henter, rfl, hvotes, rfl, rfl, hvote,
      rfl⟩ rfl
  · exact fun h => hhash' (h.tree 1 hstakes')

open Sample ReplayStage in
/-- A vote for the block of slot 1 by its hash is counted for it. -/
theorem own_hash_is_counted :
    ∃ s t', Trace.Steps (StageStep (Platform.sample false)) backed
        [.block (hashed (Hash.repeated 1)) [] Hash.zero] s ∧
      Looks (Platform.sample false) s (.gossip victim 1 (Hash.repeated 1) 10) 1 (Hash.repeated 1)
        s t' ∧
      t'.forkTree.stakes 1 ≠ s.forkTree.stakes 1 ∧ CountsItsBlock 1 (Hash.repeated 1) s t' := by
  let H : UInt64 → Hash := fun slot => if slot = 0 then Hash.zero else repeated 1
  obtain ⟨result, s, hs, t', hgossip, hrun⟩ :
      ∃ r s, (replayBlock .release (hashed (repeated 1)) [] Hash.zero).run
          backed = .ok r s ∧
      ∃ t', s.applyPendingVote 1 (victim, repeated 1, 10) = .ok t' ∧
      t'.forkTree.stakes 1 ≠ s.forkTree.stakes 1 := by decide +kernel
  have hsteps : Trace.Steps (StageStep .release) backed
      [.block (hashed (repeated 1)) [] Hash.zero] s := .cons ⟨result, hs⟩ (.nil s)
  have hlooks : Looks .release s (.gossip victim 1 (repeated 1) 10) 1
      (repeated 1) s t' := .gossip hgossip
  have hstart : OneHash H backed :=
    ⟨Finmap.ForAll.empty.insert rfl, Finmap.ForAll.empty, Finmap.ForAll.empty⟩
  have hblock : StageEvent.Follows .release H
      (.block (hashed (repeated 1)) [] Hash.zero) := ⟨rfl, fun v hv => by cases hv⟩
  have hgossip : StageEvent.Follows .release H
      (.gossip victim 1 (repeated 1) 10) := rfl
  exact ⟨s, t', hsteps, hlooks, hrun,
    countsItsBlock_of_steps hstart hsteps (by simpa using hblock) hgossip hlooks⟩

end Nusantara
