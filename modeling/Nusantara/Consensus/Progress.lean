import Nusantara.Consensus.Ancestry
import Nusantara.Consensus.ForkSwitch

/-!
# What a replayed block does to the stage

The votes of a block move stakes, the tower and the commitment; they leave the bank, the links of
the tree and the hashes of its blocks alone (`VotesCounted`).  So a replayed block adds its slot to
the tree and puts the bank at it, and nothing else of what later blocks build on changes.

On a platform that does not check for overflow, and in a well-formed tree, a block that is not
refused is replayed: no walk in the tree is endless.

## Main results

* `ReplayStage.replayBlock_eq_ok`: the stage after a replay.
* `ReplayStage.replayBlock_ok`: the blocks that are replayed.
* `ReplayStage.advanceRoot_ok`: a root advances.
-/

namespace Nusantara

open Exec ForkTree
open Except (ok)

namespace ReplayStage

variable {P : Platform} {s s' s'' : ReplayStage} {block : Block} {parentPoh voter : Hash}
  {vote : Vote} {slot rootSlot : UInt64} {a a' : VoteTally} {result : ReplayResult}

/-! ### Votes -/

/-- Between the two states votes were counted, and nothing else happened. -/
structure VotesCounted (s s' : ReplayStage) : Prop where
  bank : s'.bank = s.bank
  links : ForkTree.SameLinks s.forkTree s'.forkTree
  hashes : ∀ k, (s'.forkTree.nodes.lookup k).map ForkNode.blockHash
    = (s.forkTree.nodes.lookup k).map ForkNode.blockHash
  currentTip : s'.currentTip = s.currentTip

theorem VotesCounted.refl (s : ReplayStage) : VotesCounted s s := ⟨rfl, .refl _, fun _ => rfl, rfl⟩

theorem VotesCounted.trans (h : VotesCounted s s') (h' : VotesCounted s' s'') :
    VotesCounted s s'' :=
  ⟨h'.bank.trans h.bank, h.links.trans h'.links, fun k => (h'.hashes k).trans (h.hashes k),
    h'.currentTip.trans h.currentTip⟩

theorem votesCounted_applyPendingVote {v : Hash × Hash × UInt64}
    (h : s.applyPendingVote slot v = .ok s') : VotesCounted s s' := by
  obtain ⟨⟨counted, tree⟩, htree, h⟩ := exceptBind_eq_ok.mp h
  cases h
  exact ⟨rfl, sameLinks_addVote htree, addVote_blockHash htree, rfl⟩

theorem votesCounted_processGossipVote {hash : Hash} {stake : UInt64}
    (h : s.processGossipVote voter slot hash stake = .ok s') : VotesCounted s s' := by
  unfold processGossipVote at h
  split_ifs at h
  · exact votesCounted_applyPendingVote h
  · obtain ⟨oldest, heq⟩ := bufferVote_eq s slot (voter, hash, stake)
    rw [← ok.inj h, heq]
    exact ⟨rfl, .refl _, fun _ => rfl, rfl⟩

theorem votesCounted_drainPendingVotes (h : s.drainPendingVotes slot = .ok s') :
    VotesCounted s s' := by
  unfold drainPendingVotes at h
  split at h
  case h_1 => exact ok.inj h ▸ .refl s
  case h_2 votes _ =>
    refine foldlM_keeps (I := VotesCounted s) (fun v _ b b' hb hv => ?_) ?_ h
    · exact hb.trans (votesCounted_applyPendingVote hv)
    · exact ⟨rfl, .refl _, fun _ => rfl, rfl⟩

theorem votesCounted_countVote (h : countVote s voter vote = .ok s') : VotesCounted s s' := by
  unfold countVote at h
  split at h
  case h_1 => exact ok.inj h ▸ .refl s
  case h_2 slot _ =>
    obtain ⟨⟨counted, tree⟩, htree, h⟩ := exceptBind_eq_ok.mp h
    cases h
    exact ⟨rfl, sameLinks_addVote htree, addVote_blockHash htree, rfl⟩

theorem votesCounted_creditVote (h : creditVote P rootSlot voter vote a = .ok a') :
    VotesCounted a.stage a'.stage := by
  unfold creditVote at h
  split_ifs at h
  · exact ok.inj h ▸ .refl _
  · split at h
    case h_1 => simp at h
    case h_2 => exact ok.inj h ▸ ⟨rfl, .refl _, fun _ => rfl, rfl⟩
    case h_3 result tower _ =>
      obtain ⟨s, hcount, h⟩ := exceptBind_eq_ok.mp h
      cases h
      have hc := votesCounted_countVote hcount
      exact ⟨hc.bank, hc.links, hc.hashes, hc.currentTip⟩
  · obtain ⟨s, hcount, h⟩ := exceptBind_eq_ok.mp h
    exact ok.inj h ▸ votesCounted_countVote hcount

theorem votesCounted_creditVotes {votes : List (ℕ × Hash × Vote)}
    (h : creditVotes P rootSlot votes a = .ok a') : VotesCounted a.stage a'.stage :=
  foldlM_keeps (I := fun b => VotesCounted a.stage b.stage)
    (fun _ _ _ _ hb hv => hb.trans (votesCounted_creditVote hv)) (.refl _) h

/-! ### Blocks -/

/-- **The stage after a replay.**  The slot has joined the tree, the bank is at it, and its hashes
are stored. -/
theorem replayBlock_eq_ok (h : (replayBlock P block [] parentPoh).run s = .ok result s') :
    result.bankHash = block.header.bankHash ∧ s'.currentTip = block.header.slot ∧
      (∃ tree, s.forkTree.addSlot block.header.slot block.header.parentSlot block.header.blockHash
          block.header.bankHash = .ok tree ∧ ForkTree.SameLinks tree s'.forkTree ∧
        ∀ k, (s'.forkTree.nodes.lookup k).map ForkNode.blockHash
          = (tree.nodes.lookup k).map ForkNode.blockHash) ∧
      ∃ clock frozen, frozen.slot = block.header.slot ∧
        s'.bank = (({ s.bank with currentSlot := block.header.slot, clock }).recordSlotHash
          block.header.slot block.header.blockHash).flushToStorage frozen := by
  obtain ⟨frozen, s₁, tally, henter, hvotes, hleave⟩ := replayBlock_parts h
  obtain ⟨⟨tree, htree, hdrain⟩, hslot, hbankHash⟩ := enterSlot_eq_ok henter
  have hpending := votesCounted_drainPendingVotes hdrain
  have hcounted := hpending.trans (votesCounted_creditVotes hvotes)
  simp only [leaveSlot, exceptBind_eq_ok] at hleave
  obtain ⟨bank, hbank, best, hbest, hleave⟩ := hleave
  obtain ⟨clock, rfl⟩ := ConsensusBank.advanceSlot_eq_ok hbank
  cases ok.inj hleave
  refine ⟨hbankHash, rfl, ⟨tree, htree, ?_, ?_⟩, clock, frozen, hslot, ?_⟩
  · exact hcounted.links.trans (sameLinks_computeBestFork hbest)
  · intro k
    obtain ⟨_, -, hb⟩ := exceptBind_eq_ok.mp hbest
    cases hb
    exact hcounted.hashes k
  · rw [hcounted.bank]

/-! ### Blocks that are replayed -/

/-- On the platform no sum overflows with a panic, and epochs can be computed. -/
structure Computes (P : Platform) (s : ReplayStage) : Prop where
  overflowChecks : P.overflowChecks = false
  slotsPerEpoch : s.bank.epochSchedule.slotsPerEpoch ≠ 0

theorem wrapAdd_ok (h : P.overflowChecks = false) (w m n : ℕ) : ∃ k, P.wrapAdd w m n = .ok k := by
  cases hadd : P.wrapAdd w m n with
  | ok k => exact ⟨k, rfl⟩
  | error f => exact absurd (Platform.wrapAdd_eq_error P hadd).2 (by simp [h])

theorem wrapMul_ok (h : P.overflowChecks = false) (w m n : ℕ) : ∃ k, P.wrapMul w m n = .ok k := by
  cases hmul : P.wrapMul w m n with
  | ok k => exact ⟨k, rfl⟩
  | error f => exact absurd (Platform.wrapMul_eq_error P hmul).2 (by simp [h])

theorem Computes.getEpoch_ok (h : Computes P s) (slot : UInt64) :
    ∃ epoch, s.bank.epochSchedule.getEpoch P slot = .ok epoch := by
  unfold EpochSchedule.getEpoch
  split_ifs with _ hzero
  · exact ⟨_, rfl⟩
  · exact absurd hzero h.slotsPerEpoch
  · obtain ⟨epoch, hepoch⟩ := wrapAdd_ok h.overflowChecks 64 _ _
    exact ⟨_, exceptBind_eq_ok.mpr ⟨epoch, hepoch, rfl⟩⟩

theorem Computes.expectedLeader_ok (h : Computes P s) (epoch slot : UInt64) :
    ∃ expected, s.expectedLeader P epoch slot = .ok expected := by
  unfold expectedLeader
  split
  case h_1 => exact ⟨_, rfl⟩
  case h_2 schedule _ =>
    have hfirst : ∃ first, s.bank.epochSchedule.getFirstSlotInEpoch P schedule.epoch = .ok first := by
      unfold EpochSchedule.getFirstSlotInEpoch
      split_ifs
      · exact ⟨_, rfl⟩
      · exact ⟨_, rfl⟩
      · exact ⟨_, rfl⟩
      · obtain ⟨span, hspan⟩ := wrapMul_ok h.overflowChecks 64 _ _
        obtain ⟨first, hadd⟩ := wrapAdd_ok h.overflowChecks 64 _ _
        exact ⟨_, exceptBind_eq_ok.mpr ⟨span, hspan, exceptBind_eq_ok.mpr ⟨first, hadd, rfl⟩⟩⟩
    obtain ⟨first, hfirst⟩ := hfirst
    exact ⟨_, exceptBind_eq_ok.mpr ⟨first, hfirst, rfl⟩⟩

theorem pushVote_ok (h : P.overflowChecks = false) (t : Tower) (slot : UInt64) :
    ∃ r, t.pushVote P slot = .ok r := by
  have hconfirm : ∀ ls : List Lockout, ∃ ls', ls.mapM (VoteProgram.confirm P) = .ok ls' := by
    intro ls
    induction ls with
    | nil => exact ⟨[], rfl⟩
    | cons l ls ih =>
      obtain ⟨count, hcount⟩ := wrapAdd_ok h 32 l.confirmationCount.toNat 1
      obtain ⟨ls', hls'⟩ := ih
      rw [List.mapM_cons]
      exact ⟨_, exceptBind_eq_ok.mpr ⟨_, exceptBind_eq_ok.mpr ⟨count, hcount, rfl⟩,
        exceptBind_eq_ok.mpr ⟨ls', hls', rfl⟩⟩⟩
  obtain ⟨ls', hls'⟩ := hconfirm _
  exact ⟨_, exceptBind_eq_ok.mpr ⟨ls', hls', rfl⟩⟩

theorem applyPendingVote_ok (hwf : s.forkTree.WellFormed) (slot : UInt64)
    (v : Hash × Hash × UInt64) :
    ∃ s', s.applyPendingVote slot v = .ok s' := by
  obtain ⟨r, hr⟩ := hwf.addVote_ok slot v.1 v.2.2
  exact ⟨_, exceptBind_eq_ok.mpr ⟨r, hr, rfl⟩⟩

theorem drainPendingVotes_ok (hwf : s.forkTree.WellFormed) (slot : UInt64) :
    ∃ s', s.drainPendingVotes slot = .ok s' := by
  unfold drainPendingVotes
  split
  case h_1 => exact ⟨s, rfl⟩
  case h_2 votes _ =>
    obtain ⟨s', hs', -⟩ := foldlM_ok (g := applyPendingVote slot) (I := fun s => s.forkTree.WellFormed)
      (l := votes) (fun b v hb => by
        obtain ⟨b', hb'⟩ := applyPendingVote_ok hb slot v
        exact ⟨b', hb', (votesCounted_applyPendingVote hb').links.wellFormed hb⟩)
      (b := { s with pendingVotes := s.pendingVotes.erase slot }) hwf
    exact ⟨s', hs'⟩

theorem countVote_ok (hwf : s.forkTree.WellFormed) (voter : Hash) (vote : Vote) :
    ∃ s', countVote s voter vote = .ok s' := by
  unfold countVote
  split
  case h_1 => exact ⟨s, rfl⟩
  case h_2 slot _ =>
    obtain ⟨r, hr⟩ := hwf.addVote_ok slot voter (s.bank.getValidatorStake voter)
    exact ⟨_, exceptBind_eq_ok.mpr ⟨r, hr, rfl⟩⟩

section

variable (h : P.overflowChecks = false) (hwf : a.stage.forkTree.WellFormed) (rootSlot : UInt64)

include h hwf

theorem creditVote_ok (voter : Hash) (vote : Vote) :
    ∃ a', creditVote P rootSlot voter vote a = .ok a' := by
  unfold creditVote
  split_ifs
  · exact ⟨a, rfl⟩
  · split
    case h_1 f hrun =>
      -- Only the sum of confirmations could have been a fault.
      by_cases hacc : a.stage.tower.Accepts vote
      · obtain ⟨slot, -, hp⟩ := Tower.processVote_of_accepts (P := P) hacc
        obtain ⟨r, hr⟩ := pushVote_ok h a.stage.tower slot
        rw [hrun, hr] at hp
        cases hp
      · obtain ⟨e, he⟩ := Tower.processVote_of_not_accepts (P := P) hacc
        rw [hrun] at he
        cases he
    case h_2 => exact ⟨_, rfl⟩
    case h_3 result tower _ =>
      obtain ⟨s', hs'⟩ := countVote_ok (s := { a.stage with tower }) hwf voter vote
      exact ⟨_, exceptBind_eq_ok.mpr ⟨s', hs', rfl⟩⟩
  · obtain ⟨s', hs'⟩ := countVote_ok (s := a.stage) hwf voter vote
    exact ⟨_, exceptBind_eq_ok.mpr ⟨s', hs', rfl⟩⟩

theorem creditVotes_ok (votes : List (ℕ × Hash × Vote)) :
    ∃ a', creditVotes P rootSlot votes a = .ok a' := by
  obtain ⟨a', ha', -⟩ := foldlM_ok (g := fun a v => creditVote P rootSlot v.2.1 v.2.2 a)
    (I := fun a => a.stage.forkTree.WellFormed) (l := votes) (fun b v hb => by
      obtain ⟨b', hb'⟩ := creditVote_ok h hb rootSlot v.2.1 v.2.2
      exact ⟨b', hb', (votesCounted_creditVote hb').links.wellFormed hb⟩) hwf
  exact ⟨a', ha'⟩

end

/-- **Blocks that are replayed.**  In a well-formed tree, a block with a parent in the tree is
replayed unless the stage refuses it. -/
theorem replayBlock_ok (h : Computes P s) (hwf : s.forkTree.WellFormed)
    (hparent : block.header.parentSlot ∈ s.forkTree.nodes) (haccept : ∀ e, ¬ Refuses P s block e)
    (parentPoh : Hash) :
    ∃ result s', (replayBlock P block [] parentPoh).run s = .ok result s' := by
  obtain ⟨epoch, hepoch⟩ := h.getEpoch_ok block.header.slot
  obtain ⟨expected, hexpected⟩ := h.expectedLeader_ok epoch block.header.slot
  have hleader : expected.all (· = block.header.validator) = true := by
    by_contra hnot
    exact haccept _ ⟨epoch, expected, hepoch, hexpected, .inl ⟨hnot, rfl⟩⟩
  cases hadd : s.forkTree.addSlot block.header.slot block.header.parentSlot block.header.blockHash
      block.header.bankHash with
  | error e => exact absurd ⟨epoch, expected, hepoch, hexpected, .inr ⟨hleader, hadd⟩⟩ (haccept e)
  | ok tree =>
    have hwf₁ := hwf.addSlot hadd hparent
    obtain ⟨s₂, hdrain⟩ := drainPendingVotes_ok (s := { s with forkTree := tree }) hwf₁
      block.header.slot
    have hcounted := votesCounted_drainPendingVotes hdrain
    have hwf₂ := hcounted.links.wellFormed hwf₁
    obtain ⟨tally, htally⟩ := creditVotes_ok (a := { stage := s₂ }) h.overflowChecks hwf₂
      s₂.rootSlot (carriedVotes P block)
    have hvotes := votesCounted_creditVotes htally
    obtain ⟨best, hbest⟩ := (hvotes.links.wellFormed hwf₂).linked.computeBestFork_ok
    have hbank : tally.stage.bank = s.bank := hvotes.bank.trans hcounted.bank
    have hleave : ∀ frozen, ∃ r, leaveSlot P block frozen tally = .ok r := by
      intro frozen
      refine ⟨_, exceptBind_eq_ok.mpr ⟨_, exceptBind_eq_ok.mpr ⟨epoch, ?_, rfl⟩,
        exceptBind_eq_ok.mpr ⟨best, hbest, rfl⟩⟩⟩
      rw [hbank]
      exact hepoch
    obtain ⟨⟨result, s'⟩, hr⟩ := hleave {
      slot := block.header.slot, parentSlot := block.header.parentSlot,
      blockHash := block.header.blockHash, bankHash := block.header.bankHash, epoch,
      transactionCount := block.header.transactionCount }
    refine ⟨result, s', ?_⟩
    simp only [replayBlock, enterSlot, checkPoh, if_true, bind_eq_ok, run_get, run_set, run_pure,
      ofFault_eq_ok, ofExcept_eq_ok, require_eq_ok, Outcome.ok.injEq]
    exact ⟨_, s₂, ⟨s, s, ⟨rfl, rfl⟩, epoch, s, ⟨hepoch, rfl⟩, expected, s, ⟨hexpected, rfl⟩, (), s,
      ⟨hleader, rfl⟩, (), s, ⟨trivial, rfl⟩, tree, s, ⟨hadd, rfl⟩, s₂, s, ⟨hdrain, rfl⟩, (), s₂,
      ⟨trivial, rfl⟩, rfl, rfl⟩, s₂, s₂, ⟨rfl, rfl⟩, tally, s₂, ⟨htally, rfl⟩, (result, s'), s₂,
      ⟨hr, rfl⟩, (), s', ⟨trivial, rfl⟩, rfl, rfl⟩

/-- A root advances without a fault or an error; the bank keeps everything but the mark of the root
in the store. -/
theorem advanceRoot_ok (hwf : s.forkTree.WellFormed) (root : UInt64) :
    ∃ s', (advanceRoot root).run s = .ok () s' ∧ s'.forkTree.WellFormed := by
  simp only [advanceRoot]
  split_ifs with hroot
  · have hmem : root ∈ s.forkTree.nodes := by simpa [contains] using hroot
    obtain ⟨tree, hrun, hwf', -⟩ := hwf.setRoot_ok hmem
    rw [hrun]
    exact ⟨_, rfl, hwf'⟩
  · exact ⟨s, rfl, hwf⟩

end ReplayStage

end Nusantara
