import Nusantara.Consensus.Progress
import Nusantara.Validator.Node

/-!
# Received blocks

What `replay_or_buffer_block` makes of a block from the network.  A block without a parent is
buffered or dropped, one whose header does not match its outcome is dropped.  But a block that
matches and that the replay stage refuses, for its leader or for want of room in the tree, is an
error, and an error ends the slot loop.

## Main results

* `ValidatorNode.replayOrBufferBlock_ok_iff`: the blocks with which the slot loop goes on.
-/

namespace Nusantara

open Exec ReplayStage ForkTree

section

variable {P : Platform} {config : ValidatorConfig} {order : List ℕ → List ℕ} {block : Block}

section Replay

variable {s s₁ s' : ReplayStage} {d : DeferredSlotExecution} {parent : ForkNode}
  {result : ReplayResult}

theorem getAncestry_ok (hwf : s.forkTree.WellFormed) (slot : UInt64) :
    ∃ ancestry, s.forkTree.getAncestry slot = .ok ancestry := by
  by_cases hslot : slot ∈ s.forkTree.nodes
  · obtain ⟨l, w, -⟩ := hwf.walk slot hslot
    exact ⟨l, getAncestry_eq_ok.mpr w⟩
  · refine ⟨[slot], getAncestry_eq_ok.mpr (.stop ?_)⟩
    cases hup : s.forkTree.up slot with
    | none => rfl
    | some parent => exact absurd (mem_of_up hup) hslot

theorem enterFork_ok (h : Computes P s) (hwf : s.forkTree.WellFormed) :
    ∃ s₁, enterFork P block s = .ok s₁ := by
  have hroll : ∃ bank, s.bank.rollbackToSlot P block.header.parentSlot = .ok bank ∧
      bank.epochSchedule = s.bank.epochSchedule := by
    unfold ConsensusBank.rollbackToSlot
    dsimp only
    split
    case h_1 =>
      obtain ⟨epoch, hepoch⟩ := h.getEpoch_ok block.header.parentSlot
      exact ⟨_, exceptBind_eq_ok.mpr ⟨epoch, hepoch, rfl⟩, rfl⟩
    case h_2 => exact ⟨_, rfl, rfl⟩
  obtain ⟨bank, hbank, hschedule⟩ := hroll
  obtain ⟨ancestry, hancestry⟩ := getAncestry_ok hwf block.header.parentSlot
  obtain ⟨epoch, hepoch⟩ := h.getEpoch_ok block.header.slot
  rw [← hschedule] at hepoch
  exact ⟨_, exceptBind_eq_ok.mpr ⟨bank, hbank, exceptBind_eq_ok.mpr ⟨ancestry, hancestry,
    exceptBind_eq_ok.mpr ⟨_, exceptBind_eq_ok.mpr ⟨epoch, hepoch, rfl⟩, rfl⟩⟩⟩⟩

theorem feedBlock_eq_ok {parentPoh : Hash} :
    (feedBlock P block parentPoh).run s = .ok result s' ↔
      (replayBlock P block [] parentPoh).run s = .ok result s' := by
  simp only [feedBlock]
  cases (replayBlock P block [] parentPoh).run s <;> simp

theorem replayBlockFull_eq_ok :
    (replayBlockFull P config order block).run s = .ok result s' ↔
      ∃ parent s₁ d, Executed P config order block s parent s₁ d ∧
        mismatch P parent block d = none ∧
          (replayBlock P block [] (parentPoh block (commitBlock P block d s₁))).run
            (commitBlock P block d s₁) = .ok result s' := by
  simp only [replayBlockFull, bind_eq_ok, run_get, run_set, Outcome.ok.injEq, verifyBlock_ok_iff,
    feedBlock_eq_ok]
  constructor
  · rintro ⟨d, s₁, ⟨parent, hexec, hmis⟩, _, _, ⟨rfl, rfl⟩, _, _, ⟨-, rfl⟩, hrun⟩
    exact ⟨parent, _, d, hexec, hmis, hrun⟩
  · rintro ⟨parent, s₁, d, hexec, hmis, hrun⟩
    exact ⟨d, s₁, ⟨parent, hexec, hmis⟩, s₁, s₁, ⟨rfl, rfl⟩, (), _, ⟨trivial, rfl⟩, hrun⟩

/-- Execution and commit leave the tree, the epochs and the schedule alone. -/
theorem commitBlock_forkTree (hexec : Executed P config order block s parent s₁ d) :
    (commitBlock P block d s₁).forkTree = s.forkTree ∧
      (commitBlock P block d s₁).bank.epochSchedule = s.bank.epochSchedule := by
  obtain ⟨ancestry, clock, -, rfl⟩ := enterFork_eq_ok hexec.fork
  exact ⟨rfl, rfl⟩

/-- A replay keeps the tree well formed. -/
theorem replayBlockFull_wellFormed (hwf : s.forkTree.WellFormed)
    (h : (replayBlockFull P config order block).run s = .ok result s') : s'.forkTree.WellFormed := by
  obtain ⟨parent, s₁, d, hexec, -, hrun⟩ := replayBlockFull_eq_ok.mp h
  obtain ⟨htree, -⟩ := commitBlock_forkTree hexec
  have hparent : block.header.parentSlot ∈ s.forkTree.nodes :=
    Finmap.mem_iff.mpr ⟨parent, hexec.parent⟩
  obtain ⟨-, -, ⟨tree, hadd, hlinks, -⟩, -⟩ := replayBlock_eq_ok hrun
  rw [htree] at hadd
  exact hlinks.wellFormed (hwf.addSlot hadd hparent)

/-- A block that matches its outcome is replayed unless the stage refuses it. -/
theorem replayBlockFull_ok (h : Computes P s) (hwf : s.forkTree.WellFormed)
    (hexec : Executed P config order block s parent s₁ d) (hmis : mismatch P parent block d = none)
    (haccept : ∀ e, ¬ Refuses P s block e) :
    ∃ result s', (replayBlockFull P config order block).run s = .ok result s' := by
  obtain ⟨htree, hschedule⟩ := commitBlock_forkTree hexec
  have hparent : block.header.parentSlot ∈ s.forkTree.nodes :=
    Finmap.mem_iff.mpr ⟨parent, hexec.parent⟩
  have hcomputes : Computes P (commitBlock P block d s₁) :=
    ⟨h.overflowChecks, hschedule ▸ h.slotsPerEpoch⟩
  have hwf₁ : (commitBlock P block d s₁).forkTree.WellFormed := htree.symm ▸ hwf
  obtain ⟨result, s', hrun⟩ := replayBlock_ok hcomputes hwf₁ (htree.symm ▸ hparent)
    (fun e he => haccept e ((refuses_commitBlock hexec).mp he))
    (parentPoh block (commitBlock P block d s₁))
  exact ⟨result, s', replayBlockFull_eq_ok.mpr ⟨parent, s₁, d, hexec, hmis, hrun⟩⟩

/-- The leader of the block is the one the cached schedule names for its slot, if it names one. -/
def LeaderMatches (P : Platform) (s : ReplayStage) (block : Block) : Prop :=
  ∀ epoch expected, s.bank.epochSchedule.getEpoch P block.header.slot = .ok epoch →
    s.expectedLeader P epoch block.header.slot = .ok expected →
      expected.all (· = block.header.validator) = true

/-- A new slot is refused for its leader or for want of room. -/
theorem not_refuses_iff (h : Computes P s) (hslot : block.header.slot ∉ s.forkTree.nodes) :
    (∀ e, ¬ Refuses P s block e) ↔
      LeaderMatches P s block ∧ s.forkTree.nodeCount < maxForkTreeNodes := by
  constructor
  · intro hno
    have hleader : LeaderMatches P s block := by
      intro epoch expected hepoch hexpected
      by_contra hnot
      exact hno _ ⟨epoch, expected, hepoch, hexpected, .inl ⟨hnot, rfl⟩⟩
    refine ⟨hleader, ?_⟩
    by_contra hfull
    obtain ⟨epoch, hepoch⟩ := h.getEpoch_ok block.header.slot
    obtain ⟨expected, hexpected⟩ := h.expectedLeader_ok epoch block.header.slot
    have hadd : s.forkTree.addSlot block.header.slot block.header.parentSlot block.header.blockHash
        block.header.bankHash
          = .error (.maxDepthExceeded s.forkTree.nodeCount maxForkTreeNodes) := by
      rw [addSlot, if_neg hslot, if_pos (not_lt.mp hfull)]
    exact hno _ ⟨epoch, expected, hepoch, hexpected,
      .inr ⟨hleader epoch expected hepoch hexpected, hadd⟩⟩
  · rintro ⟨hleader, hroom⟩ e ⟨epoch, expected, hepoch, hexpected, ⟨hnot, -⟩ | ⟨-, hadd⟩⟩
    · exact hnot (hleader epoch expected hepoch hexpected)
    · rw [addSlot, if_neg hslot, if_neg (not_le.mpr hroom)] at hadd
      simp at hadd

end Replay

namespace ValidatorNode

variable {n n' : ValidatorNode}

/-! ### What the node does afterwards -/

theorem restoreBankSlotHashes_ok (hwf : n.stage.forkTree.WellFormed) :
    ∃ n', n.restoreBankSlotHashes = .ok n' := by
  obtain ⟨ancestry, hancestry⟩ := getAncestry_ok hwf n.stage.currentTip
  exact ⟨_, exceptBind_eq_ok.mpr ⟨ancestry, hancestry, rfl⟩⟩

section

variable (h : P.overflowChecks = false) (hwf : n.stage.forkTree.WellFormed)

include h hwf

theorem chooseRoot_ok (proposedRoot : UInt64) (catchingUp : Bool) :
    ∃ root, n.chooseRoot P proposedRoot catchingUp = .ok root := by
  have hgated : ∃ root, n.gatedRoot proposedRoot catchingUp = .ok root := by
    unfold gatedRoot
    split_ifs
    · exact ⟨_, rfl⟩
    · obtain ⟨ancestry, hancestry⟩ := getAncestry_ok hwf proposedRoot
      exact ⟨_, exceptBind_eq_ok.mpr ⟨ancestry, hancestry, rfl⟩⟩
  have hsnap : ∀ safeRoot, ∃ root, n.snapRoot safeRoot = .ok root := by
    intro safeRoot
    unfold snapRoot
    dsimp only
    split_ifs
    · obtain ⟨ancestry, hancestry⟩ := getAncestry_ok hwf n.stage.forkTree.bestSlot
      exact ⟨_, exceptBind_eq_ok.mpr ⟨ancestry, hancestry, rfl⟩⟩
    · exact ⟨_, rfl⟩
  unfold chooseRoot
  dsimp only
  split_ifs
  · exact ⟨_, rfl⟩
  obtain ⟨limit, hlimit⟩ := wrapAdd_ok h 64 n.stage.forkTree.rootSlot.toNat maxRootGap
  by_cases hforced : limit < proposedRoot.toNat
  · exact ⟨some proposedRoot, exceptBind_eq_ok.mpr ⟨limit, hlimit, if_pos hforced⟩⟩
  · obtain ⟨gated, hgated⟩ := hgated
    obtain ⟨snapped, hsnapped⟩ := hsnap gated
    refine exceptBind_ok hlimit ?_
    rw [if_neg hforced]
    exact exceptBind_ok hgated (exceptBind_ok hsnapped ⟨_, rfl⟩)

theorem tryAdvanceRoot_ok (proposedRoot : UInt64) (catchingUp : Bool) :
    ∃ n', (tryAdvanceRoot P proposedRoot catchingUp).run n = .ok () n' := by
  obtain ⟨root, hroot⟩ := chooseRoot_ok h hwf proposedRoot catchingUp
  rw [run_tryAdvanceRoot, hroot]
  cases root with
  | none => exact ⟨n, rfl⟩
  | some root =>
    obtain ⟨s', hs', -⟩ := advanceRoot_ok hwf root
    simp only [hs']
    exact ⟨_, rfl⟩

theorem advanceNewRoot_ok
    (newRoot : Option UInt64) : ∃ n', (advanceNewRoot P newRoot).run n = .ok () n' := by
  cases newRoot with
  | none => exact ⟨n, rfl⟩
  | some root => exact tryAdvanceRoot_ok h hwf root false

end

/-- An early write of the block leaves everything but the blocks of the store alone. -/
theorem storeEarly_stage (n : ValidatorNode) (block : Block) :
    ∃ storage : Storage, (n.storeEarly block).stage
        = { n.stage with bank := { n.stage.bank with storage } } ∧
      storage.accounts = n.storage.accounts ∧ storage.accountIndex = n.storage.accountIndex := by
  unfold storeEarly
  split_ifs
  · exact ⟨n.storage, rfl, rfl, rfl⟩
  · exact ⟨n.storage.putBlock block, rfl, rfl, rfl⟩

/-- A block whose replay failed for its header or its parent leaves the slot loop running. -/
theorem afterFailure_ok (hwf : n.stage.forkTree.WellFormed) (alreadyStored : Bool)
    {e : ValidatorError} (he : ∀ e', e ≠ .consensus e') :
    ∃ n', (afterFailure P block alreadyStored e).run n = .ok () n' := by
  have hrestore : ∀ slot, ∃ n', (if alreadyStored then n
      else n.withStorage (n.storage.deleteBlock P slot)).restoreBankSlotHashes = .ok n' := by
    intro slot
    refine restoreBankSlotHashes_ok ?_
    split_ifs <;> exact hwf
  cases e with
  | consensus e' => exact absurd rfl (he e')
  | missingParentBlock slot parentSlot =>
    simp only [afterFailure, run_bind, run_get]
    split_ifs
    · exact ⟨_, rfl⟩
    · exact ⟨_, rfl⟩
  | bankHashMismatch slot | merkleRootMismatch slot | blockHashMismatch slot =>
    obtain ⟨n', hn'⟩ := hrestore slot
    simp only [afterFailure, run_bind, run_get, hn']
    exact ⟨n', rfl⟩

/-- A block that the stage refuses for another reason than that its slot is known is an error. -/
theorem afterFailure_ne_ok {s : ReplayStage} {e : ConsensusError}
    (hslot : block.header.slot ∉ s.forkTree.nodes) (href : Refuses P s block e)
    (alreadyStored : Bool) (n' : ValidatorNode) :
    (afterFailure P block alreadyStored (.consensus e)).run n ≠ .ok () n' := by
  intro h
  obtain ⟨_, _, -, -, ⟨-, rfl⟩ | ⟨-, hadd⟩⟩ := href
  · simp [afterFailure, run_bind] at h
  · rw [addSlot, if_neg hslot] at hadd
    split_ifs at hadd
    cases hadd
    simp [afterFailure, run_bind] at h

/-! ### The slot loop goes on -/

section

variable {parent : ForkNode} {d : DeferredSlotExecution} {e : ValidatorError}
  (h : mismatch P parent block d = some e)

include h

theorem mismatch_eq_some :
    e = .bankHashMismatch block.header.slot ∨ e = .merkleRootMismatch block.header.slot ∨
      e = .blockHashMismatch block.header.slot := by
  simp only [mismatch] at h
  split_ifs at h
  · exact .inl (Option.some.inj h).symm
  · exact .inr (.inl (Option.some.inj h).symm)
  · exact .inr (.inr (Option.some.inj h).symm)

theorem mismatch_ne_consensus (e' : ConsensusError) : e ≠ .consensus e' := by
  obtain rfl | rfl | rfl := mismatch_eq_some h
  all_goals simp

end

/-- **A bad block and the slot loop.**  `replay_or_buffer_block` returns without an error exactly if
the slot is known already, or the parent is missing, or the block can be executed and either its
header does not match the outcome, or its leader is the scheduled one and the tree has room. -/
theorem replayOrBufferBlock_ok_iff (h : Computes P n.stage) (hwf : n.stage.forkTree.WellFormed) :
    (∃ n', (replayOrBufferBlock P config order block).run n = .ok () n') ↔
      n.stage.forkTree.contains block.header.slot ∨ block.header.slot ∈ n.orphanBlocks ∨
        n.stage.forkTree.getNode block.header.parentSlot = none ∨
        ∃ parent s₁ d, Executed P config order block (n.storeEarly block).stage parent s₁ d ∧
          (mismatch P parent block d ≠ none ∨
            LeaderMatches P n.stage block ∧ n.stage.forkTree.nodeCount < maxForkTreeNodes) := by
  rw [run_replayOrBufferBlock, ← or_assoc]
  by_cases hseen : n.stage.forkTree.contains block.header.slot ∨ block.header.slot ∈ n.orphanBlocks
  · rw [if_pos hseen]
    exact iff_of_true ⟨n, rfl⟩ (.inl hseen)
  rw [if_neg hseen]
  simp only [hseen, false_or]
  obtain ⟨storage, hstage, -⟩ := storeEarly_stage n block
  have htree : (n.storeEarly block).stage.forkTree = n.stage.forkTree := by rw [hstage]
  have hcomputes : Computes P (n.storeEarly block).stage := by
    rw [hstage]
    exact ⟨h.overflowChecks, h.slotsPerEpoch⟩
  have hwf₁ : (n.storeEarly block).stage.forkTree.WellFormed := htree.symm ▸ hwf
  have hslot : block.header.slot ∉ (n.storeEarly block).stage.forkTree.nodes := by
    rw [htree]
    exact fun hmem => hseen (.inl (by simpa [contains] using hmem))
  have hrefuses := not_refuses_iff hcomputes hslot
  have hleader : LeaderMatches P (n.storeEarly block).stage block ↔ LeaderMatches P n.stage block := by
    rw [hstage]
    exact Iff.rfl
  rw [hleader, htree] at hrefuses
  cases hrun : (replayBlockFull P config order block).run (n.storeEarly block).stage with
  | fault f =>
    -- Every block of the right-hand side is replayed, or it fails with an error.
    refine iff_of_false (by simp) ?_
    rintro (hnone | ⟨parent, s₁, d, hexec, hcase⟩)
    · rw [replayBlockFull_eq_err.mpr (.inl ⟨htree.symm ▸ hnone, rfl, rfl⟩)] at hrun
      cases hrun
    · cases hmis : mismatch P parent block d with
      | some e =>
        rw [replayBlockFull_eq_err.mpr (.inr ⟨parent, s₁, d, hexec, .inl ⟨hmis, rfl⟩⟩)] at hrun
        cases hrun
      | none =>
        obtain ⟨result, s', hok⟩ := replayBlockFull_ok hcomputes hwf₁ hexec hmis
          (hrefuses.mpr (hcase.resolve_left (by simp [hmis])))
        rw [hok] at hrun
        cases hrun
  | err e stage =>
    dsimp only
    obtain ⟨hnone, rfl, rfl⟩ | ⟨parent, s₁, d, hexec, ⟨hmis, rfl⟩ | ⟨hmis, e', rfl, href, rfl⟩⟩ :=
      replayBlockFull_eq_err.mp hrun
    · exact iff_of_true (afterFailure_ok hwf₁ _ (by simp)) (.inl (htree ▸ hnone))
    · refine iff_of_true (afterFailure_ok ?_ _ (mismatch_ne_consensus hmis))
        (.inr ⟨parent, stage, d, hexec, .inl (by simp [hmis])⟩)
      obtain ⟨ancestry, clock, -, rfl⟩ := enterFork_eq_ok hexec.fork
      exact hwf₁
    · -- The block is refused, and not because its slot is in the tree.
      refine iff_of_false ?_ ?_
      · rintro ⟨n', hn'⟩
        exact afterFailure_ne_ok hslot href _ n' hn'
      · rintro (hnone | ⟨parent', s₁', d', hexec', hcase⟩)
        · rw [← htree, hexec.parent] at hnone
          cases hnone
        · obtain ⟨rfl, rfl, rfl⟩ := hexec.unique hexec'
          exact hrefuses.mpr (hcase.resolve_left (by simp [hmis])) e' href
  | ok result stage =>
    have hwf' := replayBlockFull_wellFormed hwf₁ hrun
    refine iff_of_true (advanceNewRoot_ok h.overflowChecks hwf' result.newRoot) (.inr ?_)
    obtain ⟨parent, s₁, d, hexec, hmis, -⟩ := replayBlockFull_eq_ok.mp hrun
    refine ⟨parent, s₁, d, hexec, .inr (hrefuses.mp fun e href => ?_)⟩
    rw [replayBlockFull_eq_err.mpr
      (.inr ⟨parent, s₁, d, hexec, .inr ⟨hmis, e, rfl, href, rfl⟩⟩)] at hrun
    cases hrun

end ValidatorNode

end

/-! ### A block of the wrong leader -/

namespace Sample

/-- A node in its first slot. -/
def node (stage : ReplayStage) : ValidatorNode :=
  { stage, producer := wallets.producer, currentSlot := 1, orphanBlocks := ∅
    failedForkTargets := ∅, lastForkSwitchTarget := none, lastVotedSlot := 0
    lastProducedSlot := none, myVoteAccount := none }

end Sample

open Sample ValidatorNode in
/-- A valid block for slot 1, but not of the scheduled leader, ends the slot loop. -/
theorem wrongLeader_ends_the_loop :
    ∃ block e n', (replayOrBufferBlock (Platform.sample false) config id block).run (node scheduled)
      = .err e n' := by
  obtain ⟨block, -, e, n', h, -⟩ :
      ∃ block, sealBlock .release scheduled ⟨header, [], []⟩ = some block ∧
      ∃ e n', (replayOrBufferBlock .release config id block).run (node scheduled)
        = .err e n' ∧ True := by decide +kernel
  exact ⟨block, e, n', h⟩

open Sample ValidatorNode in
/-- A block without a parent is buffered by a fresh node. -/
theorem orphan_is_buffered :
    ∃ n', (replayOrBufferBlock (Platform.sample false) config id
      ⟨{ header with slot := 5, parentSlot := 4 }, [], []⟩).run (node scheduled) = .ok () n' :=
  (replayOrBufferBlock_ok_iff ⟨rfl, by decide⟩ (wellFormed_new 0 Hash.zero Hash.zero)).mpr
    (.inr (.inr (.inl (by decide))))

end Nusantara
