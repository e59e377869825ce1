import Nusantara.Consensus.Tally
import Nusantara.Validator.Run

/-!
# Stored blocks and the fork tree

`replay_or_buffer_block` stores a block before it looks at it, unless some block is stored for the
slot already.  A block that fails its verification is deleted again, unless it was stored before.

So the block of a slot in the tree is the stored one as long as the first block that came for the
slot is the one that joined.  A block that waits for its parent, or whose parent is pruned, is stored
without having been looked at; a later block for the same slot that joins the tree finds the place
taken, and the first one itself, when it fails later on, is not deleted.

## Main results

* `ValidatorNode.storedBlocks_of_steps`: what the store must hold when a block arrives for the tree
  and the store to stay in agreement.
-/

namespace Nusantara

open Exec ReplayStage Storage Finmap ForkTree Outcome

/-! ### The blocks of the store -/

namespace Storage

variable {P : Platform} {s s' : Storage}

/-- Two stores hold the same headers and the same blocks. -/
structure SameBlocks (s s' : Storage) : Prop where
  headers : s'.blockHeaders = s.blockHeaders
  blocks : s'.blocks = s.blocks

theorem SameBlocks.trans {s'' : Storage} (h : SameBlocks s s') (h' : SameBlocks s' s'') :
    SameBlocks s s'' :=
  ⟨h'.headers.trans h.headers, h'.blocks.trans h.blocks⟩

theorem SameBlocks.getBlock (h : SameBlocks s s') (x : UInt64) : s'.getBlock x = s.getBlock x :=
  congrArg (Finmap.lookup x) h.blocks

/-- A batch of accounts and transactions holds no blocks. -/
theorem sameBlocks_write (batch : WriteBatch) : SameBlocks s (s.write batch) := by
  refine List.foldlRecOn batch apply (motive := fun s' => SameBlocks s s') ⟨rfl, rfl⟩ ?_
  rintro s' ⟨hheaders, hblocks⟩ op -
  cases op <;> exact ⟨hheaders, hblocks⟩

theorem deleteBlock_blocks (s : Storage) (slot : UInt64) :
    (s.deleteBlock P slot).blockHeaders = s.blockHeaders.erase slot ∧
      (s.deleteBlock P slot).blocks = s.blocks.erase slot := by
  obtain ⟨_, hdeleted, -⟩ := s.deleteBlock_eq P slot
  rw [hdeleted]
  exact ⟨rfl, rfl⟩

/-- Headers and blocks are stored together. -/
def Paired (s : Storage) : Prop := ∀ slot, s.hasBlockHeader slot = (s.getBlock slot).isSome

theorem Paired.of_same (h : s.Paired) (hs : SameBlocks s s') : s'.Paired := by
  intro slot
  rw [hasBlockHeader, getBlock, hs.headers, hs.blocks]
  exact h slot

theorem Paired.putBlock (h : s.Paired) (block : Block) : (s.putBlock block).Paired := by
  intro slot
  have hslot := h slot
  simp only [hasBlockHeader, getBlock, Storage.putBlock] at hslot ⊢
  by_cases heq : slot = block.header.slot
  · rw [heq, lookup_insert]
    simp
  · simpa [heq] using hslot

theorem Paired.deleteBlock (h : s.Paired) (slot : UInt64) : (s.deleteBlock P slot).Paired := by
  intro x
  have hx := h x
  rw [hasBlockHeader, getBlock, (deleteBlock_blocks s slot).1, (deleteBlock_blocks s slot).2]
  simp only [hasBlockHeader, getBlock] at hx
  by_cases heq : x = slot
  · rw [heq, lookup_erase]
    simp
  · simpa [heq] using hx

end Storage

/-! ### What a replay does to the blocks -/

namespace ReplayStage

variable {P : Platform} {config : ValidatorConfig} {order : List ℕ → List ℕ} {block : Block}
  {s s₁ s' : ReplayStage} {parent : ForkNode} {d : DeferredSlotExecution} {result : ReplayResult}
  {q : UInt64 → Hash → Prop}

theorem sameBlocks_enterFork (h : Executed P config order block s parent s₁ d) :
    SameBlocks s.bank.storage s₁.bank.storage ∧ s₁.forkTree = s.forkTree := by
  obtain ⟨ancestry, clock, -, rfl⟩ := enterFork_eq_ok h.fork
  exact ⟨⟨rfl, rfl⟩, rfl⟩

theorem sameBlocks_commitBlock (h : Executed P config order block s parent s₁ d) :
    SameBlocks s.bank.storage (commitBlock P block d s₁).bank.storage ∧
      (commitBlock P block d s₁).forkTree = s.forkTree := by
  obtain ⟨hsame, htree⟩ := sameBlocks_enterFork h
  have hwrite : (commitBlock P block d s₁).bank.storage = s₁.bank.storage.write d.writeBatch := rfl
  exact ⟨hwrite ▸ hsame.trans (sameBlocks_write _), htree⟩

/-- A block that is replayed has passed its verification; it joins the tree, and no block is
stored. -/
theorem sameBlocks_replayBlockFull
    (h : (replayBlockFull P config order block).run s = .ok result s') :
    (∃ parent s₁ d, Executed P config order block s parent s₁ d ∧
        mismatch P parent block d = none) ∧
      SameBlocks s.bank.storage s'.bank.storage ∧
        (s.forkTree.HashesMeet q → q block.header.slot block.header.blockHash →
          s'.forkTree.HashesMeet q) := by
  obtain ⟨parent, s₁, d, hexec, hmis, hrun⟩ := replayBlockFull_eq_ok.mp h
  obtain ⟨hsame, htree⟩ := sameBlocks_commitBlock hexec
  obtain ⟨-, -, ⟨tree, hadd, -, hhashes⟩, clock, frozen, -, hbank⟩ := replayBlock_eq_ok hrun
  have hstored : SameBlocks (commitBlock P block d s₁).bank.storage s'.bank.storage := by
    rw [hbank]
    exact ⟨rfl, rfl⟩
  refine ⟨⟨parent, s₁, d, hexec, hmis⟩, hsame.trans hstored, fun hq hslot => ?_⟩
  rw [htree] at hadd
  exact (hq.addSlot hslot hadd).congr hhashes

end ReplayStage

/-! ### What a received block does -/

namespace ValidatorNode

section Properties

variable (P : Platform) (config : ValidatorConfig)

/-- What happens to the blocks of a node: one is handed to `replay_or_buffer_block`, or orphans are
taken out of the buffer, to be handed over again. -/
inductive BlockEvent where
  | receive (o : TaskOrder) (block : Block)
  | takeOrphans (slots : List UInt64)

/-- The node after such an event.  An error of `replay_or_buffer_block` is one way to return. -/
def BlockStep (n : ValidatorNode) (e : BlockEvent) (n' : ValidatorNode) : Prop :=
  match e with
  | .receive o block => (replayOrBufferBlock P config o.order block).run n = .ok () n' ∨
      ∃ e, (replayOrBufferBlock P config o.order block).run n = .err e n'
  | .takeOrphans slots => n' = { n with
      orphanBlocks := slots.foldl (fun orphans slot => orphans.erase slot) n.orphanBlocks }

/-- The slot of the block is in the tree or among the orphans, so the block is not looked at. -/
def Seen (n : ValidatorNode) (block : Block) : Prop :=
  n.stage.forkTree.contains block.header.slot ∨ block.header.slot ∈ n.orphanBlocks

instance (n : ValidatorNode) (block : Block) : Decidable (n.Seen block) :=
  inferInstanceAs (Decidable (_ ∨ _))

/-- The block is looked at, and its header does not match its outcome. -/
def FailsVerification (order : List ℕ → List ℕ) (n : ValidatorNode) (block : Block) : Prop :=
  ¬ n.Seen block ∧ ∃ parent s₁ d,
    Executed P config order block (n.storeEarly block).stage parent s₁ d ∧
      mismatch P parent block d ≠ none

/-- The block is looked at, and its header matches its outcome. -/
def PassesVerification (order : List ℕ → List ℕ) (n : ValidatorNode) (block : Block) : Prop :=
  ¬ n.Seen block ∧ ∃ parent s₁ d,
    Executed P config order block (n.storeEarly block).stage parent s₁ d ∧
      mismatch P parent block d = none

/-- For every slot of the tree the store holds a block with the hash of the node. -/
def BlocksAgree (n : ValidatorNode) : Prop :=
  ∀ slot node, n.stage.forkTree.getNode slot = some node →
    ∃ block, n.storage.getBlock slot = some block ∧ block.header.blockHash = node.blockHash

/-- The blocks that have failed their verification, after one more event. -/
def failedAfter (n : ValidatorNode) (failed : Set Block) : BlockEvent → Set Block
  | .receive o block => failed ∪ {b | b = block ∧ FailsVerification P config o.order n block}
  | .takeOrphans _ => failed

/-- A step of a node, with the blocks that have failed so far in the run. -/
def WatchedStep (s : ValidatorNode × Set Block) (e : BlockEvent) (s' : ValidatorNode × Set Block) :
    Prop :=
  BlockStep P config s.1 e s'.1 ∧ s'.2 = failedAfter P config s.1 s.2 e

/-- No block that has failed is in the store. -/
def FailedNotStored (s : ValidatorNode × Set Block) : Prop :=
  ∀ block ∈ s.2, s.1.storage.getBlock block.header.slot ≠ some block

/-- What the store holds for the slot of a block when the block arrives: not another block, if this
one passes its verification, and not this one, if it fails.  Where it holds nothing, a block that
has failed before is not looked at, or fails again. -/
def StoreFits (s : ValidatorNode × Set Block) (e : BlockEvent) : Prop :=
  match e with
  | .receive o block => (∀ stored, s.1.storage.getBlock block.header.slot = some stored →
      (PassesVerification P config o.order s.1 block →
        stored.header.blockHash = block.header.blockHash) ∧
      (FailsVerification P config o.order s.1 block → stored ≠ block)) ∧
    (s.1.storage.getBlock block.header.slot = none → block ∈ s.2 →
      s.1.Seen block ∨ FailsVerification P config o.order s.1 block)
  | .takeOrphans _ => True

end Properties

variable {P : Platform} {config : ValidatorConfig} {o : TaskOrder} {n n' : ValidatorNode}
  {block : Block} {q : UInt64 → Hash → Prop}

theorem blocksAgree_iff {n : ValidatorNode} :
    n.BlocksAgree ↔ n.stage.forkTree.HashesMeet fun slot hash =>
      ∃ block, n.storage.getBlock slot = some block ∧ block.header.blockHash = hash :=
  Iff.rfl

/-- The move of a root, or the failure to move it, leaves the blocks alone. -/
theorem sameBlocks_advanceNewRoot {root : Option UInt64}
    (h : (advanceNewRoot P root).run n = .ok () n' ∨
      ∃ e, (advanceNewRoot P root).run n = .err e n') :
    SameBlocks n.storage n'.storage ∧
      (n.stage.forkTree.HashesMeet q → n'.stage.forkTree.HashesMeet q) := by
  cases root with
  | none =>
    have hsame : n' = n := by
      rcases h with h | ⟨e, h⟩
      · exact (ok.inj h).2.symm
      · cases h
    exact hsame ▸ ⟨⟨rfl, rfl⟩, id⟩
  | some proposed =>
    obtain ⟨hstage, -⟩ | ⟨new, tree, -, -, hset, hstage⟩ := tryAdvanceRoot_cases h
    all_goals
      rw [storage, storage, hstage]
    · exact ⟨⟨rfl, rfl⟩, id⟩
    · exact ⟨⟨rfl, rfl⟩, fun hq => hq.setRoot hset⟩

section

variable {e : ValidatorError} {alreadyStored : Bool}
  (h : (afterFailure P block alreadyStored e).run n = .ok () n' ∨
    ∃ e', (afterFailure P block alreadyStored e).run n = .err e' n')

include h

/-- After a failed verification the block is deleted, unless it was stored before. -/
theorem afterFailure_mismatch {parent : ForkNode} {d : DeferredSlotExecution}
    (hmis : mismatch P parent block d = some e) :
    n'.stage.forkTree = n.stage.forkTree ∧
      SameBlocks (if alreadyStored then n.storage
        else n.storage.deleteBlock P block.header.slot) n'.storage := by
  have hrun : ∀ n₁, (if alreadyStored then n else
        n.withStorage (n.storage.deleteBlock P block.header.slot)).restoreBankSlotHashes = .ok n₁ →
      n₁.stage.forkTree = n.stage.forkTree ∧
        SameBlocks (if alreadyStored then n.storage
          else n.storage.deleteBlock P block.header.slot) n₁.storage := by
    intro n₁ hrestore
    obtain ⟨ancestry, -, hn₁⟩ := exceptBind_eq_ok.mp hrestore
    cases hn₁
    split_ifs
    all_goals exact ⟨rfl, rfl, rfl⟩
  obtain rfl | rfl | rfl := mismatch_eq_some hmis
  all_goals
    simp only [afterFailure, bind_eq_ok, bind_eq_err, run_get, run_set, ofFault_eq_ok,
      ofFault_ne_err, ok.injEq, reduceCtorEq, and_assoc, exists_and_left, existsAndEq,
      true_and, and_true, and_false, exists_false, or_false] at h
    exact hrun n' h

/-- A failure of another kind leaves the store alone. -/
theorem afterFailure_other
    (he : e = .missingParentBlock block.header.slot block.header.parentSlot ∨ ∃ e', e = .consensus e') :
    n'.stage = n.stage := by
  obtain rfl | ⟨e', rfl⟩ := he
  · simp only [afterFailure, run_bind, run_get] at h
    split_ifs at h
    all_goals
      simp only [run_pure, run_set, ok.injEq, true_and, reduceCtorEq, exists_false,
        or_false] at h
      exact h ▸ rfl
  · cases e' with
    | slotAlreadyProcessed slot =>
      simp only [afterFailure, run_bind, run_get, run_pure, ok.injEq, true_and,
        reduceCtorEq, exists_false, or_false] at h
      exact h ▸ rfl
    | _ =>
      rcases h with h | ⟨_, h⟩
      · cases h
      · exact ((err.injEq ..).mp h).2 ▸ rfl

end

theorem storeEarly_storage (n : ValidatorNode) (block : Block) :
    (n.storeEarly block).storage = if n.storage.hasBlockHeader block.header.slot then n.storage
      else n.storage.putBlock block := by
  unfold storeEarly
  split_ifs <;> rfl

/-- **What a received block does to the blocks and the tree.**  Nothing, if its slot is known or
buffered.  If it fails its verification, it is not in the store more than before.  Else it is in
the store if no block was stored for its slot, and it may have joined the tree. -/
theorem receive_cases (h : BlockStep P config n (.receive o block) n') :
    (n.Seen block ∧ n' = n) ∨
      (FailsVerification P config o.order n block ∧ n'.stage.forkTree = n.stage.forkTree ∧
        SameBlocks (if n.storage.hasBlockHeader block.header.slot then n.storage
          else (n.storage.putBlock block).deleteBlock P block.header.slot) n'.storage) ∨
      (¬ n.Seen block ∧ ¬ FailsVerification P config o.order n block ∧
        SameBlocks (n.storeEarly block).storage n'.storage ∧
          (n'.stage.forkTree = n.stage.forkTree ∨ PassesVerification P config o.order n block ∧
            ∀ q, n.stage.forkTree.HashesMeet q → q block.header.slot block.header.blockHash →
              n'.stage.forkTree.HashesMeet q)) := by
  simp only [BlockStep, run_replayOrBufferBlock] at h
  split_ifs at h with hseen
  · refine .inl ⟨hseen, ?_⟩
    rcases h with h | ⟨e, h⟩
    · exact (ok.inj h).2.symm
    · cases h
  obtain ⟨-, htree⟩ := moves_storeEarly P n block
  -- The outcome of an execution is the only one.
  have honly : ∀ {parent s₁ d}, Executed P config o.order block (n.storeEarly block).stage parent s₁ d →
      mismatch P parent block d = none → ¬ FailsVerification P config o.order n block := by
    rintro parent s₁ d hexec hmis ⟨-, parent', s₁', d', hexec', hmis'⟩
    obtain ⟨rfl, rfl, rfl⟩ := hexec.unique hexec'
    exact hmis' hmis
  cases hrun : (replayBlockFull P config o.order block).run (n.storeEarly block).stage with
  | fault f => simp [hrun] at h
  | ok result stage =>
    simp only [hrun] at h
    obtain ⟨⟨parent, s₁, d, hexec, hmis⟩, hsame, -⟩ :=
      sameBlocks_replayBlockFull (q := fun _ _ => True) hrun
    refine .inr (.inr ⟨hseen, honly hexec hmis, ?_, .inr ⟨⟨hseen, parent, s₁, d, hexec, hmis⟩, ?_⟩⟩)
    · obtain ⟨hroot, -⟩ := sameBlocks_advanceNewRoot (q := fun _ _ => True) h
      exact hsame.trans hroot
    · intro q hq hslot
      obtain ⟨-, -, hjoin⟩ := sameBlocks_replayBlockFull (q := q) hrun
      obtain ⟨-, hroot⟩ := sameBlocks_advanceNewRoot (q := q) h
      exact hroot (hjoin (htree.symm ▸ hq) hslot)
  | err e stage =>
    simp only [hrun] at h
    obtain ⟨hnone, rfl, rfl⟩ | ⟨parent, s₁, d, hexec, ⟨hmis, rfl⟩ | ⟨hmis, e', rfl, -, rfl⟩⟩ :=
      replayBlockFull_eq_err.mp hrun
    · -- The parent is missing.
      have hstage := afterFailure_other h (.inl rfl)
      refine .inr (.inr ⟨hseen, ?_, ?_, .inl ?_⟩)
      · rintro ⟨-, parent, s₁, d, hexec, -⟩
        rw [hexec.parent] at hnone
        cases hnone
      · rw [storage, storage, hstage]
        exact ⟨rfl, rfl⟩
      · rw [hstage]
        exact htree
    · -- The header does not match.
      obtain ⟨htree', hstored⟩ := afterFailure_mismatch h hmis
      obtain ⟨hsame, htree₁⟩ := sameBlocks_enterFork hexec
      refine .inr (.inl ⟨⟨hseen, parent, stage, d, hexec, by simp [hmis]⟩,
        htree'.trans (htree₁.trans htree), ?_⟩)
      have hearly := storeEarly_storage n block
      split_ifs at hstored hearly ⊢
      · have hn : SameBlocks n.storage stage.bank.storage := hearly ▸ hsame
        exact hn.trans hstored
      · have hn : SameBlocks (n.storage.putBlock block) stage.bank.storage := hearly ▸ hsame
        refine ⟨hstored.headers.trans ?_, hstored.blocks.trans ?_⟩
        · rw [(deleteBlock_blocks _ _).1, (deleteBlock_blocks _ _).1]
          exact congrArg (erase block.header.slot) hn.headers
        · rw [(deleteBlock_blocks _ _).2, (deleteBlock_blocks _ _).2]
          exact congrArg (erase block.header.slot) hn.blocks
    · -- The stage refuses the block.
      have hstage := afterFailure_other h (.inr ⟨e', rfl⟩)
      obtain ⟨hsame, htree₁⟩ := sameBlocks_commitBlock hexec
      refine .inr (.inr ⟨hseen, honly hexec hmis, ?_, .inl ?_⟩)
      · rw [storage, storage, hstage]
        exact hsame
      · rw [hstage]
        exact htree₁.trans htree

/-! ### Runs -/

/-- The hashes of the old tree are those of blocks in the new store, if that differs from the old one
only at a slot that is not in the tree. -/
theorem hashesMeet_of_elsewhere (hagree : n.BlocksAgree) (hseen : ¬ n.Seen block)
    (helse : ∀ x, x ≠ block.header.slot → n'.storage.getBlock x = n.storage.getBlock x) :
    n.stage.forkTree.HashesMeet fun slot hash =>
      ∃ block, n'.storage.getBlock slot = some block ∧ block.header.blockHash = hash := by
  intro x node hnode
  have hne : x ≠ block.header.slot := by
    rintro rfl
    refine hseen (.inl ?_)
    simpa [contains] using mem_of_lookup_eq_some hnode
  obtain ⟨stored, hget, hhash⟩ := hagree x node hnode
  exact ⟨stored, (helse x hne).trans hget, hhash⟩

/-- A step with a store that fits keeps the agreement, and leaves no block that has failed. -/
theorem storedBlocks_step {e : BlockEvent} {failed : Set Block} (hpaired : n.storage.Paired)
    (hagree : n.BlocksAgree) (hfailed : FailedNotStored (n, failed))
    (hstep : BlockStep P config n e n') (hfits : StoreFits P config (n, failed) e) :
    n'.storage.Paired ∧ n'.BlocksAgree ∧
      FailedNotStored (n', failedAfter P config n failed e) := by
  cases e with
  | takeOrphans slots =>
    obtain rfl := hstep
    exact ⟨hpaired, hagree, hfailed⟩
  | receive o block =>
    obtain ⟨hstored, hnone⟩ := hfits
    obtain ⟨hseen, rfl⟩ | ⟨hfails, htree, hsame⟩ | ⟨hseen, hok, hsame, htree⟩ := receive_cases hstep
    · refine ⟨hpaired, hagree, ?_⟩
      rintro b (hb | ⟨-, hfails⟩)
      · exact hfailed b hb
      · exact absurd hseen hfails.1
    · split_ifs at hsame
      · -- The place was taken, and not by this block.
        have hblock := hsame.getBlock
        refine ⟨hpaired.of_same hsame, ?_, ?_⟩
        · rw [blocksAgree_iff, htree]
          exact hashesMeet_of_elsewhere hagree hfails.1 fun x _ => hblock x
        · rintro b (hb | ⟨rfl, -⟩) hleft
          · exact hfailed b hb ((hblock _).symm.trans hleft)
          · exact (hstored b ((hblock _).symm.trans hleft)).2 hfails rfl
      · -- The block was stored and is deleted.
        have hblocks : n'.storage.blocks
            = (n.storage.blocks.insert block.header.slot block).erase block.header.slot :=
          hsame.blocks.trans (deleteBlock_blocks _ _).2
        have helse : ∀ x, x ≠ block.header.slot →
            n'.storage.getBlock x = n.storage.getBlock x := by
          intro x hx
          rw [getBlock, hblocks, lookup_erase_ne hx, lookup_insert_of_ne _ hx]
          rfl
        have hgone : n'.storage.getBlock block.header.slot = none := by
          rw [getBlock, hblocks, lookup_erase]
        refine ⟨((hpaired.putBlock block).deleteBlock _).of_same hsame, ?_, ?_⟩
        · rw [blocksAgree_iff, htree]
          exact hashesMeet_of_elsewhere hagree hfails.1 helse
        · intro b hb hleft
          have hne : b.header.slot ≠ block.header.slot := by
            intro heq
            rw [heq, hgone] at hleft
            cases hleft
          obtain hb | ⟨rfl, -⟩ := hb
          · exact hfailed b hb ((helse _ hne).symm.trans hleft)
          · exact hne rfl
    · -- The block is stored, or another one that agrees with it.
      rw [storeEarly_storage] at hsame
      have hnew : n'.storage.Paired ∧
          (∀ x, x ≠ block.header.slot → n'.storage.getBlock x = n.storage.getBlock x) ∧
            (PassesVerification P config o.order n block →
              ∃ stored, n'.storage.getBlock block.header.slot = some stored ∧
                stored.header.blockHash = block.header.blockHash) ∧
            ∀ b ∈ failed, n'.storage.getBlock b.header.slot ≠ some b := by
        split_ifs at hsame with htaken
        · have hblock := hsame.getBlock
          refine ⟨hpaired.of_same hsame, fun x _ => hblock x, fun hpasses => ?_,
            fun b hb hleft => hfailed b hb ((hblock _).symm.trans hleft)⟩
          rw [hpaired] at htaken
          obtain ⟨stored, hget⟩ := Option.isSome_iff_exists.mp htaken
          exact ⟨stored, (hblock _).trans hget, (hstored stored hget).1 hpasses⟩
        · have hblocks : n'.storage.blocks = n.storage.blocks.insert block.header.slot block :=
            hsame.blocks
          have hput : n'.storage.getBlock block.header.slot = some block := by
            rw [getBlock, hblocks, lookup_insert]
          have helse : ∀ x, x ≠ block.header.slot →
              n'.storage.getBlock x = n.storage.getBlock x := by
            intro x hx
            rw [getBlock, hblocks, lookup_insert_of_ne _ hx]
            rfl
          refine ⟨(hpaired.putBlock block).of_same hsame, helse, fun _ => ⟨block, hput, rfl⟩,
            fun b hb hleft => ?_⟩
          by_cases heq : b.header.slot = block.header.slot
          · -- It has not failed before: it would fail again.
            rw [heq, hput] at hleft
            cases hleft
            rw [hpaired, Bool.not_eq_true, Option.isSome_eq_false_iff, Option.isNone_iff_eq_none]
              at htaken
            exact (hnone htaken hb).elim hseen hok
          · exact hfailed b hb ((helse _ heq).symm.trans hleft)
      obtain ⟨hpaired', helse, hjoined, hleft⟩ := hnew
      have hold := hashesMeet_of_elsewhere hagree hseen helse
      refine ⟨hpaired', ?_, ?_⟩
      · rcases htree with htree | ⟨hpasses, htree⟩
        · rw [blocksAgree_iff, htree]
          exact hold
        · exact htree _ hold (hjoined hpasses)
      · rintro b (hb | ⟨-, hfails⟩)
        · exact hleft b hb
        · exact absurd hfails hok

/-- **Stored blocks and the tree.**  Start with a store and a tree that agree.  If at each received
block the store fits, then after every step store and tree agree and no block that has failed so far
in the run is stored. -/
theorem storedBlocks_of_steps {events : List BlockEvent} {s s' : ValidatorNode × Set Block}
    (hpaired : s.1.storage.Paired) (hagree : s.1.BlocksAgree) (hfailed : FailedNotStored s)
    (h : Trace.Steps (fun s e s' => WatchedStep P config s e s' ∧ StoreFits P config s e)
      s events s') :
    Trace.Steps (fun s e s' => WatchedStep P config s e s' ∧ s'.1.BlocksAgree ∧ FailedNotStored s')
      s events s' := by
  induction h with
  | nil s => exact .nil s
  | @cons s t _ e _ head tail ih =>
    obtain ⟨⟨hstep, ht⟩, hfits⟩ := head
    obtain ⟨hpaired', hagree', hfailed'⟩ := storedBlocks_step hpaired hagree hfailed hstep hfits
    have hfailed' : FailedNotStored t := by
      rw [← ht] at hfailed'
      exact hfailed'
    exact .cons ⟨⟨hstep, ht⟩, hagree', hfailed'⟩ (ih hpaired' hagree' hfailed')

/-- A step as a function, where no error is returned. -/
def nextBlock (P : Platform) (config : ValidatorConfig) (n : ValidatorNode) :
    BlockEvent → Option ValidatorNode
  | .receive o block => n.next P config (.receive o block)
  | .takeOrphans slots => n.next P config (.takeOrphans slots)

theorem blockStep_of_next {e : BlockEvent} (h : nextBlock P config n e = some n') :
    BlockStep P config n e n' := by
  cases e with
  | receive o block => exact .inl (returned_eq_some.mp h)
  | takeOrphans slots => exact (Option.some.inj h).symm

theorem watched_of_foldlM {events : List BlockEvent} (failed : Set Block)
    (h : events.foldlM (nextBlock P config) n = some n') :
    ∃ failed', Trace.Steps (WatchedStep P config) (n, failed) events (n', failed') := by
  induction events generalizing n failed with
  | nil => exact ⟨failed, Option.some.inj h ▸ .nil _⟩
  | cons e events ih =>
    rw [List.foldlM_cons] at h
    obtain ⟨n₁, hn₁, h⟩ := Option.bind_eq_some_iff.mp h
    obtain ⟨failed', hsteps⟩ := ih (failedAfter P config n failed e) h
    exact ⟨failed', .cons ⟨blockStep_of_next hn₁, rfl⟩ hsteps⟩

end ValidatorNode

/-! ### Two blocks for one slot -/

namespace Sample

open ValidatorNode

/-- A node that has stored the block of its root. -/
def rooted : ValidatorNode :=
  (node wallets.stage).withStorage
    (wallets.stage.bank.storage.putBlock ⟨{ header with slot := 0, blockHash := Hash.zero }, [], []⟩)

theorem rooted_agrees : rooted.storage.Paired ∧ rooted.BlocksAgree := by
  constructor
  · exact Storage.Paired.putBlock (s := wallets.stage.bank.storage) (fun slot => rfl) _
  · intro slot node hnode
    obtain ⟨rfl, rfl⟩ := lookup_new (show (ForkTree.new 0 Hash.zero _).nodes.lookup _ = _ from hnode)
    exact ⟨_, lookup_insert _, rfl⟩

/-- A block for slot 2 on slot 1, whose hashes are not those of its outcome. -/
def badOrphan : Block := ⟨{ header with slot := 2, parentSlot := 1 }, [], []⟩

/-- The bad block comes first and waits for its parent; then it is taken from the buffer. -/
def orphanThenParent (parent : Block) : List BlockEvent :=
  [.receive inOrder badOrphan, .receive inOrder parent, .takeOrphans [2]]

/-- A block that the stage refuses for its hashes has failed its verification. -/
theorem failsVerification_of_err {n : ValidatorNode} {block : Block} {slot : UInt64}
    {s : ReplayStage} (hseen : ¬ n.Seen block)
    (h : (replayBlockFull .release config id block).run (n.storeEarly block).stage
      = .err (.blockHashMismatch slot) s) :
    FailsVerification .release config inOrder.order n block := by
  refine ⟨hseen, ?_⟩
  obtain ⟨-, hmissing, -⟩ | ⟨pnode, s₁, d, hexec, ⟨hmis, -⟩ | ⟨-, e', hrefused, -⟩⟩ :=
    replayBlockFull_eq_err.mp h
  · cases hmissing
  · exact ⟨pnode, s₁, d, hexec, by simp [hmis]⟩
  · cases hrefused

end Sample

set_option synthInstance.maxSize 1024 in
open Sample ValidatorNode in
/-- When its parent has arrived, the bad block fails its verification and stays in the store.  A valid
block for its slot then joins the tree, and the store still holds the bad one. -/
theorem bad_block_stays_in_the_store :
    ∃ parent s₁ s₂, Trace.Steps (WatchedStep (Platform.sample false) config) (rooted, ∅)
        (orphanThenParent parent) s₁ ∧
      WatchedStep (Platform.sample false) config s₁ (.receive inOrder badOrphan) s₂ ∧
      ¬ FailedNotStored s₂ ∧
      ∃ block s₃, WatchedStep (Platform.sample false) config s₂ (.receive inOrder block) s₃ ∧
        ¬ s₃.1.BlocksAgree := by
  obtain ⟨parent, -, n₁, hn₁, hseen, e, s, hreplay, rfl, n₂, hn₂, hleft, block, -, n₃, hn₃, node,
      hnode, hstored⟩ :
      ∃ parent, sealBlock .release rooted.stage ⟨header, [], []⟩ = some parent ∧
      ∃ n₁, (orphanThenParent parent).foldlM (nextBlock .release config) rooted
        = some n₁ ∧ ¬ n₁.Seen badOrphan ∧
      ∃ e s, (replayBlockFull .release config id badOrphan).run
        (n₁.storeEarly badOrphan).stage = .err e s ∧
      e = .blockHashMismatch 2 ∧
      ∃ n₂, nextBlock .release config n₁ (.receive inOrder badOrphan) = some n₂ ∧
      n₂.storage.getBlock 2 = some badOrphan ∧
      ∃ block, sealBlock .release n₂.stage badOrphan = some block ∧
      ∃ n₃, nextBlock .release config n₂ (.receive inOrder block) = some n₃ ∧
      ∃ node, n₃.stage.forkTree.getNode 2 = some node ∧
      ¬ ∃ stored, n₃.storage.getBlock 2 = some stored ∧
        stored.header.blockHash = node.blockHash := by decide +kernel
  obtain ⟨failed, hsteps⟩ := watched_of_foldlM ∅ hn₁
  refine ⟨parent, (n₁, failed), (n₂, _), hsteps, ⟨blockStep_of_next hn₂, rfl⟩, ?_, block, (n₃, _),
    ⟨blockStep_of_next hn₃, rfl⟩, ?_⟩
  · exact fun hnot => hnot badOrphan (.inr ⟨rfl, failsVerification_of_err hseen hreplay⟩) hleft
  · exact fun hagree => hstored (hagree 2 node hnode)

set_option synthInstance.maxSize 1024 in
open Sample ValidatorNode in
/-- A block with wrong hashes fails and is deleted; then a valid one for the same slot joins the tree,
and it is the stored one. -/
theorem first_block_is_stored :
    ∃ bad good n failed, rooted.storage.Paired ∧ rooted.BlocksAgree ∧ bad ∈ failed ∧
      n.stage.forkTree.contains 1 = true ∧
      Trace.Steps (fun s e s' => WatchedStep (Platform.sample false) config s e s' ∧
        s'.1.BlocksAgree ∧ FailedNotStored s')
          (rooted, ∅) [.receive inOrder bad, .receive inOrder good] (n, failed) := by
  obtain ⟨hnone, hseen, e, s, hreplay, rfl, n₁, hn₁, good, hgood, hne, hnone₁, n₂, hn₂, hjoined⟩ :
      rooted.storage.getBlock 1 = none ∧ ¬ rooted.Seen ⟨header, [], []⟩ ∧
      ∃ e s, (replayBlockFull .release config id ⟨header, [], []⟩).run
        (rooted.storeEarly ⟨header, [], []⟩).stage = .err e s ∧ e = .blockHashMismatch 1 ∧
      ∃ n₁, nextBlock .release config rooted (.receive inOrder ⟨header, [], []⟩) = some n₁ ∧
      ∃ good, sealBlock .release n₁.stage ⟨header, [], []⟩ = some good ∧
      good ≠ ⟨header, [], []⟩ ∧ n₁.storage.getBlock good.header.slot = none ∧
      ∃ n₂, nextBlock .release config n₁ (.receive inOrder good) = some n₂ ∧
      n₂.stage.forkTree.contains 1 := by decide +kernel
  obtain ⟨hpaired, hagree⟩ := rooted_agrees
  have hfails := failsVerification_of_err hseen hreplay
  have hstep₁ : WatchedStep .release config (rooted, ∅) (.receive inOrder ⟨header, [], []⟩)
    (n₁, _) := ⟨blockStep_of_next hn₁, rfl⟩
  refine ⟨⟨header, [], []⟩, good, n₂, _, hpaired, hagree, .inl (.inr ⟨rfl, hfails⟩), hjoined,
    storedBlocks_of_steps hpaired hagree (fun b hb => absurd hb id)
      (.cons ⟨hstep₁, ?_, ?_⟩ (.cons ⟨⟨blockStep_of_next hn₂, rfl⟩, ?_, ?_⟩ (.nil _)))⟩
  · intro stored hstored
    cases hstored.symm.trans hnone
  · exact fun _ hb => absurd hb id
  · intro stored hstored
    cases hstored.symm.trans hnone₁
  · rintro - (hb | ⟨heq, -⟩)
    · exact absurd hb id
    · exact absurd heq hne

end Nusantara
