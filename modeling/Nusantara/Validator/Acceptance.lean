import Nusantara.Runtime.Writes
import Nusantara.Validator.Chain

/-!
# What a replay leaves behind, and what it accepts

A block is executed on the fork of its parent.  To get there the bank and the account index are
moved before the first check, and the writes of the block are committed before the last ones: the
leader and the place in the fork tree are looked at by the replay stage, after the commit.  A
replay that fails leaves the node where it was only if it was already there.

Of the header, a replay checks the hash of the bank, the root over the transactions and the block
hash, which covers the parent hash, the slot and the hash of the proof of history.  Nothing
compares the parent hash with the parent or the state root with the state, and the block hash
covers neither the transactions nor the bank hash.

## Main results

* `replayBlockFull_eq_err`: the ways in which a replay fails, and the state it leaves.
* `untouched_iff`: the states and blocks for which a failed replay changes nothing.
* `headersBind_iff`: accepted headers are consistent only where no block is accepted.
-/

namespace Nusantara

open Exec Storage ReplayStage Finmap Option AccountCache Hash

/-! ### The outcomes of a replay -/

section Outcomes

variable {P : Platform} {config : ValidatorConfig} {order : List ℕ → List ℕ} {block : Block}
  {s s₁ s' : ReplayStage} {d : DeferredSlotExecution} {e : ValidatorError}

/-- The slot hashes with which a block on a fork is executed. -/
def forkHashes (ancestry : List UInt64) (s : ReplayStage) : List (UInt64 × Hash) :=
  buildMergedSlotHashes (s.forkTree.slotHashesOf ancestry) s.bank.storage 512

/-- The stage on the fork of the parent, given the slots of that fork: the bank is at the slot of
the block, with the hashes of the fork, and the index is rewound. -/
def onForkOf (block : Block) (ancestry : List UInt64) (clock : Clock) (s : ReplayStage) :
    ReplayStage :=
  { s with bank :=
    { s.bank with
      currentSlot := block.header.slot
      clock
      slotHashes := forkHashes ancestry s
      storage := s.bank.storage.rewindAccountIndexForAncestry ancestry.toFinset } }

theorem enterFork_eq_ok (h : enterFork P block s = .ok s₁) :
    ∃ ancestry clock, s.forkTree.getAncestry block.header.parentSlot = .ok ancestry ∧
      s₁ = onForkOf block ancestry clock s := by
  simp only [enterFork, exceptBind_eq_ok] at h
  obtain ⟨bank, hroll, ancestry, hanc, bank', hadv, h⟩ := h
  obtain ⟨_, rfl⟩ := ConsensusBank.rollbackToSlot_eq_ok hroll
  obtain ⟨clock, rfl⟩ := ConsensusBank.advanceSlot_eq_ok hadv
  cases h
  exact ⟨ancestry, clock, hanc, rfl⟩

/-- The first check that the header of a block fails after its execution. -/
def mismatch (P : Platform) (parent : ForkNode) (block : Block) (d : DeferredSlotExecution) :
    Option ValidatorError :=
  let h := block.header
  if ConsensusBank.computeBankHash P parent.bankHash d.result.accountDeltaHash ≠ h.bankHash then
    some (.bankHashMismatch h.slot)
  else if computeMerkleRoot P block.transactions ≠ h.merkleRoot then
    some (.merkleRootMismatch h.slot)
  else if computeBlockHash P h.parentHash h.slot h.pohHash ≠ h.blockHash then
    some (.blockHashMismatch h.slot)
  else none

/-- The block was executed on the fork of its parent, with this outcome. -/
structure Executed (P : Platform) (config : ValidatorConfig) (order : List ℕ → List ℕ)
    (block : Block) (s : ReplayStage) (parent : ForkNode) (s₁ : ReplayStage)
    (d : DeferredSlotExecution) : Prop where
  parent : s.forkTree.getNode block.header.parentSlot = some parent
  fork : enterFork P block s = .ok s₁
  execute : executeBlock P config order block s₁ = .ok d

theorem Executed.unique {parent parent' : ForkNode} {s₁' : ReplayStage}
    {d' : DeferredSlotExecution} (h : Executed P config order block s parent s₁ d)
    (h' : Executed P config order block s parent' s₁' d') : parent = parent' ∧ s₁ = s₁' ∧ d = d' := by
  cases h.fork.symm.trans h'.fork
  exact ⟨some.inj (h.parent.symm.trans h'.parent), rfl,
    Except.ok.inj (h.execute.symm.trans h'.execute)⟩

theorem verifyBlock_ok_iff :
    (verifyBlock P config order block).run s = .ok d s' ↔
      ∃ parent, Executed P config order block s parent s' d ∧ mismatch P parent block d = none := by
  simp only [verifyBlock, bind_eq_ok, ofOption_eq_ok, ofFault_eq_ok, require_eq_ok, run_get,
    run_set, run_pure, Outcome.ok.injEq]
  constructor
  · rintro ⟨_, _, ⟨rfl, rfl⟩, parent, _, ⟨hparent, rfl⟩, s₁, _, ⟨hfork, rfl⟩, _, _, ⟨-, rfl⟩, d', _,
      ⟨hexec, rfl⟩, _, _, ⟨hbank, rfl⟩, _, _, ⟨hmerkle, rfl⟩, _, _, ⟨hblock, rfl⟩, rfl, rfl⟩
    exact ⟨parent, ⟨hparent, hfork, hexec⟩, by simp [mismatch, hbank, hmerkle, hblock]⟩
  · rintro ⟨parent, ⟨hparent, hfork, hexec⟩, hmis⟩
    simp only [mismatch] at hmis
    split_ifs at hmis with hbank hmerkle hblock
    simp only [not_not] at hbank hmerkle hblock
    exact ⟨s, s, ⟨rfl, rfl⟩, parent, _, ⟨hparent, rfl⟩, _, _, ⟨hfork, rfl⟩, (), _, ⟨trivial, rfl⟩, d, _,
      ⟨hexec, rfl⟩, (), _, ⟨hbank, rfl⟩, (), _, ⟨hmerkle, rfl⟩, (), _, ⟨hblock, rfl⟩, rfl, rfl⟩

theorem verifyBlock_eq_err :
    (verifyBlock P config order block).run s = .err e s' ↔
      (s.forkTree.getNode block.header.parentSlot = none ∧
          e = .missingParentBlock block.header.slot block.header.parentSlot ∧ s' = s) ∨
        ∃ parent d, Executed P config order block s parent s' d ∧
          mismatch P parent block d = some e := by
  simp only [verifyBlock, bind_eq_err, ofOption_eq_ok, ofOption_eq_err, ofFault_eq_ok,
    ofFault_ne_err, require_eq_ok, require_eq_err, run_get, run_set, run_pure, Outcome.ok.injEq,
    reduceCtorEq, false_or, and_false, exists_false, or_false]
  constructor
  · rintro ⟨_, _, ⟨rfl, rfl⟩, ⟨hnone, rfl, rfl⟩ | ⟨parent, _, ⟨hparent, rfl⟩, s₁, _, ⟨hfork, rfl⟩,
      _, _, ⟨-, rfl⟩, d, _, ⟨hexec, rfl⟩, h⟩⟩
    · exact .inl ⟨hnone, rfl, rfl⟩
    · have hsame : s₁ = s' ∧ mismatch P parent block d = some e := by
        unfold mismatch
        rcases h with ⟨hbank, rfl, rfl⟩ | ⟨_, _, ⟨hbank, rfl⟩, ⟨hmerkle, rfl, rfl⟩ |
          ⟨_, _, ⟨hmerkle, rfl⟩, hblock, rfl, rfl⟩⟩
        · exact ⟨rfl, if_pos hbank⟩
        · exact ⟨rfl, by simp [hbank, hmerkle]⟩
        · exact ⟨rfl, by simp [hbank, hmerkle, hblock]⟩
      obtain ⟨rfl, hmis⟩ := hsame
      exact .inr ⟨parent, d, ⟨hparent, hfork, hexec⟩, hmis⟩
  · rintro (⟨hnone, rfl, rfl⟩ | ⟨parent, d, ⟨hparent, hfork, hexec⟩, hmis⟩)
    · exact ⟨_, _, ⟨rfl, rfl⟩, .inl ⟨hnone, rfl, rfl⟩⟩
    · refine ⟨_, _, ⟨rfl, rfl⟩, .inr ⟨parent, _, ⟨hparent, rfl⟩, _, _, ⟨hfork, rfl⟩, (), _,
        ⟨trivial, rfl⟩, d, _, ⟨hexec, rfl⟩, ?_⟩⟩
      simp only [mismatch] at hmis
      split_ifs at hmis with hbank hmerkle hblock
      · exact .inl ⟨hbank, some.inj hmis, rfl⟩
      · exact .inr ⟨(), _, ⟨not_not.mp hbank, rfl⟩, .inl ⟨hmerkle, some.inj hmis, rfl⟩⟩
      · exact .inr ⟨(), _, ⟨not_not.mp hbank, rfl⟩, .inr ⟨(), _, ⟨not_not.mp hmerkle, rfl⟩, hblock,
          some.inj hmis, rfl⟩⟩

theorem feedBlock_eq_err {parentPoh : Hash} :
    (feedBlock P block parentPoh).run s = .err e s' ↔
      s' = s ∧ ∃ e', e = .consensus e' ∧ Refuses P s block e' := by
  simp only [feedBlock]
  constructor
  · intro h
    split at h
    case h_2 e' s₁ hrun =>
      obtain ⟨rfl, rfl⟩ := (Outcome.err.injEq ..).mp h
      obtain ⟨rfl, hrefuses⟩ := replayBlock_eq_err.mp hrun
      exact ⟨rfl, e', rfl, hrefuses⟩
    all_goals simp at h
  · rintro ⟨rfl, e', rfl, hrefuses⟩
    rw [replayBlock_eq_err.mpr ⟨rfl, hrefuses⟩]

/-- What the stage looks at before it refuses a block is not moved by its execution. -/
theorem refuses_commitBlock {parent : ForkNode} {e' : ConsensusError}
    (hexec : Executed P config order block s parent s₁ d) :
    Refuses P (commitBlock P block d s₁) block e' ↔ Refuses P s block e' := by
  obtain ⟨ancestry, clock, -, rfl⟩ := enterFork_eq_ok hexec.fork
  exact Iff.rfl

/-- **The failures of a replay.**  The parent is not in the tree; or the header does not match the
outcome, and the stage stays on the fork of the parent; or it matches and the stage refuses the
block, whose writes are then committed. -/
theorem replayBlockFull_eq_err :
    (replayBlockFull P config order block).run s = .err e s' ↔
      (s.forkTree.getNode block.header.parentSlot = none ∧
          e = .missingParentBlock block.header.slot block.header.parentSlot ∧ s' = s) ∨
        ∃ parent s₁ d, Executed P config order block s parent s₁ d ∧
          ((mismatch P parent block d = some e ∧ s' = s₁) ∨
            mismatch P parent block d = none ∧
              ∃ e', e = .consensus e' ∧ Refuses P s block e' ∧ s' = commitBlock P block d s₁) := by
  simp only [replayBlockFull, bind_eq_err, verifyBlock_eq_err, run_get, run_set, reduceCtorEq,
    Outcome.ok.injEq, false_or, feedBlock_eq_err]
  constructor
  · rintro ((h | ⟨parent, d, hexec, hmis⟩) | ⟨d, s₁, hverify, _, _, ⟨rfl, rfl⟩, _, _, ⟨-, rfl⟩, rfl,
      e', rfl, hrefuses⟩)
    · exact .inl h
    · exact .inr ⟨parent, s', d, hexec, .inl ⟨hmis, rfl⟩⟩
    · obtain ⟨parent, hexec, hmis⟩ := verifyBlock_ok_iff.mp hverify
      exact .inr ⟨parent, _, d, hexec,
        .inr ⟨hmis, e', rfl, (refuses_commitBlock hexec).mp hrefuses, rfl⟩⟩
  · rintro (h | ⟨parent, s₁, d, hexec, ⟨hmis, rfl⟩ | ⟨hmis, e', rfl, hrefuses, rfl⟩⟩)
    · exact .inl (.inl h)
    · exact .inl (.inr ⟨parent, d, hexec, hmis⟩)
    · exact .inr ⟨d, s₁, verifyBlock_ok_iff.mpr ⟨parent, hexec, hmis⟩, s₁, s₁, ⟨rfl, rfl⟩, (), _,
        ⟨trivial, rfl⟩, rfl, e', rfl, (refuses_commitBlock hexec).mpr hrefuses⟩

end Outcomes

/-! ### What a failed replay leaves behind -/

/-- The versions and the index of the accounts, the state tree, the slot and the slot hashes of the
bank, and the fork tree are the same in two states of the stage. -/
structure Untouched (s s' : ReplayStage) : Prop where
  accounts : s'.bank.storage.accounts = s.bank.storage.accounts
  accountIndex : s'.bank.storage.accountIndex = s.bank.storage.accountIndex
  stateTree : s'.bank.stateTree = s.bank.stateTree
  currentSlot : s'.bank.currentSlot = s.bank.currentSlot
  slotHashes : s'.bank.slotHashes = s.bank.slotHashes
  forkTree : s'.forkTree = s.forkTree

/-- The stage is where a replay of the block would bring it: the bank is at its slot with the given
hashes, every account of `deltas` is stored and indexed for the slot and is in the state tree, and
the index names no version off the fork for any other account. -/
structure AlreadyThere (P : Platform) (block : Block) (ancestry : List UInt64)
    (hashes : List (UInt64 × Hash)) (deltas : List (Hash × Account)) (s : ReplayStage) : Prop where
  currentSlot : s.bank.currentSlot = block.header.slot
  slotHashes : s.bank.slotHashes = hashes
  stored : ∀ q ∈ deltas,
    s.bank.storage.accounts.lookup (q.1, block.header.slot) = some q.2 ∧
      s.bank.storage.accountIndex.lookup q.1 = some block.header.slot ∧
        s.bank.stateTree.lookup q.1 = some (accountLeafHash P q)
  others : ∀ a slot, (∀ q ∈ deltas, q.1 ≠ a) →
    s.bank.storage.accountIndex.lookup a = some slot → OnFork ancestry.toFinset slot

section Failed

variable {P : Platform} {config : ValidatorConfig} {order : List ℕ → List ℕ} {block : Block}
  {s s₁ s' : ReplayStage} {d : DeferredSlotExecution} {ancestry : List UInt64}
  {hashes : List (UInt64 × Hash)} {batch : WriteBatch} {cache : AccountCache}

/-- A rewind leaves an entry alone exactly if it is on the fork. -/
theorem rewoundIndex_eq_self {storage : Storage} {ancestors : Finset UInt64} {a : Hash}
    {current : UInt64} (hne : ancestors.Nonempty) :
    storage.rewoundIndex ancestors a current = some current ↔ OnFork ancestors current := by
  unfold rewoundIndex
  split_ifs with hon
  · exact iff_of_true rfl ((onFork_iff hne).mpr hon)
  · refine iff_of_false (fun hlatest => hon ?_) fun h => hon ((onFork_iff hne).mp h)
    have hfork := isLatest_latestOnFork (s := storage) (a := a) hne
    rw [hlatest] at hfork
    exact (onFork_iff hne).mp hfork.1.2

theorem notMem_cache_iff {a : Hash} : a ∉ cache ↔ ∀ q ∈ cache.deltas, q.1 ≠ a := by
  rw [mem_iff]
  constructor
  · rintro h q hq rfl
    exact h ⟨q.2, mem_deltas.mp hq⟩
  · rintro h ⟨account, haccount⟩
    exact h (a, account) (mem_deltas.mpr haccount) rfl

/-- What it takes for the move to a fork and the writes of a slot to change nothing. -/
theorem untouched_iff_alreadyThere (hne : ancestry.toFinset.Nonempty)
    (ho : Overlays block.header.slot batch cache)
    (haccounts : s'.bank.storage.accounts =
      ((s.bank.storage.rewindAccountIndexForAncestry ancestry.toFinset).write batch).accounts)
    (hindex : s'.bank.storage.accountIndex =
      ((s.bank.storage.rewindAccountIndexForAncestry ancestry.toFinset).write batch).accountIndex)
    (htree : s'.bank.stateTree =
      cache.deltas.foldl (fun t q => t.insert q.1 (accountLeafHash P q)) s.bank.stateTree)
    (hslot : s'.bank.currentSlot = block.header.slot) (hhashes : s'.bank.slotHashes = hashes)
    (hforks : s'.forkTree = s.forkTree) :
    Untouched s s' ↔ AlreadyThere P block ancestry hashes cache.deltas s := by
  have hlookup : ∀ a, s'.bank.storage.accountIndex.lookup a =
      if a ∈ cache then some block.header.slot
      else (s.bank.storage.accountIndex.lookup a).bind
        (s.bank.storage.rewoundIndex ancestry.toFinset a) := by
    intro a
    rw [hindex, ho.index]
    exact if_congr Iff.rfl rfl lookup_rewindIndex
  constructor
  · intro h
    refine ⟨h.currentSlot ▸ hslot, h.slotHashes ▸ hhashes, fun q hq => ?_, fun a slot ha hcur => ?_⟩
    · have hq := mem_deltas.mp hq
      have hmem : q.1 ∈ cache := mem_iff.mpr ⟨q.2, hq⟩
      refine ⟨?_, ?_, ?_⟩
      · rw [← h.accounts, haccounts, ho.accounts, if_pos ⟨rfl, hmem⟩, hq]
      · rw [← h.accountIndex, hlookup, if_pos hmem]
      · rw [← h.stateTree, htree, lookup_foldl_deltas, hq]
        rfl
    · have hsame := hlookup a
      rw [h.accountIndex, if_neg (notMem_cache_iff.mpr ha), hcur, bind_some] at hsame
      exact (rewoundIndex_eq_self hne).mp hsame.symm
  · intro h
    have hstored : ∀ a account, cache.lookup a = some account → _ := fun a account hq =>
      h.stored (a, account) (mem_deltas.mpr hq)
    refine ⟨?_, ?_, ?_, hslot.trans h.currentSlot.symm, hhashes.trans h.slotHashes.symm, hforks⟩
    · refine ext_lookup fun ⟨a, t⟩ => ?_
      rw [haccounts, ho.accounts]
      split_ifs with hin
      · obtain ⟨rfl, hmem⟩ := hin
        obtain ⟨account, hq⟩ := mem_iff.mp hmem
        rw [hq, (hstored a account hq).1]
      · rfl
    · refine ext_lookup fun a => ?_
      rw [hlookup]
      split_ifs with hmem
      · obtain ⟨account, hq⟩ := mem_iff.mp hmem
        exact (hstored a account hq).2.1.symm
      · cases hcur : s.bank.storage.accountIndex.lookup a with
        | none => rfl
        | some slot =>
          exact (rewoundIndex_eq_self hne).mpr (h.others a slot (notMem_cache_iff.mp hmem) hcur)
    · refine ext_lookup fun a => ?_
      rw [htree, lookup_foldl_deltas]
      cases hq : cache.lookup a with
      | none => rfl
      | some account => exact (hstored a account hq).2.2.symm

/-- The deltas of an executed block are its writes. -/
theorem executeBlock_eq_ok (h : executeBlock P config order block s = .ok d) :
    ∃ cache : AccountCache, d.result.accountDeltas = cache.deltas ∧
      Overlays block.header.slot d.writeBatch cache := by
  obtain ⟨⟨d', storage⟩, hdeferred, hd⟩ := exceptBind_eq_ok.mp h
  cases hd
  obtain ⟨committer, hcommit, hresult⟩ := exceptBind_eq_ok.mp hdeferred
  obtain ⟨rfl, -⟩ := Prod.mk.inj (Except.ok.inj hresult)
  exact ⟨committer.accountCache, rfl, overlays_parallelCommitter hcommit⟩

/-- **All or nothing.**  A replay of a block that fails leaves the node untouched exactly if a block
whose header does not match its outcome finds the node on the fork of its parent and at its slot,
and a block that the stage refuses finds, besides, all it writes already written. -/
theorem untouched_iff :
    (∀ e s', (replayBlockFull P config order block).run s = .err e s' → Untouched s s') ↔
      ∀ parent s₁ d ancestry, Executed P config order block s parent s₁ d →
        s.forkTree.getAncestry block.header.parentSlot = .ok ancestry →
          (mismatch P parent block d ≠ none →
              AlreadyThere P block ancestry (forkHashes ancestry s) [] s) ∧
            (mismatch P parent block d = none → (∃ e, Refuses P s block e) →
              AlreadyThere P block ancestry
                (({ s.bank with slotHashes := forkHashes ancestry s }).recordSlotHash
                  block.header.slot block.header.blockHash).slotHashes
                d.result.accountDeltas s) := by
  -- For each of the two failures: the state it leaves is untouched iff the node was there.
  have hkey : ∀ parent s₁ d ancestry, Executed P config order block s parent s₁ d →
      s.forkTree.getAncestry block.header.parentSlot = .ok ancestry →
        (Untouched s s₁ ↔ AlreadyThere P block ancestry (forkHashes ancestry s) [] s) ∧
          (Untouched s (commitBlock P block d s₁) ↔ AlreadyThere P block ancestry
            (({ s.bank with slotHashes := forkHashes ancestry s }).recordSlotHash
              block.header.slot block.header.blockHash).slotHashes d.result.accountDeltas s) := by
    intro parent s₁ d ancestry hexec hanc
    obtain ⟨ancestry', clock, hanc', rfl⟩ := enterFork_eq_ok hexec.fork
    obtain rfl := Except.ok.inj (hanc'.symm.trans hanc)
    have hne : ancestry'.toFinset.Nonempty :=
      ⟨_, List.mem_toFinset.mpr (ForkTree.mem_getAncestry_self hanc)⟩
    obtain ⟨cache, hdeltas, ho⟩ := executeBlock_eq_ok hexec.execute
    constructor
    · exact untouched_iff_alreadyThere hne Overlays.nil rfl rfl rfl rfl rfl rfl
    · rw [hdeltas]
      refine untouched_iff_alreadyThere hne ho rfl rfl ?_ rfl rfl rfl
      rw [← hdeltas]
      rfl
  constructor
  · intro h parent s₁ d ancestry hexec hanc
    obtain ⟨hmoved, hwritten⟩ := hkey parent s₁ d ancestry hexec hanc
    refine ⟨fun hmis => hmoved.mp ?_, fun hmis ⟨e, hrefuses⟩ => hwritten.mp ?_⟩
    · obtain ⟨e, he⟩ := ne_none_iff_exists'.mp hmis
      exact h e s₁ (replayBlockFull_eq_err.mpr (.inr ⟨parent, s₁, d, hexec, .inl ⟨he, rfl⟩⟩))
    · exact h (.consensus e) _ (replayBlockFull_eq_err.mpr
        (.inr ⟨parent, s₁, d, hexec, .inr ⟨hmis, e, rfl, hrefuses, rfl⟩⟩))
  · intro h e s' hrun
    obtain ⟨-, -, rfl⟩ | ⟨parent, s₁, d, hexec, hcase⟩ := replayBlockFull_eq_err.mp hrun
    · exact ⟨rfl, rfl, rfl, rfl, rfl, rfl⟩
    · obtain ⟨ancestry, clock, hanc, -⟩ := enterFork_eq_ok hexec.fork
      obtain ⟨hmoved, hwritten⟩ := hkey parent s₁ d ancestry hexec hanc
      obtain ⟨hthere, hthere'⟩ := h parent s₁ d ancestry hexec hanc
      rcases hcase with ⟨hmis, rfl⟩ | ⟨hmis, e', rfl, hrefuses, rfl⟩
      · exact hmoved.mpr (hthere (by simp [hmis]))
      · exact hwritten.mpr (hthere' hmis ⟨e', hrefuses⟩)

end Failed

/-! ### Blocks to replay -/

namespace Sample

variable (P : Platform)

/-- A block with the hashes that the replay checks. -/
def sealBlock (s : ReplayStage) (block : Block) : Option Block := do
  let h := block.header
  let parent ← s.forkTree.getNode h.parentSlot
  let s₁ ← (enterFork P block s).toOption
  let d ← (executeBlock P config id block s₁).toOption
  return { block with header := { h with
    bankHash := ConsensusBank.computeBankHash P parent.bankHash d.result.accountDeltaHash
    merkleRoot := computeMerkleRoot P block.transactions
    blockHash := computeBlockHash P h.parentHash h.slot h.pohHash } }

/-- A stage whose schedule names another leader for slot 1 than `header` does. -/
def scheduled : ReplayStage :=
  { wallets.stage with
    leaderScheduleCache := singleton 0 ⟨0, [repeated 2, repeated 2]⟩ }

end Sample

open Sample in
/-- A payment in a block of the wrong leader is refused, but it is stored, in the index and in the
state tree.  A block that announces a wrong bank hash makes the index forget a payment. -/
theorem failed_replay_leaves_traces :
    (∃ block e s', (replayBlockFull (Platform.sample false) config id block).run scheduled
        = .err e s' ∧ s'.bank.storage.accounts ≠ scheduled.bank.storage.accounts ∧
      s'.bank.storage.accountIndex ≠ scheduled.bank.storage.accountIndex ∧
      s'.bank.stateTree ≠ scheduled.bank.stateTree ∧
      s'.bank.currentSlot ≠ scheduled.bank.currentSlot) ∧
    ∃ p result s, (leaderBlock (Platform.sample false) config id 1 0 [payment]
        wallets.producer).run wallets.stage = .ok (p, result) s ∧
      ∃ block e s', (replayBlockFull (Platform.sample false) config id block).run s = .err e s' ∧
        s'.bank.storage.accountIndex ≠ s.bank.storage.accountIndex := by
  constructor
  · obtain ⟨block, -, h⟩ :
        ∃ block, sealBlock (Platform.sample false) scheduled ⟨header, [payment], []⟩ = some block ∧
        ∃ e s', (replayBlockFull (Platform.sample false) config id block).run scheduled
          = .err e s' ∧
        s'.bank.storage.accounts ≠ scheduled.bank.storage.accounts ∧
        s'.bank.storage.accountIndex ≠ scheduled.bank.storage.accountIndex ∧
        s'.bank.stateTree ≠ scheduled.bank.stateTree ∧
        s'.bank.currentSlot ≠ scheduled.bank.currentSlot := by decide +kernel
    exact ⟨block, h⟩
  · obtain ⟨⟨p, result⟩, s, h, hreplay⟩ :
        ∃ q s, (leaderBlock (Platform.sample false) config id 1 0 [payment]
          wallets.producer).run wallets.stage = .ok q s ∧
        ∃ e s', (replayBlockFull (Platform.sample false) config id
          ⟨{ header with slot := 2, bankHash := repeated 1 }, [], []⟩).run s = .err e s' ∧
        s'.bank.storage.accountIndex ≠ s.bank.storage.accountIndex := by decide +kernel
    exact ⟨p, result, s, h, _, hreplay⟩

/-! ### What an accepted header binds -/

section Accepted

variable (P : Platform) (config : ValidatorConfig) (order : List ℕ → List ℕ) (s : ReplayStage)

/-- A replay accepts the block. -/
def Accepts (block : Block) : Prop :=
  ∃ result s', (replayBlockFull P config order block).run s = .ok result s'

/-- The header is consistent with the chain, given the stage before and after its replay. -/
structure HeaderConsistent (s' : ReplayStage) (h : BlockHeader) : Prop where
  slots : h.parentSlot < h.slot
  parentHash : (s.forkTree.getNode h.parentSlot).map ForkNode.blockHash = some h.parentHash
  stateRoot : h.stateRoot = s'.bank.stateRoot P

/-- Accepted headers are consistent, and binding: accepted blocks whose block hashes are hashes of
the same bytes have the same transactions and the same bank hash. -/
structure HeadersBind : Prop where
  consistent : ∀ block result s', (replayBlockFull P config order block).run s = .ok result s' →
    HeaderConsistent P s s' block.header
  binding : ∀ b b', Accepts P config order s b → Accepts P config order s b' →
    b.header.parentHash = b'.header.parentHash → b.header.slot = b'.header.slot →
      b.header.pohHash = b'.header.pohHash →
        b.transactions = b'.transactions ∧ b.header.bankHash = b'.header.bankHash

variable {P config order s}

/-- A replay does not look at the state root of the header. -/
theorem replayBlockFull_stateRoot (block : Block) (root : Hash) :
    replayBlockFull P config order
        { block with header := { block.header with stateRoot := root } }
      = replayBlockFull P config order block := rfl

/-- **Accepted headers do not bind.**  Wherever a block is accepted, so is one with another state
root: accepted headers are consistent and binding only in a state that accepts no block. -/
theorem headersBind_iff :
    HeadersBind P config order s ↔ ∀ block, ¬ Accepts P config order s block := by
  constructor
  · rintro h block ⟨result, s', hrun⟩
    -- Of two roots, the state has one at most.
    have hroot : ∀ root, root = s'.bank.stateRoot P := fun root =>
      (h.consistent _ result s' ((replayBlockFull_stateRoot block root).symm ▸ hrun)).stateRoot
    have hdiff : Hash.zero ≠ repeated 1 := by decide
    exact hdiff ((hroot _).trans (hroot _).symm)
  · intro h
    exact ⟨fun block result s' hrun => absurd ⟨result, s', hrun⟩ (h block),
      fun b _ hb _ _ _ _ => absurd hb (h b)⟩

end Accepted

namespace Sample

/-- A platform on which a digest is the end of the bytes. -/
def tailPlatform : Platform :=
  { Platform.sample false with
    hash := fun bs => ⟨(bs.reverse ++ List.replicate hashBytes 0).take hashBytes,
      by simp [hashBytes]⟩
    programIds_nodup := by decide }

/-- A header for slot 1 on top of slot 2, with a parent hash and a state root of its own. -/
def loose : BlockHeader :=
  { header with parentSlot := 2, parentHash := repeated 7, stateRoot := repeated 8 }

end Sample

set_option synthInstance.maxSize 1024 in
open Sample in
/-- Once slot 2 is there, two blocks for slot 1 are accepted on top of it.  Their headers have the
same block hash and other transactions and bank hashes; their parent hash is not that of slot 2,
and their state root is not that of the state. -/
theorem loose_headers_are_accepted :
    ∃ first result s, (replayBlockFull tailPlatform config id first).run wallets.stage
        = .ok result s ∧
      ∃ b b' r r' s₁ s₁', (replayBlockFull tailPlatform config id b).run s = .ok r s₁ ∧
        (replayBlockFull tailPlatform config id b').run s = .ok r' s₁' ∧
        b.header.blockHash = b'.header.blockHash ∧ b.header.pohHash = b'.header.pohHash ∧
        b.header.parentHash = b'.header.parentHash ∧ b.header.slot = b'.header.slot ∧
        b.transactions ≠ b'.transactions ∧ b.header.bankHash ≠ b'.header.bankHash ∧
        ¬ b.header.parentSlot < b.header.slot ∧
        (s.forkTree.getNode b.header.parentSlot).map ForkNode.blockHash
          ≠ some b.header.parentHash ∧
        b.header.stateRoot ≠ s₁.bank.stateRoot tailPlatform := by
  obtain ⟨first, -, result, s, h, b, -, b', -, r, s₁, hb, r', s₁', hb', hrun⟩ :
      ∃ first, sealBlock tailPlatform wallets.stage ⟨{ header with slot := 2 }, [], []⟩ = some first
          ∧
      ∃ r s, (replayBlockFull tailPlatform config id first).run wallets.stage = .ok r s ∧
      ∃ b, sealBlock tailPlatform s ⟨loose, [], []⟩ = some b ∧
      ∃ b', sealBlock tailPlatform s ⟨loose, [payment], []⟩ = some b' ∧
      ∃ r s₁, (replayBlockFull tailPlatform config id b).run s = .ok r s₁ ∧
      ∃ r x, (replayBlockFull tailPlatform config id b').run s = .ok r x ∧
      b.header.blockHash = b'.header.blockHash ∧ b.header.pohHash = b'.header.pohHash ∧
      b.header.parentHash = b'.header.parentHash ∧ b.header.slot = b'.header.slot ∧
      b.transactions ≠ b'.transactions ∧ b.header.bankHash ≠ b'.header.bankHash ∧
      ¬ b.header.parentSlot < b.header.slot ∧
      (s.forkTree.getNode b.header.parentSlot).map ForkNode.blockHash ≠ some b.header.parentHash ∧
      b.header.stateRoot ≠ s₁.bank.stateRoot tailPlatform := by decide +kernel
  exact ⟨first, result, s, h, b, b', r, r', s₁, s₁', hb, hb', hrun⟩

end Nusantara
