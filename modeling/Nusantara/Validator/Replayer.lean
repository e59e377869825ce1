import Nusantara.Consensus.Replay

/-!
# Replay with re-execution

`replay_block_full` (`validator/src/{block_replayer,helpers}.rs`).  A received block is executed
again on the state of its parent, and what the header says of the outcome is checked before
anything is written: the hash of the changed accounts, the root over the transactions, and the
block hash.  Then the writes are committed and the block goes through the replay stage.

Signatures are not checked on the way: the executor is told to skip them.

## Main results

* `verifyBlock_eq_ok`: what a block that passes was executed on.
-/

namespace Nusantara

open Borsh Exec

/-- An error of the validator, as far as replay raises it. -/
inductive ValidatorError where
  | consensus (e : ConsensusError)
  | bankHashMismatch (slot : UInt64)
  | merkleRootMismatch (slot : UInt64)
  | blockHashMismatch (slot : UInt64)
  | missingParentBlock (slot parentSlot : UInt64)
  deriving DecidableEq

/-- What a validator is configured with. -/
structure ValidatorConfig where
  feeCalculator : FeeCalculator
  rent : Rent
  deriving DecidableEq

/-! ### Helpers -/

/-- `RECENT_BLOCKHASHES_COUNT`. -/
def recentBlockhashesCount : ℕ := 300

/-- `build_sysvar_cache`. -/
def buildSysvarCache (bank : ConsensusBank) (rent : Rent) : SysvarCache :=
  { clock := bank.clock, rent,
    recentBlockhashes := (bank.slotHashes.take recentBlockhashesCount).map Prod.snd }

/-- `build_merged_slot_hashes`: the hashes of a fork, filled up with stored ones below it. -/
def buildMergedSlotHashes (forkAncestry : List (UInt64 × Hash)) (storage : Storage)
    (maxEntries : ℕ) : List (UInt64 × Hash) :=
  if maxEntries ≤ forkAncestry.length then forkAncestry.take maxEntries
  else
    let backfillBelow := ((forkAncestry.map fun q => q.1.toNat).min?).getD 0
    if backfillBelow = 0 then forkAncestry
    else forkAncestry ++ storage.getRecentSlotHashesBelow (UInt64.ofNat (backfillBelow - 1))
      (maxEntries - forkAncestry.length)

/-- `compute_merkle_root`. -/
def computeMerkleRoot (P : Platform) (transactions : List Transaction) : Hash :=
  if transactions = [] then Hash.zero
  else merkleTreeRoot P (transactions.map (Transaction.hash P))

/-- The hash of a block: `hashv(parent_hash, slot, poh_hash)`. -/
def computeBlockHash (P : Platform) (parentHash : Hash) (slot : UInt64) (pohHash : Hash) : Hash :=
  P.hash (parentHash.asBytes ++ leBytes 8 slot.toNat ++ pohHash.asBytes)

/-- The slots of a fork with the hashes of their blocks, as far as the tree knows them. -/
def ForkTree.slotHashesOf (t : ForkTree) (ancestry : List UInt64) : List (UInt64 × Hash) :=
  ancestry.filterMap fun s => (t.getNode s).map fun n => (s, n.blockHash)

/-! ### Replay -/

section Replay

variable (P : Platform) (config : ValidatorConfig) (order : List ℕ → List ℕ)

/-- Steps 2 to 6 of `replay_block_full`: the bank and the account index are put on the fork of the
parent, and the bank is advanced to the slot of the block. -/
def enterFork (block : Block) (s : ReplayStage) : Except Fault ReplayStage := do
  let h := block.header
  let bank ← s.bank.rollbackToSlot P h.parentSlot
  let ancestry ← s.forkTree.getAncestry h.parentSlot
  let merged := buildMergedSlotHashes (s.forkTree.slotHashesOf ancestry) bank.storage 512
  let bank ← (bank.setSlotHashes merged).advanceSlot P h.slot h.timestamp
  let storage := bank.storage.rewindAccountIndexForAncestry ancestry.toFinset
  return { s with bank := { bank with storage } }

/-- Step 7: the block is executed over the store, which is not written. -/
def executeBlock (block : Block) (s : ReplayStage) : Except Fault DeferredSlotExecution := do
  let (deferred, _) ← executeSlotParallelDeferred P s.bank.storage
    (buildSysvarCache s.bank config.rent) config.feeCalculator block.header.slot
    block.transactions order
  return deferred

/-- Steps 1 to 10 of `replay_block_full`: everything before the first write. -/
def verifyBlock (block : Block) : Exec Fault ReplayStage ValidatorError DeferredSlotExecution := do
  let h := block.header
  let s ← get
  let parent ← ofOption (.missingParentBlock h.slot h.parentSlot) (s.forkTree.getNode h.parentSlot)
  let s ← ofFault (enterFork P block s)
  set s
  let deferred ← ofFault (executeBlock P config order block s)
  require (ConsensusBank.computeBankHash P parent.bankHash deferred.result.accountDeltaHash
    = h.bankHash) (.bankHashMismatch h.slot)
  require (computeMerkleRoot P block.transactions = h.merkleRoot) (.merkleRootMismatch h.slot)
  require (computeBlockHash P h.parentHash h.slot h.pohHash = h.blockHash)
    (.blockHashMismatch h.slot)
  return deferred

/-- Steps 11 to 13: the writes are committed. -/
def commitBlock (block : Block) (deferred : DeferredSlotExecution) (s : ReplayStage) :
    ReplayStage :=
  let bank := { s.bank with storage := s.bank.storage.write deferred.writeBatch }
  let bank := bank.updateStateTree P deferred.result.accountDeltas
  { s with bank := bank.recordSlotHash block.header.slot block.header.blockHash }

/-- The hash the proof of history of a block starts from. -/
def parentPoh (block : Block) (s : ReplayStage) : Hash :=
  ((s.bank.storage.getBlockHeader block.header.parentSlot).map BlockHeader.pohHash).getD Hash.zero

/-- The block goes through the replay stage, without entries of its proof of history. -/
def feedBlock (block : Block) (parentPoh : Hash) :
    Exec Fault ReplayStage ValidatorError ReplayResult :=
  ⟨fun s => match (ReplayStage.replayBlock P block [] parentPoh).run s with
    | .ok result s => .ok result s
    | .err e s => .err (.consensus e) s
    | .fault f => .fault f⟩

/-- `replay_block_full`. -/
def replayBlockFull (block : Block) : Exec Fault ReplayStage ValidatorError ReplayResult := do
  let deferred ← verifyBlock P config order block
  let s ← get
  let s := commitBlock P block deferred s
  set s
  feedBlock P block (parentPoh block s)

end Replay

section Verify

variable {P : Platform} {config : ValidatorConfig} {order : List ℕ → List ℕ} {block : Block}
  {s s' : ReplayStage} {d : DeferredSlotExecution}

/-- **A block that passes the checks** was executed on the state of its parent, with the result
its header announces. -/
theorem verifyBlock_eq_ok (h : (verifyBlock P config order block).run s = .ok d s') :
    enterFork P block s = .ok s' ∧ executeBlock P config order block s' = .ok d := by
  simp only [verifyBlock, bind_eq_ok, ofOption_eq_ok, ofFault_eq_ok, require_eq_ok, run_get,
    run_set, run_pure, Outcome.ok.injEq] at h
  obtain ⟨s₀, _, ⟨rfl, rfl⟩, parent, _, ⟨-, rfl⟩, s₁, _, ⟨hfork, rfl⟩, _, _, ⟨-, rfl⟩, d', _,
    ⟨hexec, rfl⟩, _, _, ⟨-, rfl⟩, _, _, ⟨-, rfl⟩, _, _, ⟨-, rfl⟩, rfl, rfl⟩ := h
  exact ⟨hfork, hexec⟩

end Verify

end Nusantara
