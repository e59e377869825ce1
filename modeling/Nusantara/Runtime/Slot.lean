import Nusantara.Lib.Collections
import Nusantara.Runtime.Footprint

/-!
# Execution of a slot

`SlotCommitter` and the sequential executor (`runtime/src/{slot_commit,batch_executor}.rs`).  The
results of the transactions of a slot are committed one after another: their deltas go into the
write batch, into the hash of the slot, and into the cache through which the transactions that
follow see them.  The store is written once, at the end of the slot.

A slot executes transactions whose signatures others have checked: `skip_sig_verify` is set.

## Main results

* `commitResult_eq_ok`: what a result adds to the writes and to the cache.
-/

namespace Nusantara

open Borsh Exec TransactionContext

/-- `SlotExecutionResult`. -/
structure SlotExecutionResult where
  slot : UInt64
  transactionsExecuted : ℕ
  transactionsSucceeded : ℕ
  transactionsFailed : ℕ
  totalFees : ℕ
  totalComputeConsumed : ℕ
  accountDeltaHash : Hash
  /-- The final state of every account that changed, in the order of the addresses. -/
  accountDeltas : List (Hash × Account)
  txStatuses : List (Hash × String)
  deriving DecidableEq

/-- `SlotCommitter`.  The hasher is the list of the bytes it was fed. -/
structure SlotCommitter where
  transactionsExecuted : ℕ := 0
  transactionsSucceeded : ℕ := 0
  transactionsFailed : ℕ := 0
  totalFees : ℕ := 0
  totalComputeConsumed : ℕ := 0
  deltaHasher : List UInt8 := []
  writeBatch : Storage.WriteBatch := []
  txStatuses : List (Hash × String) := []
  accountCache : AccountCache := ∅
  deriving DecidableEq

namespace TransactionResult

variable (r : TransactionResult)

/-- The record of a status, and its text for subscribers. -/
def statusTexts : TransactionStatus × String :=
  match r.status with
  | .ok () => (.success, "success")
  | .error e =>
    let text := e.toText
    (.failed text, s!"failed: {text}")

/-- The state in which an account was loaded. -/
def loaded? (address : Hash) : Option Account :=
  (r.loadedAccounts.find? fun q => q.1 = address).map Prod.snd

/-- What is recorded about the transaction. -/
def statusMeta (slot : UInt64) : TransactionStatusMeta :=
  { slot, status := r.statusTexts.1, fee := r.fee, preBalances := r.preBalances,
    postBalances := r.postBalances, computeUnitsConsumed := r.computeUnitsConsumed }

/-- The writes of a result, in the order in which they join the batch. -/
def writes (txIdx : ℕ) (slot : UInt64) : Storage.WriteBatch :=
  (r.accountDeltas.flatMap fun q => Storage.accountWrite q.1 slot q.2 (r.loaded? q.1)) ++
    [.putTransaction r.txHash (r.statusMeta slot)] ++
    r.accountDeltas.map fun q => .putAddressSignature q.1 slot (UInt32.ofNat txIdx) r.txHash

end TransactionResult

/-- What one delta feeds the hasher. -/
def deltaBytes (q : Hash × Account) : List UInt8 :=
  q.1.asBytes ++ leBytes 8 q.2.lamports.toNat ++ leBytes 4 q.2.data.length ++ q.2.data ++
    q.2.owner.asBytes ++ [if q.2.executable then 1 else 0] ++ leBytes 8 q.2.rentEpoch.toNat

/-- The cache after some deltas; the last write wins. -/
def AccountCache.insertAll (cache : AccountCache) (deltas : List (Hash × Account)) :
    AccountCache :=
  deltas.foldl (fun c q => c.insert q.1 q.2) cache

namespace SlotCommitter

variable (P : Platform) (c : SlotCommitter)

/-- `SlotCommitter::commit_result`. -/
def commitResult (txIdx : ℕ) (r : TransactionResult) (slot : UInt64) :
    Except Fault SlotCommitter := do
  let executed ← P.wrapAdd 64 c.transactionsExecuted 1
  let fees ← P.wrapAdd 64 c.totalFees r.fee.toNat
  let compute ← P.wrapAdd 64 c.totalComputeConsumed r.computeUnitsConsumed
  let succeeded ← P.wrapAdd 64 c.transactionsSucceeded (if r.status = .ok () then 1 else 0)
  let failed ← P.wrapAdd 64 c.transactionsFailed (if r.status = .ok () then 0 else 1)
  return {
    transactionsExecuted := executed
    transactionsSucceeded := succeeded
    transactionsFailed := failed
    totalFees := fees
    totalComputeConsumed := compute
    deltaHasher := c.deltaHasher ++ r.accountDeltas.flatMap deltaBytes
    writeBatch := c.writeBatch ++ r.writes txIdx slot
    txStatuses := c.txStatuses ++ [(r.txHash, r.statusTexts.2)]
    accountCache := c.accountCache.insertAll r.accountDeltas }

/-- `SlotCommitter::flush_all`. -/
def flushAll (storage : Storage) : Storage := storage.write c.writeBatch

/-- `SlotCommitter::take_write_batch`. -/
def takeWriteBatch : Storage.WriteBatch × SlotCommitter :=
  (c.writeBatch, { c with writeBatch := [] })

/-- `SlotCommitter::finalize`. -/
def finalize (slot : UInt64) : SlotExecutionResult :=
  { slot
    transactionsExecuted := c.transactionsExecuted
    transactionsSucceeded := c.transactionsSucceeded
    transactionsFailed := c.transactionsFailed
    totalFees := c.totalFees
    totalComputeConsumed := c.totalComputeConsumed
    accountDeltaHash := P.hash c.deltaHasher
    accountDeltas := c.accountCache.keys.ascending.filterMap fun a =>
      (c.accountCache.lookup a).map fun account => (a, account)
    txStatuses := c.txStatuses }

end SlotCommitter

section Execute

variable (P : Platform) (storage : Storage) (sysvars : SysvarCache)
  (feeCalculator : FeeCalculator) (slot : UInt64)

/-- A transaction of a slot, executed over the accounts committed so far. -/
def executeOver (tx : Transaction) (cache : AccountCache) : Except Fault TransactionResult :=
  executeTransaction P tx storage sysvars feeCalculator slot (some cache) true

/-- The loop of `execute_slot`, from the transaction number `i` on. -/
def executeSlotFrom : ℕ → List Transaction → SlotCommitter → Except Fault SlotCommitter
  | _, [], c => .ok c
  | i, tx :: rest, c => do
    let r ← executeOver P storage sysvars feeCalculator slot tx c.accountCache
    let c ← c.commitResult P i r slot
    executeSlotFrom (i + 1) rest c

/-- `execute_slot`: the result, and the store after it. -/
def executeSlot (transactions : List Transaction) :
    Except Fault (SlotExecutionResult × Storage) := do
  let c ← executeSlotFrom P storage sysvars feeCalculator slot 0 transactions {}
  return (c.finalize P slot, c.flushAll storage)

end Execute

/-! ### What a result adds -/

section Commit

variable {P : Platform} {storage : Storage} {cache : AccountCache}
  {deltas : List (Hash × Account)} {k : Hash} {c c' : SlotCommitter} {i : ℕ}
  {r : TransactionResult} {slot : UInt64}

theorem lookup_insertAll_of_notMem (h : ∀ q ∈ deltas, q.1 ≠ k) :
    (cache.insertAll deltas).lookup k = cache.lookup k := by
  induction deltas generalizing cache with
  | nil => rfl
  | cons q deltas ih =>
    calc (cache.insertAll (q :: deltas)).lookup k
      _ = (cache.insert q.1 q.2).lookup k := ih fun q' hq' => h q' (by simp [hq'])
      _ = cache.lookup k := Finmap.lookup_insert_of_ne _ (h q (by simp)).symm

theorem loadAccount_insertAll_singleton {a : Account} :
    loadAccount storage (some (cache.insertAll [(k, a)])) k = a := by
  simp [loadAccount, AccountCache.insertAll]

theorem commitResult_eq_ok (h : c.commitResult P i r slot = .ok c') :
    c'.accountCache = c.accountCache.insertAll r.accountDeltas ∧
      c'.writeBatch = c.writeBatch ++ r.writes i slot := by
  simp only [SlotCommitter.commitResult, exceptBind_eq_ok] at h
  obtain ⟨_, -, _, -, _, -, _, -, _, -, h⟩ := h
  cases h
  exact ⟨rfl, rfl⟩

end Commit

end Nusantara
