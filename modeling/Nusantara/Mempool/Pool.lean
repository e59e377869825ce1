import Mathlib.Data.Finmap
import Nusantara.Core.Transaction
import Nusantara.Runtime.ComputeBudget

/-!
# The mempool

Transactions wait for a block in a pool ordered by what they pay for a compute unit, and by arrival
among equals (`mempool/src/pool.rs`).  Beside the pool are the hashes of its transactions, the number
of transactions of each payer, and the keys of the transactions with each blockhash.

The signatures of a transaction are counted here and not verified.

## Main results

* `accepts_iff`: the transactions that a pool with room for them takes.
-/

namespace Nusantara

open Exec

/-- `MempoolError`; the error for an expired transaction is returned nowhere. -/
inductive MempoolError where
  | full (capacity : ℕ)
  | duplicateTransaction
  | accountLimitExceeded (payer : Hash) (limit : ℕ)
  | malformed (reason : String)
  deriving DecidableEq

/-- What the pool takes for granted. -/
inductive MempoolFault where
  /-- `pool non-empty: last_key_value must return Some`. -/
  | emptyPool
  /-- `account_counts invariant: evicted payer must be present`. -/
  | missingPayer
  /-- The count of a payer goes below zero. -/
  | countUnderflow
  deriving DecidableEq

/-- `MempoolKey`. -/
structure MempoolKey where
  priority : UInt64
  sequence : ℕ
  deriving DecidableEq

/-- The order of the keys: the highest priority first, then the first to arrive. -/
def MempoolKey.before (a b : MempoolKey) : Bool :=
  b.priority < a.priority || (a.priority = b.priority && a.sequence < b.sequence)

/-- `MempoolEntry`. -/
structure MempoolEntry where
  transaction : Transaction
  txHash : Hash
  payer : Hash
  deriving DecidableEq

/-- `MempoolInner`.  The pool is listed in the order of its keys; the counter of arrivals does not run
over. -/
structure MempoolInner where
  pool : List (MempoolKey × MempoolEntry)
  dedup : Finset Hash
  accountCounts : Finmap fun _ : Hash => ℕ
  blockhashIndex : Finmap fun _ : Hash => Finset MempoolKey
  sequence : ℕ
  deriving DecidableEq

/-- `MAX_TXS_PER_ACCOUNT`. -/
def maxTxsPerAccount : ℕ := 64

/-- The price of a compute unit; a transaction that asks for none, or in a way that is refused later,
has the lowest. -/
def extractPriority (P : Platform) (tx : Transaction) : UInt64 :=
  match parseComputeBudget P tx.message with
  | .ok budget => budget.computeUnitPrice
  | .error _ => 0

namespace MempoolInner

/-- `MempoolInner::new`. -/
def new : MempoolInner := ⟨[], ∅, ∅, ∅, 0⟩

/-- An insertion into the ordered map. -/
def insertSorted (key : MempoolKey) (entry : MempoolEntry) :
    List (MempoolKey × MempoolEntry) → List (MempoolKey × MempoolEntry)
  | [] => [(key, entry)]
  | q :: rest =>
    if key.before q.1 then (key, entry) :: q :: rest
    else if key = q.1 then (key, entry) :: rest
    else q :: insertSorted key entry rest

/-- A transaction that has left the pool leaves what is kept beside it. -/
def forget (s : MempoolInner) (key : MempoolKey) (entry : MempoolEntry) :
    Except MempoolFault MempoolInner := do
  let blockhash := entry.transaction.message.recentBlockhash
  let accountCounts ← match s.accountCounts.lookup entry.payer with
    | none => .error .missingPayer
    | some 0 => .error .countUnderflow
    | some 1 => .ok (s.accountCounts.erase entry.payer)
    | some (n + 2) => .ok (s.accountCounts.insert entry.payer (n + 1))
  let blockhashIndex := match s.blockhashIndex.lookup blockhash with
    | none => s.blockhashIndex
    | some bucket =>
      if bucket.erase key = ∅ then s.blockhashIndex.erase blockhash
      else s.blockhashIndex.insert blockhash (bucket.erase key)
  return { s with dedup := s.dedup.erase entry.txHash, accountCounts, blockhashIndex }

/-- A transaction enters the pool and what is kept beside it. -/
def add (s : MempoolInner) (priority : UInt64) (entry : MempoolEntry) : MempoolInner :=
  let key : MempoolKey := ⟨priority, s.sequence⟩
  let blockhash := entry.transaction.message.recentBlockhash
  let count := (s.accountCounts.lookup entry.payer).getD 0
  let bucket := (s.blockhashIndex.lookup blockhash).getD ∅
  { pool := insertSorted key entry s.pool
    dedup := insert entry.txHash s.dedup
    accountCounts := s.accountCounts.insert entry.payer (count + 1)
    blockhashIndex := s.blockhashIndex.insert blockhash (insert key bucket)
    sequence := s.sequence + 1 }

end MempoolInner

/-- The check for duplicates and for the limit of a payer. -/
def checkAdmission (txHash payer : Hash) : Exec MempoolFault MempoolInner MempoolError Unit := do
  let s ← get
  require (txHash ∉ s.dedup) .duplicateTransaction
  require ((s.accountCounts.lookup payer).all (· < maxTxsPerAccount))
    (.accountLimitExceeded payer maxTxsPerAccount)

/-- Room for a transaction in a full pool: the last one leaves, if it pays less. -/
def evict (maxCapacity : ℕ) (priority : UInt64) :
    Exec MempoolFault MempoolInner MempoolError Unit := do
  let s ← get
  match s.pool.getLast? with
  | none => abort .emptyPool
  | some (worstKey, worst) =>
    require (worstKey.priority < priority) (.full maxCapacity)
    let s ← ofFault (MempoolInner.forget { s with pool := s.pool.dropLast } worstKey worst)
    set s

namespace Mempool

variable (P : Platform) (maxCapacity : ℕ)

/-- `Mempool::insert`.  Duplicates and the limit of the payer are looked at twice, before and under the
lock for writing. -/
def insert (tx : Transaction) : Exec MempoolFault MempoolInner MempoolError Unit := do
  require (tx.message.accountKeys ≠ []) (.malformed "account_keys is empty; payer missing")
  require (tx.signatures.length = tx.message.numRequiredSignatures.toNat)
    (.malformed "signatures length does not match num_required_signatures")
  let txHash := tx.hash P
  let payer := tx.message.accountKeys.headD Hash.zero
  checkAdmission txHash payer
  let priority := extractPriority P tx
  checkAdmission txHash payer
  let s ← get
  if maxCapacity ≤ s.pool.length then evict maxCapacity priority
  let s ← get
  set (s.add priority ⟨tx, txHash, payer⟩)

/-- A pool takes the transaction, if it is no duplicate, its payer is below the limit and there is
room. -/
def Accepts (tx : Transaction) : Prop :=
  ∀ maxCapacity, ∀ s : MempoolInner, tx.hash P ∉ s.dedup →
    (s.accountCounts.lookup (tx.message.accountKeys.headD Hash.zero)).all (· < maxTxsPerAccount) →
    s.pool.length < maxCapacity → ∃ s', (insert P maxCapacity tx).run s = .ok () s'

variable {P} {tx : Transaction}

/-- **The transactions that a pool with room for them takes**: those with a payer and as many
signatures as they say. -/
theorem accepts_iff :
    Accepts P tx ↔ tx.message.accountKeys ≠ [] ∧
      tx.signatures.length = tx.message.numRequiredSignatures.toNat := by
  constructor
  · intro h
    obtain ⟨s', hs'⟩ := h 1 MempoolInner.new (by simp [MempoolInner.new])
      (by simp [MempoolInner.new]) Nat.one_pos
    simp only [insert, bind_eq_ok, require_eq_ok] at hs'
    obtain ⟨-, -, ⟨hkeys, -⟩, -, -, ⟨hsignatures, -⟩, -⟩ := hs'
    exact ⟨hkeys, hsignatures⟩
  · rintro ⟨hkeys, hsignatures⟩ maxCapacity s hdedup hlimit hroom
    simp only [insert, checkAdmission, run_bind, run_require, if_pos hkeys, if_pos hsignatures,
      if_pos hdedup, if_pos hlimit, run_get, if_neg (Nat.not_le.mpr hroom), run_set]
    exact ⟨_, rfl⟩

end Mempool

end Nusantara
