import Nusantara.Runtime.Scheduler
import Nusantara.Runtime.Slot

/-!
# Parallel execution of a slot

The parallel executors (`runtime/src/parallel_executor.rs`) against the sequential one.  The
transactions of a batch are executed in any order over the accounts as they were **before the
batch**; their results are sorted and committed in the order of the slot.

The two agree where no transaction of a batch reads what an earlier one of the batch has written.
The scheduler sees to that for the accounts a header makes writable.  It does not know that a
transaction that fails writes its fee payer, also a read-only one: a later transaction of the same
batch that names the payer then sees the balance from before the fee.

## Main results

* `executeBatch_of_fresh`: a batch without such a pair does what the sequential loop does.
* `parallelRefines_iff`: the slots in which the parallel executors refine the sequential one.
-/

namespace Nusantara

open Exec TransactionContext List UInt64 Storage Nat

variable (P : Platform) (storage : Storage) (sysvars : SysvarCache)
  (feeCalculator : FeeCalculator) (slot : UInt64) (txs : List Transaction)

section Execute

/-- The task of one transaction of a batch. -/
def runTask (cache : AccountCache) (i : ℕ) : Except Fault TransactionResult := do
  let tx ← indexAt txs i
  executeOver P storage sysvars feeCalculator slot tx cache

/-- The tasks of a batch, in the order in which they are run. -/
def runTasks (cache : AccountCache) : List ℕ → Except Fault (List (ℕ × TransactionResult))
  | [] => .ok []
  | i :: is => do
    let r ← runTask P storage sysvars feeCalculator slot txs cache i
    let rs ← runTasks cache is
    return (i, r) :: rs

/-- Commit results one after another. -/
def commitAll : List (ℕ × TransactionResult) → SlotCommitter → Except Fault SlotCommitter
  | [], c => .ok c
  | (i, r) :: rest, c => do
    let c ← c.commitResult P i r slot
    commitAll rest c

/-- One batch: run the tasks, sort the results by the number of the transaction, commit them.
`order` is the order in which the threads get to the tasks. -/
def executeBatch (order : List ℕ → List ℕ) (batch : List ℕ) (c : SlotCommitter) :
    Except Fault SlotCommitter := do
  let results ← runTasks P storage sysvars feeCalculator slot txs c.accountCache (order batch)
  commitAll P slot (results.insertionSort fun a b => a.1 ≤ b.1) c

/-- The loop over the batches. -/
def executeBatches (order : List ℕ → List ℕ) :
    List (List ℕ) → SlotCommitter → Except Fault SlotCommitter
  | [], c => .ok c
  | batch :: rest, c => do
    let c ← executeBatch P storage sysvars feeCalculator slot txs order batch c
    executeBatches order rest c

/-- Transaction number `i` of the slot is executed, with the result `r`. -/
def Executes (order : List ℕ → List ℕ) (i : ℕ) (r : TransactionResult) : Prop :=
  ∃ done batch rest c, schedule P txs = .ok (done ++ batch :: rest) ∧
    executeBatches P storage sysvars feeCalculator slot txs order done {} = .ok c ∧
      i ∈ batch ∧ runTask P storage sysvars feeCalculator slot txs c.accountCache i = .ok r

/-- The committer at the end of a slot that is executed in parallel. -/
def parallelCommitter (order : List ℕ → List ℕ) : Except Fault SlotCommitter := do
  let batches ← schedule P txs
  executeBatches P storage sysvars feeCalculator slot txs order batches {}

/-- `execute_slot_parallel`: the result, and the store after it. -/
def executeSlotParallel (order : List ℕ → List ℕ) :
    Except Fault (SlotExecutionResult × Storage) := do
  let c ← parallelCommitter P storage sysvars feeCalculator slot txs order
  return (c.finalize P slot, c.flushAll storage)

/-- `DeferredSlotExecution`. -/
structure DeferredSlotExecution where
  result : SlotExecutionResult
  writeBatch : Storage.WriteBatch
  deriving DecidableEq

/-- `execute_slot_parallel_deferred`: the result with the writes, and the store, which is only
read. -/
def executeSlotParallelDeferred (order : List ℕ → List ℕ) :
    Except Fault (DeferredSlotExecution × Storage) := do
  let c ← parallelCommitter P storage sysvars feeCalculator slot txs order
  let (writeBatch, c) := c.takeWriteBatch
  return ({ result := c.finalize P slot, writeBatch }, storage)

end Execute

/-! ### Pieces of a slot -/

section Pieces

/-- The sequential loop over a part of the slot, given by the numbers of its transactions. -/
def executeIndices : List ℕ → SlotCommitter → Except Fault SlotCommitter
  | [], c => .ok c
  | i :: is, c => do
    let r ← runTask P storage sysvars feeCalculator slot txs c.accountCache i
    let c ← c.commitResult P i r slot
    executeIndices is c

variable {P storage sysvars feeCalculator slot txs} {c c' : SlotCommitter} {is js : List ℕ}

theorem executeIndices_append_eq_ok :
    executeIndices P storage sysvars feeCalculator slot txs (is ++ js) c = .ok c' ↔
      ∃ t, executeIndices P storage sysvars feeCalculator slot txs is c = .ok t ∧
        executeIndices P storage sysvars feeCalculator slot txs js t = .ok c' := by
  induction is generalizing c with
  | nil => simp [executeIndices]
  | cons i is ih =>
    simp only [cons_append, executeIndices, exceptBind_eq_ok, ih]
    constructor
    · rintro ⟨r, hr, c₁, hc₁, t, ht, h⟩
      exact ⟨t, ⟨r, hr, c₁, hc₁, ht⟩, h⟩
    · rintro ⟨t, ⟨r, hr, c₁, hc₁, ht⟩, h⟩
      exact ⟨r, hr, c₁, hc₁, t, ht, h⟩

/-- The sequential executor runs the transactions by their numbers. -/
theorem executeSlotFrom_eq_executeIndices {pre mid post : List Transaction}
    (htxs : txs = pre ++ mid ++ post) :
    executeSlotFrom P storage sysvars feeCalculator slot pre.length mid c
      = executeIndices P storage sysvars feeCalculator slot txs
          (range' pre.length mid.length) c := by
  induction mid generalizing pre c with
  | nil => rfl
  | cons tx mid ih =>
    have htask : ∀ cache, runTask P storage sysvars feeCalculator slot txs cache pre.length
        = executeOver P storage sysvars feeCalculator slot tx cache := by
      intro cache
      simp [runTask, indexAt, htxs, bind, Except.bind]
    have hrest : ∀ c, executeSlotFrom P storage sysvars feeCalculator slot (pre.length + 1) mid c
        = executeIndices P storage sysvars feeCalculator slot txs
            (range' (pre.length + 1) mid.length) c := by
      intro c
      have htxs' : txs = pre ++ [tx] ++ mid ++ post := by simp [htxs]
      simpa using ih htxs'
    simp only [executeSlotFrom, length_cons, range'_succ, executeIndices, htask, hrest]

theorem executeSlotFrom_take {i : ℕ} (hi : i ≤ txs.length) :
    executeSlotFrom P storage sysvars feeCalculator slot 0 (txs.take i) c
      = executeIndices P storage sysvars feeCalculator slot txs (range i) c := by
  have htxs : txs = [] ++ txs.take i ++ txs.drop i := by simp
  refine (executeSlotFrom_eq_executeIndices htxs).trans ?_
  rw [length_take, min_eq_left hi, length_nil, ← range_eq_range']

theorem executeSlotFrom_all :
    executeSlotFrom P storage sysvars feeCalculator slot 0 txs c
      = executeIndices P storage sysvars feeCalculator slot txs (range txs.length) c := by
  rw [← executeSlotFrom_take le_rfl, take_length]

/-- What one task of the sequential loop has done. -/
theorem executeIndices_singleton {i : ℕ}
    (h : executeIndices P storage sysvars feeCalculator slot txs [i] c = .ok c') :
    ∃ tx r, txs[i]? = some tx ∧
      executeOver P storage sysvars feeCalculator slot tx c.accountCache = .ok r ∧
      c.commitResult P i r slot = .ok c' := by
  simp only [executeIndices, runTask, exceptBind_eq_ok, indexAt_eq_ok] at h
  obtain ⟨r, ⟨tx, htx, hr⟩, c₁, hc₁, h⟩ := h
  cases h
  exact ⟨tx, r, htx, hr, hc₁⟩

/-- All the numbers before one of a range are the numbers below it. -/
theorem eq_range_of_append {pre post : List ℕ} {i n : ℕ} (h : pre ++ i :: post = range n) :
    pre = range i ∧ i < n := by
  have hlen : pre.length < n := by
    have := congrArg length h
    simp only [length_append, length_cons, length_range] at this
    omega
  have hi : pre.length = i := by
    have := congrArg (·[pre.length]?) h
    simpa [getElem?_append_right, hlen, eq_comm] using this
  subst hi
  refine ⟨?_, hlen⟩
  have := congrArg (take pre.length) h
  rwa [take_left, take_range, min_eq_left hlen.le] at this

end Pieces

/-! ### Stale payers -/

section Stale

/-- In the sequential run, the transaction `i` pays a fee from the read-only account `k`, and
fails. -/
def ChargesReadonly (i : ℕ) (k : Hash) : Prop :=
  ∃ tx c r, txs[i]? = some tx ∧
    executeSlotFrom P storage sysvars feeCalculator slot 0 (txs.take i) {} = .ok c ∧
    executeOver P storage sysvars feeCalculator slot tx c.accountCache = .ok r ∧
    ChargesReadonlyPayer P tx storage feeCalculator (some c.accountCache) r k ∧ r.fee ≠ 0

/-- In the sequential run, the transaction `j` passes the checks before the fee. -/
def IsPrepared (j : ℕ) : Prop :=
  ∃ tx c p, txs[j]? = some tx ∧
    executeSlotFrom P storage sysvars feeCalculator slot 0 (txs.take j) {} = .ok c ∧
    prepare P tx storage (some c.accountCache) true = .ok (.ok p)

/-- The transaction `j` is loaded with an account that paid the fee of the failed transaction `i`
although it was read-only there. -/
def LeavesStalePayer (i j : ℕ) : Prop :=
  ∃ k tx, ChargesReadonly P storage sysvars feeCalculator slot txs i k ∧
    txs[j]? = some tx ∧ k ∈ tx.message.accountKeys ∧
    IsPrepared P storage sysvars feeCalculator slot txs j

/-- What the transactions `is` may have done to the account `k`, if no header of theirs makes it
writable: they have left it alone, or have taken fees from it. -/
structure Drift (is : List ℕ) (k : Hash) (a b : Account) : Prop where
  data_eq : b.data = a.data
  same_or_less :
    (b = a ∧ ∀ i ∈ is, ¬ChargesReadonly P storage sysvars feeCalculator slot txs i k) ∨
      (b.lamports < a.lamports ∧
        ∃ i ∈ is, ChargesReadonly P storage sysvars feeCalculator slot txs i k)

variable {P storage sysvars feeCalculator slot txs} {c t : SlotCommitter} {tx : Transaction}
  {r : TransactionResult} {i j : ℕ} {k : Hash} {is done post : List ℕ}

theorem chargesReadonly_iff (htx : txs[i]? = some tx)
    (ht : executeSlotFrom P storage sysvars feeCalculator slot 0 (txs.take i) {} = .ok t)
    (hr : executeOver P storage sysvars feeCalculator slot tx t.accountCache = .ok r) :
    ChargesReadonly P storage sysvars feeCalculator slot txs i k ↔
      ChargesReadonlyPayer P tx storage feeCalculator (some t.accountCache) r k ∧ r.fee ≠ 0 := by
  constructor
  · rintro ⟨tx', t', r', htx', ht', hr', hcharges⟩
    cases htx.symm.trans htx'
    cases ht.symm.trans ht'
    cases hr.symm.trans hr'
    exact hcharges
  · intro h
    exact ⟨tx, t, r, htx, ht, hr, h⟩

theorem lamports_sub_lt {l fee : UInt64} (hle : fee ≤ l) (hne : fee ≠ 0) : l - fee < l := by
  have hpos : fee.toNat ≠ 0 := fun h0 => hne (UInt64.toNat_inj.mp h0)
  rw [UInt64.le_iff_toNat_le] at hle
  rw [UInt64.lt_iff_toNat_lt, UInt64.toNat_sub_of_le _ _ (UInt64.le_iff_toNat_le.mpr hle)]
  omega

section

variable {a b : Account} (h : Drift P storage sysvars feeCalculator slot txs is k a b)

include h

/-- One more transaction that does not charge the account. -/
theorem Drift.keep (hnot : ¬ChargesReadonly P storage sysvars feeCalculator slot txs i k) :
    Drift P storage sysvars feeCalculator slot txs (is ++ [i]) k a b := by
  refine ⟨h.data_eq, ?_⟩
  rcases h.same_or_less with ⟨hba, hnone⟩ | ⟨hlt, i', hi', hc⟩
  · exact Or.inl ⟨hba, by simpa [or_imp, forall_and] using ⟨hnone, hnot⟩⟩
  · exact Or.inr ⟨hlt, i', by simp [hi'], hc⟩

/-- One more transaction that does not make the account writable. -/
theorem Drift.step (hb : b = loadAccount storage (some t.accountCache) k) (htx : txs[i]? = some tx)
    (ht : executeSlotFrom P storage sysvars feeCalculator slot 0 (txs.take i) {} = .ok t)
    (hr : executeOver P storage sysvars feeCalculator slot tx t.accountCache = .ok r)
    (hk : ¬tx.message.WritableKey P k) :
    Drift P storage sysvars feeCalculator slot txs (is ++ [i]) k a
      (loadAccount storage (some (t.accountCache.insertAll r.accountDeltas)) k) := by
  have hiff := chargesReadonly_iff (k := k) htx ht hr
  by_cases hcharges : ChargesReadonlyPayer P tx storage feeCalculator (some t.accountCache) r k
  · -- the transaction commits the payer less the fee, which may be zero
    rw [hcharges.deltas_eq, chargedPayer, loadAccount_insertAll_singleton, ← hb]
    have hfunded : r.fee ≤ b.lamports := hb ▸ hcharges.funded
    by_cases hfee : r.fee = 0
    · have hsame : b.withLamports (b.lamports - r.fee) = b := by simp [hfee, Account.withLamports]
      rw [hsame]
      exact h.keep fun hc => (hiff.mp hc).2 hfee
    · refine ⟨h.data_eq, Or.inr ⟨?_, i, by simp, hiff.mpr ⟨hcharges, hfee⟩⟩⟩
      have hlt := lamports_sub_lt hfunded hfee
      rcases h.same_or_less with ⟨rfl, -⟩ | ⟨hless, -⟩
      · exact hlt
      · exact lt_trans hlt hless
  · -- the account is not among the deltas
    have hmem : ∀ q ∈ r.accountDeltas, q.1 ≠ k := by
      rintro q hq rfl
      rcases footprint hr with hwritable | ⟨k', hk'⟩
      · exact hk (hwritable q hq)
      · rw [hk'.deltas_eq, mem_singleton] at hq
        exact hcharges (by rw [hq]; exact hk')
    subst hb
    rw [loadAccount, Option.bind_some, lookup_insertAll_of_notMem hmem]
    exact h.keep fun hc => hcharges (hiff.mp hc).1

end

variable (hc : executeIndices P storage sysvars feeCalculator slot txs done {} = .ok c)
  (ht : executeIndices P storage sysvars feeCalculator slot txs is c = .ok t)

include hc ht

/-- The committer that a transaction of a slot starts from, piece by piece. -/
theorem executeSlotFrom_before (hsplit : done ++ is ++ i :: post = range txs.length) :
    executeSlotFrom P storage sysvars feeCalculator slot 0 (txs.take i) {} = .ok t := by
  obtain ⟨hpre, hi⟩ := eq_range_of_append hsplit
  rw [executeSlotFrom_take hi.le, ← hpre, executeIndices_append_eq_ok]
  exact ⟨c, hc, ht⟩

/-- **The drift of an account in a batch**, by induction over the transactions committed since the
batch began. -/
theorem drift (hsplit : done ++ is ++ post = range txs.length)
    (hk : ∀ i ∈ is, ∀ tx, txs[i]? = some tx → ¬tx.message.WritableKey P k) :
    Drift P storage sysvars feeCalculator slot txs is k
      (loadAccount storage (some c.accountCache) k)
      (loadAccount storage (some t.accountCache) k) := by
  induction is using reverseRecOn generalizing post t with
  | nil =>
    cases ht
    exact ⟨rfl, Or.inl ⟨rfl, by simp⟩⟩
  | append_singleton is i ih =>
    obtain ⟨t₀, ht₀, hlast⟩ := executeIndices_append_eq_ok.mp ht
    obtain ⟨tx, r, htx, hr, hcommit⟩ := executeIndices_singleton hlast
    have hsplit' : done ++ is ++ i :: post = range txs.length := by simpa using hsplit
    have hdrift := ih ht₀ hsplit' fun i hi => hk i (by simp [hi])
    rw [(commitResult_eq_ok hcommit).1]
    exact hdrift.step rfl htx (executeSlotFrom_before hc ht₀ hsplit') hr (hk i (by simp) tx htx)

variable {tj : Transaction} (hsplit : done ++ is ++ j :: post = range txs.length)
  (htj : txs[j]? = some tj)
  (hindep : ∀ k ∈ tj.message.accountKeys, ∀ i ∈ is, ∀ tx, txs[i]? = some tx →
    ¬tx.message.WritableKey P k)

include hsplit htj hindep

/-- A transaction of a batch does the same over the accounts before the batch and over those
before it, if no fee payer is stale. -/
theorem executeOver_of_fresh
    (hfresh : ∀ i ∈ is, ¬LeavesStalePayer P storage sysvars feeCalculator slot txs i j) :
    executeOver P storage sysvars feeCalculator slot tj c.accountCache
      = executeOver P storage sysvars feeCalculator slot tj t.accountCache := by
  have hdrift := fun k hk => drift hc ht hsplit (hindep k hk)
  have hbefore := executeSlotFrom_before hc ht hsplit
  obtain ⟨res, hres⟩ : ∃ res, prepare P tj storage (some t.accountCache) true = .ok res :=
    prepare_isOk
  refine executeTransaction_congr ?_
  cases res with
  | error e =>
    rw [hres]
    exact prepare_error_congr (fun k hk => (hdrift k hk).data_eq) hres
  | ok p =>
    refine prepare_congr fun k hk => ?_
    rcases (hdrift k hk).same_or_less with ⟨hsame, -⟩ | ⟨-, i, hi, hcharges⟩
    · exact hsame.symm
    · exact absurd ⟨k, tj, hcharges, htj, hk, tj, t, p, htj, hbefore, hres⟩ (hfresh i hi)

/-- A transaction that is loaded with a stale payer reports another balance. -/
theorem executeOver_of_stale
    (hi : i ∈ is) (hstale : LeavesStalePayer P storage sysvars feeCalculator slot txs i j)
    {r' : TransactionResult}
    (hr : executeOver P storage sysvars feeCalculator slot tj c.accountCache = .ok r)
    (hr' : executeOver P storage sysvars feeCalculator slot tj t.accountCache = .ok r') :
    r.preBalances ≠ r'.preBalances := by
  obtain ⟨k, tj', hcharges, htj', hk, _, t', p', htj'', ht', hp'⟩ := hstale
  cases htj.symm.trans htj'
  cases htj.symm.trans htj''
  cases (executeSlotFrom_before hc ht hsplit).symm.trans ht'
  have hdrift := fun k hk => drift hc ht hsplit (hindep k hk)
  obtain ⟨res, hp⟩ : ∃ res, prepare P tj storage (some c.accountCache) true = .ok res :=
    prepare_isOk
  cases res with
  | error e =>
    have := prepare_error_congr (fun k hk => (hdrift k hk).data_eq.symm) hp
    rw [hp'] at this
    simp at this
  | ok p =>
    intro hsame
    rw [executeTransaction_preBalances hp hr, executeTransaction_preBalances hp' hr',
      prepare_accounts hp, prepare_accounts hp', map_map, map_map] at hsame
    have hlamports := map_inj_left.mp hsame k hk
    simp only [Function.comp_apply] at hlamports
    rcases (hdrift k hk).same_or_less with ⟨-, hnone⟩ | ⟨hlt, -⟩
    · exact hnone i hi hcharges
    · rw [hlamports] at hlt
      exact lt_irrefl _ hlt

end Stale

/-! ### Batches -/

section Batch

variable {P storage sysvars feeCalculator slot txs} {c c' : SlotCommitter} {cache : AccountCache}
  {is b done post : List ℕ} {g : ℕ → TransactionResult} {order : List ℕ → List ℕ}

/-- The transactions `i` and `j` of a batch: the second names no account that the header of the
first makes writable. -/
def Disjoint (P : Platform) (txs : List Transaction) (i j : ℕ) : Prop :=
  ∀ ti tj, txs[i]? = some ti → txs[j]? = some tj →
    ∀ k ∈ tj.message.accountKeys, ¬ti.message.WritableKey P k

variable {batches : List (List ℕ)}

theorem schedule_disjoint (h : schedule P txs = .ok batches)
    (hb : b ∈ batches) : b.Pairwise (Disjoint P txs) := by
  refine (schedule_apart h hb).2.imp fun {i j} hapart ti tj hti htj k hk hw => ?_
  obtain ⟨n, hn, -⟩ := id hw
  exact hapart ⟨ti, tj, hti, htj, k, mem_of_getElem? hn, hk, .inl hw⟩

theorem runTasks_of_forall
    (h : ∀ i ∈ is, runTask P storage sysvars feeCalculator slot txs cache i = .ok (g i)) :
    runTasks P storage sysvars feeCalculator slot txs cache is
      = .ok (is.map fun i => (i, g i)) := by
  induction is with
  | nil => rfl
  | cons i is ih =>
    simp only [runTasks, h i (by simp), ih fun j hj => h j (by simp [hj]), bind, Except.bind, pure,
      Except.pure, map_cons]

theorem forall_of_runTasks {rs : List (ℕ × TransactionResult)}
    (h : runTasks P storage sysvars feeCalculator slot txs cache is = .ok rs) :
    ∀ i ∈ is, ∃ r, runTask P storage sysvars feeCalculator slot txs cache i = .ok r := by
  induction is generalizing rs with
  | nil => simp
  | cons i is ih =>
    simp only [runTasks, exceptBind_eq_ok] at h
    obtain ⟨r, hr, rs', hrs', -⟩ := h
    exact forall_mem_cons.mpr ⟨⟨r, hr⟩, ih hrs'⟩

theorem pairwise_lt_of_range {n : ℕ} (h : done ++ b ++ post = range n) :
    b.Pairwise (· < ·) := by
  have hrange := pairwise_lt_range (n := n)
  rw [← h, append_assoc] at hrange
  exact (pairwise_append.mp (pairwise_append.mp hrange).2.1).1

theorem pairwise_of_forall_split {R : ℕ → ℕ → Prop}
    (h : ∀ pre j rest, b = pre ++ j :: rest → ∀ i ∈ pre, R i j) : b.Pairwise R := by
  induction b using reverseRecOn with
  | nil => exact List.Pairwise.nil
  | append_singleton b j ih =>
    refine pairwise_append.mpr ⟨ih ?_, pairwise_singleton _ _, ?_⟩
    · rintro pre j' rest rfl
      exact h pre j' (rest ++ [j]) (by simp)
    · intro i hi j' hj'
      obtain rfl := mem_singleton.mp hj'
      exact h b j' [] rfl i hi

/-- However the tasks were run, sorting puts their results in the order of the slot. -/
theorem insertionSort_results (horder : (order b).Perm b) (hb : b.Pairwise (· < ·)) :
    ((order b).map fun i => (i, g i)).insertionSort (fun p q => p.1 ≤ q.1)
      = b.map fun i => (i, g i) := by
  have : Std.Total fun p q : ℕ × TransactionResult => p.1 ≤ q.1 := ⟨fun p q => le_total _ _⟩
  have : IsTrans (ℕ × TransactionResult) fun p q => p.1 ≤ q.1 := ⟨fun _ _ _ => le_trans⟩
  refine List.Perm.eq_of_pairwise ?_ (pairwise_insertionSort _ _) ?_ ?_
  · intro p q hp hq hpq hqp
    obtain ⟨i, -, rfl⟩ := mem_map.mp (mem_insertionSort _ |>.mp hp)
    obtain ⟨j, -, rfl⟩ := mem_map.mp hq
    obtain rfl : i = j := le_antisymm hpq hqp
    rfl
  · exact pairwise_map.mpr (hb.imp le_of_lt)
  · exact (perm_insertionSort _ _).trans (horder.map _)

theorem executeBatch_eq (horder : (order b).Perm b) (hb : b.Pairwise (· < ·))
    (hg : ∀ i ∈ b, runTask P storage sysvars feeCalculator slot txs c.accountCache i
      = .ok (g i)) :
    executeBatch P storage sysvars feeCalculator slot txs order b c
      = commitAll P slot (b.map fun i => (i, g i)) c := by
  have htasks := runTasks_of_forall fun i hi => hg i (horder.mem_iff.mp hi)
  rw [executeBatch, htasks]
  change commitAll P slot (insertionSort _ _) c = _
  rw [insertionSort_results horder hb]

/-- The sequential loop commits the results of its tasks. -/
theorem commitAll_of_executeIndices
    (h : executeIndices P storage sysvars feeCalculator slot txs is c = .ok c')
    (hg : ∀ pre i rest t, is = pre ++ i :: rest →
      executeIndices P storage sysvars feeCalculator slot txs pre c = .ok t →
      runTask P storage sysvars feeCalculator slot txs t.accountCache i = .ok (g i)) :
    commitAll P slot (is.map fun i => (i, g i)) c = .ok c' := by
  induction is generalizing c with
  | nil => exact h
  | cons i is ih =>
    simp only [executeIndices, exceptBind_eq_ok] at h
    obtain ⟨r, hr, c₁, hc₁, h⟩ := h
    cases hr.symm.trans (hg [] i is c rfl rfl)
    refine exceptBind_eq_ok.mpr ⟨c₁, hc₁, ih h fun pre j rest t hsplit ht => ?_⟩
    refine hg (i :: pre) j rest t (by rw [hsplit]; rfl) ?_
    exact exceptBind_eq_ok.mpr ⟨_, hr, exceptBind_eq_ok.mpr ⟨c₁, hc₁, ht⟩⟩

/-- A position of a part of the slot that was executed. -/
theorem executeIndices_split {pre rest : List ℕ} {i : ℕ}
    (h : executeIndices P storage sysvars feeCalculator slot txs (pre ++ i :: rest) c = .ok c') :
    ∃ t t' tx r, executeIndices P storage sysvars feeCalculator slot txs pre c = .ok t ∧
      txs[i]? = some tx ∧
      executeOver P storage sysvars feeCalculator slot tx t.accountCache = .ok r ∧
      t.commitResult P i r slot = .ok t' ∧
      executeIndices P storage sysvars feeCalculator slot txs rest t' = .ok c' := by
  obtain ⟨t, ht, h⟩ := executeIndices_append_eq_ok.mp h
  rw [← singleton_append] at h
  obtain ⟨t', ht', h⟩ := executeIndices_append_eq_ok.mp h
  obtain ⟨tx, r, htx, hr, hcommit⟩ := executeIndices_singleton ht'
  exact ⟨t, t', tx, r, ht, htx, hr, hcommit, h⟩

theorem runTask_eq {tx : Transaction} {i : ℕ} (htx : txs[i]? = some tx) :
    runTask P storage sysvars feeCalculator slot txs cache i
      = executeOver P storage sysvars feeCalculator slot tx cache := by
  simp [runTask, indexAt, htx, bind, Except.bind]

/-! ### The records tell the results apart -/

/-- The records of transactions among some writes. -/
def transactionRecords (batch : Storage.WriteBatch) : List (Hash × TransactionStatusMeta) :=
  batch.filterMap fun
    | .putTransaction txHash info => some (txHash, info)
    | _ => none

theorem transactionRecords_writes {r : TransactionResult} {i : ℕ} :
    transactionRecords (r.writes i slot) = [(r.txHash, r.statusMeta slot)] := by
  have hsig : transactionRecords (r.accountDeltas.map fun q =>
      .putAddressSignature q.1 slot (UInt32.ofNat i) r.txHash) = [] := by
    simp [transactionRecords]
  have hwrite : ∀ (q : Hash × Account) old,
      transactionRecords (accountWrite q.1 slot q.2 old) = [] := by
    intro q old
    unfold accountWrite indexUpdates
    split_ifs
    · rfl
    · cases old <;> rfl
  have hdeltas : transactionRecords (r.accountDeltas.flatMap fun q =>
      accountWrite q.1 slot q.2 (r.loaded? q.1)) = [] := by
    induction r.accountDeltas with
    | nil => rfl
    | cons q deltas ih =>
      rw [flatMap_cons, transactionRecords, filterMap_append]
      exact append_eq_nil_iff.mpr ⟨hwrite q _, ih⟩
  simp only [TransactionResult.writes, transactionRecords, filterMap_append] at hsig hdeltas ⊢
  rw [hsig, hdeltas]
  rfl

theorem transactionRecords_commitResult {r : TransactionResult} {i : ℕ}
    (h : c.commitResult P i r slot = .ok c') :
    transactionRecords c'.writeBatch
      = transactionRecords c.writeBatch ++ [(r.txHash, r.statusMeta slot)] := by
  rw [(commitResult_eq_ok h).2, ← transactionRecords_writes]
  exact filterMap_append

theorem transactionRecords_commitAll {rs : List (ℕ × TransactionResult)}
    (h : commitAll P slot rs c = .ok c') :
    transactionRecords c'.writeBatch = transactionRecords c.writeBatch ++
      rs.map fun q => (q.2.txHash, q.2.statusMeta slot) := by
  induction rs generalizing c with
  | nil =>
    cases h
    simp
  | cons q rs ih =>
    obtain ⟨c₁, hc₁, h⟩ := exceptBind_eq_ok.mp h
    rw [ih h, transactionRecords_commitResult hc₁]
    simp

theorem transactionRecords_executeIndices
    (h : executeIndices P storage sysvars feeCalculator slot txs is c = .ok c') :
    ∃ l, transactionRecords c'.writeBatch = transactionRecords c.writeBatch ++ l ∧
      l.length = is.length := by
  induction is generalizing c with
  | nil =>
    cases h
    exact ⟨[], by simp, rfl⟩
  | cons i is ih =>
    simp only [executeIndices, exceptBind_eq_ok] at h
    obtain ⟨r, -, c₁, hc₁, h⟩ := h
    obtain ⟨l, hl, hlen⟩ := ih h
    refine ⟨(r.txHash, r.statusMeta slot) :: l, ?_, by simp [hlen]⟩
    rw [hl, transactionRecords_commitResult hc₁]
    simp

theorem transactionRecords_executeBatches
    (h : executeBatches P storage sysvars feeCalculator slot txs order batches c = .ok c') :
    ∃ l, transactionRecords c'.writeBatch = transactionRecords c.writeBatch ++ l := by
  induction batches generalizing c with
  | nil =>
    cases h
    exact ⟨[], by simp⟩
  | cons b batches ih =>
    simp only [executeBatches, executeBatch, exceptBind_eq_ok] at h
    obtain ⟨c₁, ⟨rs, -, hc₁⟩, h⟩ := h
    obtain ⟨l, hl⟩ := ih h
    exact ⟨_, by rw [hl, transactionRecords_commitAll hc₁, append_assoc]⟩

variable (hsplit : done ++ b ++ post = range txs.length)
  (hc : executeIndices P storage sysvars feeCalculator slot txs done {} = .ok c)
  (hseq : executeIndices P storage sysvars feeCalculator slot txs b c = .ok c')
  (hdisjoint : b.Pairwise (Disjoint P txs)) (horder : (order b).Perm b)

include hsplit hc hseq hdisjoint horder

/-- **A batch without a stale payer** does what the sequential loop does. -/
theorem executeBatch_of_fresh (hfresh : b.Pairwise fun i j =>
      ¬LeavesStalePayer P storage sysvars feeCalculator slot txs i j) :
    executeBatch P storage sysvars feeCalculator slot txs order b c = .ok c' := by
  -- every task returns the same over both caches
  have hsame : ∀ pre i rest t, b = pre ++ i :: rest →
      executeIndices P storage sysvars feeCalculator slot txs pre c = .ok t →
      ∃ r, runTask P storage sysvars feeCalculator slot txs c.accountCache i = .ok r ∧
        runTask P storage sysvars feeCalculator slot txs t.accountCache i = .ok r := by
    rintro pre i rest t rfl ht
    obtain ⟨t', -, tx, r, ht', htx, hr, -, -⟩ := executeIndices_split hseq
    cases ht.symm.trans ht'
    have hsplit' : done ++ pre ++ i :: (rest ++ post) = range txs.length := by
      simpa using hsplit
    obtain ⟨-, -, hcross⟩ := pairwise_append.mp hdisjoint
    obtain ⟨-, -, hcross'⟩ := pairwise_append.mp hfresh
    have heq := executeOver_of_fresh hc ht hsplit' htx
      (fun k hk j hj tj htj => hcross j hj i (by simp) tj tx htj htx k hk)
      (fun j hj => hcross' j hj i (by simp))
    exact ⟨r, by rw [runTask_eq htx, heq, hr], by rw [runTask_eq htx, hr]⟩
  have hex : ∀ i ∈ b, ∃ r,
      runTask P storage sysvars feeCalculator slot txs c.accountCache i = .ok r := by
    intro i hi
    obtain ⟨pre, rest, rfl⟩ := append_of_mem hi
    obtain ⟨t, -, -, -, ht, -⟩ := executeIndices_split hseq
    obtain ⟨r, hr, -⟩ := hsame pre i rest t rfl ht
    exact ⟨r, hr⟩
  choose! g hg using hex
  have hsorted := pairwise_lt_of_range hsplit
  rw [executeBatch_eq horder hsorted hg]
  refine commitAll_of_executeIndices hseq fun pre i rest t hb ht => ?_
  obtain ⟨r, hr, hr'⟩ := hsame pre i rest t hb ht
  rw [hr', ← hr, hg i (by simp [hb])]

/-- Where a batch, and what follows it, leaves the same records as the sequential loop, no payer
was stale. -/
theorem fresh_of_transactionRecords {cp cp' cs' : SlotCommitter}
    (hseq' : executeIndices P storage sysvars feeCalculator slot txs post c' = .ok cs')
    (hpar : executeBatch P storage sysvars feeCalculator slot txs order b c = .ok cp)
    (hpar' : executeBatches P storage sysvars feeCalculator slot txs order batches cp = .ok cp')
    (hrecords : transactionRecords cp'.writeBatch = transactionRecords cs'.writeBatch) :
    b.Pairwise fun i j => ¬LeavesStalePayer P storage sysvars feeCalculator slot txs i j := by
  have hsorted := pairwise_lt_of_range hsplit
  have hex : ∀ i ∈ b, ∃ r,
      runTask P storage sysvars feeCalculator slot txs c.accountCache i = .ok r := by
    intro i hi
    obtain ⟨rs, hrs, -⟩ := exceptBind_eq_ok.mp hpar
    exact forall_of_runTasks hrs i (horder.mem_iff.mpr hi)
  choose! g hg using hex
  rw [executeBatch_eq horder hsorted hg] at hpar
  refine pairwise_of_forall_split ?_
  rintro pre j rest rfl i hi hstale
  obtain ⟨t, t', tx, r, ht, htx, hr, hcommit, hrest⟩ := executeIndices_split hseq
  have hsplit' : done ++ pre ++ j :: (rest ++ post) = range txs.length := by
    simpa using hsplit
  have hgj := hg j (by simp)
  rw [runTask_eq htx] at hgj
  have hcross := (pairwise_append.mp hdisjoint).2.2
  refine executeOver_of_stale hc ht hsplit' htx
    (fun k hk i hi ti hti => hcross i hi j (by simp) ti tx hti htx k hk) hi hstale hgj hr ?_
  -- both runs have a record for `j` at the same position
  obtain ⟨l, hl, hlen⟩ := transactionRecords_executeIndices ht
  obtain ⟨l₁, hl₁, -⟩ := transactionRecords_executeIndices hrest
  obtain ⟨l₂, hl₂, -⟩ := transactionRecords_executeIndices hseq'
  obtain ⟨l₃, hl₃⟩ := transactionRecords_executeBatches hpar'
  rw [hl₃, transactionRecords_commitAll hpar, hl₂, hl₁, transactionRecords_commitResult hcommit,
    hl] at hrecords
  simp only [append_assoc, map_append, map_cons, cons_append,
    append_cancel_left_eq, nil_append] at hrecords
  obtain ⟨-, htail⟩ := append_inj hrecords (by simp [hlen])
  have hmeta := congrArg Prod.snd (cons.inj htail).1
  exact congrArg TransactionStatusMeta.preBalances hmeta

end Batch

/-! ### Refinement -/

section Refinement

/-- Where the sequential executor returns, both parallel ones return the same result, whatever the
order of the tasks; the first leaves the same store, and the second defers the same writes. -/
def ParallelRefines : Prop :=
  ∀ c, executeSlotFrom P storage sysvars feeCalculator slot 0 txs {} = .ok c →
    ∀ order : List ℕ → List ℕ, (∀ b, (order b).Perm b) →
      executeSlotParallel P storage sysvars feeCalculator slot txs order
          = executeSlot P storage sysvars feeCalculator slot txs ∧
        executeSlotParallelDeferred P storage sysvars feeCalculator slot txs order
          = .ok ({ result := c.finalize P slot, writeBatch := c.writeBatch }, storage)

/-- No batch has a transaction that is loaded with a payer that an earlier one left stale. -/
def NoStalePayer : Prop :=
  ∀ batches, schedule P txs = .ok batches → ∀ b ∈ batches,
    b.Pairwise fun i j => ¬LeavesStalePayer P storage sysvars feeCalculator slot txs i j

variable {P storage sysvars feeCalculator slot txs} {c c' : SlotCommitter} {done : List ℕ}
  {batches : List (List ℕ)} {order : List ℕ → List ℕ}

section

variable (horder : ∀ b, (order b).Perm b) (hsplit : done ++ batches.flatten = range txs.length)
  (hc : executeIndices P storage sysvars feeCalculator slot txs done {} = .ok c)
  (hseq : executeIndices P storage sysvars feeCalculator slot txs batches.flatten c = .ok c')

include horder hsplit hc hseq

/-- Batches without a stale payer, one after another. -/
theorem executeBatches_of_fresh (hdisjoint : ∀ b ∈ batches, b.Pairwise (Disjoint P txs))
    (hfresh : ∀ b ∈ batches, b.Pairwise fun i j =>
      ¬LeavesStalePayer P storage sysvars feeCalculator slot txs i j) :
    executeBatches P storage sysvars feeCalculator slot txs order batches c = .ok c' := by
  induction batches generalizing done c with
  | nil => exact hseq
  | cons b batches ih =>
    rw [flatten_cons, ← append_assoc] at hsplit
    rw [flatten_cons] at hseq
    obtain ⟨t, ht, hseq⟩ := executeIndices_append_eq_ok.mp hseq
    have hb := executeBatch_of_fresh hsplit hc ht (hdisjoint b (by simp)) (horder b)
      (hfresh b (by simp))
    refine exceptBind_eq_ok.mpr ⟨t, hb, ih hsplit ?_ hseq ?_ ?_⟩
    · exact executeIndices_append_eq_ok.mpr ⟨c, hc, ht⟩
    · exact fun b' hb' => hdisjoint b' (by simp [hb'])
    · exact fun b' hb' => hfresh b' (by simp [hb'])

/-- Batches that leave the records of the sequential loop had no stale payer. -/
theorem fresh_of_executeBatches {cp : SlotCommitter}
    (hpar : executeBatches P storage sysvars feeCalculator slot txs order batches c = .ok cp)
    (hdisjoint : ∀ b ∈ batches, b.Pairwise (Disjoint P txs))
    (hrecords : transactionRecords cp.writeBatch = transactionRecords c'.writeBatch) :
    ∀ b ∈ batches, b.Pairwise fun i j =>
      ¬LeavesStalePayer P storage sysvars feeCalculator slot txs i j := by
  induction batches generalizing done c with
  | nil => simp
  | cons b batches ih =>
    rw [flatten_cons, ← append_assoc] at hsplit
    rw [flatten_cons] at hseq
    obtain ⟨t, ht, hseq⟩ := executeIndices_append_eq_ok.mp hseq
    obtain ⟨t', ht', hpar⟩ := exceptBind_eq_ok.mp hpar
    have hb := hdisjoint b (by simp)
    have hfresh := fresh_of_transactionRecords hsplit hc ht hb (horder b) hseq ht' hpar hrecords
    -- so the batch ended where the sequential loop did, and the rest follows by induction
    obtain rfl : t = t' := by
      rw [executeBatch_of_fresh hsplit hc ht hb (horder b) hfresh] at ht'
      exact Except.ok.inj ht'
    have hrest := ih hsplit (executeIndices_append_eq_ok.mpr ⟨c, hc, ht⟩) hseq hpar
      fun b' hb' => hdisjoint b' (by simp [hb'])
    exact forall_mem_cons.mpr ⟨hfresh, hrest⟩

end

/-- **Parallel execution refines sequential execution** exactly if, in the slots that the
sequential executor gets through, the scheduler does not stop at a header and no batch has a stale
payer. -/
theorem parallelRefines_iff :
    ParallelRefines P storage sysvars feeCalculator slot txs ↔
      ∀ c, executeSlotFrom P storage sysvars feeCalculator slot 0 txs {} = .ok c →
        (P.overflowChecks = true → ∀ tx ∈ txs, tx.message.HeaderFits) ∧
          NoStalePayer P storage sysvars feeCalculator slot txs := by
  refine forall₂_congr fun c hc => ?_
  have hslot : executeSlot P storage sysvars feeCalculator slot txs
      = .ok (c.finalize P slot, c.flushAll storage) := by
    rw [executeSlot, hc]
    rfl
  have hseq := hc
  rw [executeSlotFrom_all] at hseq
  constructor
  · intro h
    obtain ⟨-, hdeferred⟩ := h id fun b => List.Perm.refl b
    obtain ⟨cp, hcp, hdeferred⟩ := exceptBind_eq_ok.mp hdeferred
    obtain ⟨batches, hbatches, hpar⟩ := exceptBind_eq_ok.mp hcp
    have hwrites : cp.writeBatch = c.writeBatch := by
      have := congrArg (fun d => d.1.writeBatch) (Except.ok.inj hdeferred)
      exact this
    refine ⟨schedule_isOk_iff.mp ⟨batches, hbatches⟩, fun batches' hbatches' => ?_⟩
    cases hbatches.symm.trans hbatches'
    have hflatten := schedule_flatten hbatches
    rw [← hflatten] at hseq
    have hsplit : [] ++ batches.flatten = range txs.length := hflatten
    exact fresh_of_executeBatches (fun b => List.Perm.refl b) hsplit rfl hseq hpar
      (fun b hb => schedule_disjoint hbatches hb) (by rw [hwrites])
  · rintro ⟨hfits, hfresh⟩ order horder
    obtain ⟨batches, hbatches⟩ := schedule_isOk_iff.mpr hfits
    have hflatten := schedule_flatten hbatches
    rw [← hflatten] at hseq
    have hsplit : [] ++ batches.flatten = range txs.length := hflatten
    have hpar : parallelCommitter P storage sysvars feeCalculator slot txs order = .ok c := by
      refine exceptBind_eq_ok.mpr ⟨batches, hbatches, ?_⟩
      exact executeBatches_of_fresh horder hsplit rfl hseq
        (fun b hb => schedule_disjoint hbatches hb) (hfresh batches hbatches)
    rw [hslot, executeSlotParallel, executeSlotParallelDeferred, hpar]
    exact ⟨rfl, rfl⟩

/-- A transfer from a wallet that signs, but that the header declares read-only: the fee is taken
and the transfer fails. -/
def readonlyPayer (lamports : UInt64) : Transaction :=
  { signatures := [], signerPubkeys := [],
    message :=
      { numRequiredSignatures := 1, numReadonlySigned := 1, numReadonlyUnsigned := 1,
        accountKeys := [Hash.repeated 9, Sample.program .system],
        recentBlockhash := Hash.zero,
        instructions := [Sample.transfer 1 0 0 lamports] } }

/-- Two such transactions share a batch, and the parallel executor takes one fee for both. -/
theorem readonlyPayer_pays_once :
    ¬ParallelRefines (Platform.sample false)
      (Sample.store [(Hash.repeated 9, Sample.wallet 50000)]) (Sample.sysvars 1) Sample.fees 1
      [readonlyPayer 1, readonlyPayer 2] := by
  intro h
  cases hc : executeSlotFrom .release
      (Sample.store [(Hash.repeated 9, Sample.wallet 50000)]) (Sample.sysvars 1) Sample.fees 1 0
      [readonlyPayer 1, readonlyPayer 2] {} with
  | error f =>
    have hreturns : (executeSlotFrom .release
        (Sample.store [(Hash.repeated 9, Sample.wallet 50000)]) (Sample.sysvars 1) Sample.fees 1 0
        [readonlyPayer 1, readonlyPayer 2] {}).toOption.isSome = true := by decide +kernel
    simp [hc, Except.toOption] at hreturns
  | ok c =>
    have hsame := congrArg
      (Except.map fun r : SlotExecutionResult × Storage =>
        r.1.accountDeltas.map fun q => q.2.lamports)
      (h c hc id fun b => List.Perm.refl b).1
    exact absurd hsame (by decide +kernel)

end Refinement

end Nusantara
