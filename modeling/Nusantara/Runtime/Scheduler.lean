import Mathlib.Data.List.Chain
import Nusantara.Core.Transaction
import Nusantara.Lib.Exec

/-!
# The scheduler

Transactions are grouped into batches that may run in parallel (`runtime/src/scheduler.rs`).  A
transaction joins the current batch unless it writes an account the batch has touched or touches
an account the batch writes; otherwise it starts the next batch.

## Main results

* `schedule_flatten`: the batches, one after another, are the transactions in their order.
* `schedule_apart`, `schedule_chain`: within a batch no two transactions conflict, and the first of
  every later batch conflicts with the batch before it.
* `schedule_isOk_iff`: which headers stop the scheduler.
-/

namespace Nusantara

open Exec List Nat

/-- The accounts a transaction reads and writes. -/
structure AccessSet where
  writable : List Hash
  readable : List Hash
  deriving DecidableEq

section Access

variable (P : Platform) (m : Message)

/-- The loop of `extract_access_set`, from position `i` on. -/
def accessFrom : ℕ → List Hash → Except Fault AccessSet
  | _, [] => .ok { writable := [], readable := [] }
  | i, key :: rest => do
    let isWritable ← m.isWritable P i
    let access ← accessFrom (i + 1) rest
    return if isWritable then { access with writable := key :: access.writable }
      else { access with readable := key :: access.readable }

/-- `TransactionScheduler::extract_access_set`. -/
def extractAccessSet (tx : Transaction) : Except Fault AccessSet :=
  accessFrom P tx.message 0 tx.message.accountKeys

variable {P m}

section

variable {i : ℕ} {keys : List Hash}

section

variable {access : AccessSet} (h : accessFrom P m i keys = .ok access) {key : Hash}

include h

theorem accessFrom_mem :
    key ∈ keys ↔ key ∈ access.writable ∨ key ∈ access.readable := by
  induction keys generalizing i access with
  | nil =>
    cases h
    simp
  | cons k keys ih =>
    simp only [accessFrom, exceptBind_eq_ok] at h
    obtain ⟨w, -, rest, hrest, h⟩ := h
    cases h
    rw [mem_cons, ih hrest]
    cases w <;> simp <;> tauto

theorem accessFrom_writable :
    key ∈ access.writable ↔ ∃ j, keys[j]? = some key ∧ m.isWritable P (i + j) = .ok true := by
  induction keys generalizing i access with
  | nil =>
    cases h
    simp
  | cons k keys ih =>
    simp only [accessFrom, exceptBind_eq_ok] at h
    obtain ⟨w, hi, rest, hrest, h⟩ := h
    cases h
    have hmem : key ∈ rest.writable ↔
        ∃ j, (k :: keys)[j + 1]? = some key ∧ m.isWritable P (i + (j + 1)) = .ok true := by
      simp only [ih hrest, getElem?_cons_succ, add_assoc, add_comm 1]
    rw [← or_exists_add_one, ← hmem, add_zero, hi]
    cases w <;> simp [eq_comm]

end

theorem accessFrom_isOk_iff :
    (∃ access, accessFrom P m i keys = .ok access) ↔
      ∀ j < keys.length, ∃ w, m.isWritable P (i + j) = .ok w := by
  induction keys generalizing i with
  | nil => simp [accessFrom]
  | cons k keys ih =>
    have hshift {j : ℕ} : i + 1 + j = i + (j + 1) := by omega
    constructor
    · rintro ⟨access, h⟩ j hj
      simp only [accessFrom, exceptBind_eq_ok] at h
      obtain ⟨w, hw, rest, hrest, -⟩ := h
      cases j with
      | zero => exact ⟨w, hw⟩
      | succ j =>
        rw [← hshift]
        exact ih.mp ⟨rest, hrest⟩ j (by simpa using hj)
    · intro h
      obtain ⟨w, hw⟩ := h 0 (by simp)
      obtain ⟨rest, hrest⟩ := (ih (i := i + 1)).mpr fun j hj => by
        rw [hshift]
        exact h (j + 1) (by simpa using hj)
      exact ⟨_, exceptBind_eq_ok.mpr ⟨w, hw, exceptBind_eq_ok.mpr ⟨rest, hrest, rfl⟩⟩⟩

theorem accessFrom_eq_error {f : Fault}
    (h : accessFrom P m i keys = .error f) : f = .writableUnderflow := by
  induction keys generalizing i with
  | nil => simp [accessFrom] at h
  | cons k keys ih =>
    simp only [accessFrom, exceptBind_eq_error] at h
    rcases h with h | ⟨w, -, h | ⟨rest, -, h⟩⟩
    · exact (Message.isWritable_eq_error.mp h).2.1
    · exact ih h
    · simp [pure, Except.pure] at h

end

/-- The accounts of a transaction can be sorted out unless its header overcounts them. -/
theorem extractAccessSet_isOk_iff {tx : Transaction} :
    (∃ access, extractAccessSet P tx = .ok access) ↔
      (P.overflowChecks = true → tx.message.HeaderFits) := by
  rw [extractAccessSet, accessFrom_isOk_iff]
  simp only [zero_add]
  constructor
  · intro h hP
    rw [Message.headerFits_iff hP]
    intro i f hf
    obtain ⟨-, -, hi, -⟩ := Message.isWritable_eq_error.mp hf
    obtain ⟨w, hw⟩ := h i hi
    simp [hw] at hf
  · intro h j hj
    cases hw : tx.message.isWritable P j with
    | ok w => exact ⟨w, rfl⟩
    | error f =>
      have hP := (Message.isWritable_eq_error.mp hw).1
      exact absurd hw ((Message.headerFits_iff hP).mp (h hP) j f)

section

variable {tx : Transaction} {access : AccessSet} {key : Hash}
  (h : extractAccessSet P tx = .ok access)

include h

theorem mem_accountKeys :
    key ∈ tx.message.accountKeys ↔ key ∈ access.writable ∨ key ∈ access.readable :=
  accessFrom_mem h

/-- The writable set has the accounts that the header makes writable. -/
theorem mem_writable : key ∈ access.writable ↔ tx.message.WritableKey P key := by
  simpa [Message.WritableKey] using accessFrom_writable h

end

end Access

/-! ### Batches -/

/-- The state of the loop of `schedule`. -/
structure ScheduleState where
  batches : List (List ℕ) := []
  currentBatch : List ℕ := []
  writeLocked : List Hash := []
  readLocked : List Hash := []
  deriving DecidableEq

namespace ScheduleState

variable (st : ScheduleState)

/-- Whether a transaction conflicts with the current batch. -/
def conflicts (access : AccessSet) : Bool :=
  (access.writable.any fun a => a ∈ st.writeLocked || a ∈ st.readLocked) ||
    access.readable.any fun a => a ∈ st.writeLocked

/-- Close the current batch. -/
def flush : ScheduleState := { batches := st.batches ++ [st.currentBatch] }

/-- Add a transaction to the current batch. -/
def push (i : ℕ) (access : AccessSet) : ScheduleState :=
  { st with
    currentBatch := st.currentBatch ++ [i]
    writeLocked := st.writeLocked ++ access.writable
    readLocked := st.readLocked ++ access.readable }

/-- One turn of the loop. -/
def place (i : ℕ) (access : AccessSet) : ScheduleState :=
  if st.conflicts access then st.flush.push i access else st.push i access

end ScheduleState

section Schedule

variable (P : Platform)

/-- The loop of `schedule`, from the transaction number `i` on. -/
def scheduleFrom : ℕ → List Transaction → ScheduleState → Except Fault ScheduleState
  | _, [], st => .ok st
  | i, tx :: rest, st => do
    let access ← extractAccessSet P tx
    scheduleFrom (i + 1) rest (st.place i access)

/-- The last batch is closed if it is not empty. -/
def ScheduleState.finish (st : ScheduleState) : List (List ℕ) :=
  if st.currentBatch = [] then st.batches else st.batches ++ [st.currentBatch]

/-- `TransactionScheduler::schedule`: the batches, as positions in the list. -/
def schedule (transactions : List Transaction) : Except Fault (List (List ℕ)) :=
  (scheduleFrom P 0 transactions {}).map ScheduleState.finish

end Schedule

/-! ### What the batches have in common -/

section Results

variable (P : Platform) (txs : List Transaction)

/-- One of two transactions may write an account that both name. -/
def Conflict (t t' : Transaction) : Prop :=
  ∃ key ∈ t.message.accountKeys, key ∈ t'.message.accountKeys ∧
    (t.message.WritableKey P key ∨ t'.message.WritableKey P key)

/-- The transactions at two positions conflict. -/
def Clash (i j : ℕ) : Prop :=
  ∃ t t', txs[i]? = some t ∧ txs[j]? = some t' ∧ Conflict P t t'

/-- A batch starts with a transaction that conflicts with the batch before it. -/
def Follows (b b' : List ℕ) : Prop :=
  ∃ i ∈ b'.head?, ∃ j ∈ b, Clash P txs j i

/-- A transaction of the batch has the account in one of its two sets. -/
def Locked (set : AccessSet → List Hash) (b : List ℕ) (key : Hash) : Prop :=
  ∃ i ∈ b, ∃ t access, txs[i]? = some t ∧ extractAccessSet P t = .ok access ∧ key ∈ set access

/-- The invariant of the loop after `n` transactions. -/
structure ScheduleInv (n : ℕ) (st : ScheduleState) : Prop where
  flatten_eq : st.batches.flatten ++ st.currentBatch = range n
  batches : ∀ b ∈ st.batches, b ≠ [] ∧ b.Pairwise fun i j => ¬Clash P txs i j
  current : st.currentBatch.Pairwise fun i j => ¬Clash P txs i j
  chain : st.batches.IsChain (Follows P txs)
  last : ∀ b ∈ st.batches.getLast?, Follows P txs b st.currentBatch
  write : ∀ key, key ∈ st.writeLocked ↔ Locked P txs AccessSet.writable st.currentBatch key
  read : ∀ key, key ∈ st.readLocked ↔ Locked P txs AccessSet.readable st.currentBatch key

variable {P txs} {n : ℕ} {st : ScheduleState} {tx : Transaction} {access : AccessSet}

theorem scheduleInv_nil : ScheduleInv P txs 0 {} where
  flatten_eq := rfl
  batches := by simp
  current := List.Pairwise.nil
  chain := .nil
  last := by simp
  write := by simp [Locked]
  read := by simp [Locked]

section

variable (haccess : extractAccessSet P tx = .ok access)

include haccess

theorem conflict_iff {t : Transaction} {a : AccessSet} (h : extractAccessSet P t = .ok a) :
    Conflict P t tx ↔ ∃ key, (key ∈ access.writable ∧ (key ∈ a.writable ∨ key ∈ a.readable)) ∨
      key ∈ access.readable ∧ key ∈ a.writable := by
  refine exists_congr fun key => ?_
  rw [mem_accountKeys h, mem_accountKeys haccess, ← mem_writable h, ← mem_writable haccess]
  tauto

variable (htx : txs[n]? = some tx)

include htx

theorem locked_concat {set : AccessSet → List Hash} {b : List ℕ} {key : Hash} :
    Locked P txs set (b ++ [n]) key ↔ Locked P txs set b key ∨ key ∈ set access := by
  unfold Locked
  simp only [mem_append, mem_singleton, or_and_right, exists_or, exists_eq_left, htx,
    Option.some.injEq, existsAndEq, haccess, Except.ok.injEq, true_and]

variable (hall : ∀ t ∈ txs, ∃ access, extractAccessSet P t = .ok access)

include hall

/-- The lock sets tell whether a transaction conflicts with one of the current batch. -/
theorem ScheduleInv.conflicts_iff (h : ScheduleInv P txs n st) :
    st.conflicts access = true ↔ ∃ i ∈ st.currentBatch, Clash P txs i n := by
  have hlocks : st.conflicts access = true ↔
      ∃ key, (key ∈ access.writable ∧ (key ∈ st.writeLocked ∨ key ∈ st.readLocked)) ∨
        key ∈ access.readable ∧ key ∈ st.writeLocked := by
    simp [ScheduleState.conflicts, exists_or]
  rw [hlocks]
  simp only [h.write, h.read]
  constructor
  · have hclash : ∀ i ∈ st.currentBatch, ∀ t a, txs[i]? = some t → extractAccessSet P t = .ok a →
        ∀ key, (key ∈ access.writable ∧ (key ∈ a.writable ∨ key ∈ a.readable)) ∨
          key ∈ access.readable ∧ key ∈ a.writable → ∃ i ∈ st.currentBatch, Clash P txs i n :=
      fun i hi t a hti hai key hkey =>
        ⟨i, hi, t, tx, hti, htx, (conflict_iff haccess hai).mpr ⟨key, hkey⟩⟩
    rintro ⟨key, ⟨hkey, ⟨i, hi, t, a, hti, hai, hw⟩ | ⟨i, hi, t, a, hti, hai, hr⟩⟩ |
      ⟨hkey, i, hi, t, a, hti, hai, hw⟩⟩
    · exact hclash i hi t a hti hai key (.inl ⟨hkey, .inl hw⟩)
    · exact hclash i hi t a hti hai key (.inl ⟨hkey, .inr hr⟩)
    · exact hclash i hi t a hti hai key (.inr ⟨hkey, hw⟩)
  · rintro ⟨i, hi, t, tx', hti, htx', hconf⟩
    cases htx.symm.trans htx'
    obtain ⟨a, hai⟩ := hall t (mem_of_getElem? hti)
    obtain ⟨key, hkey⟩ := (conflict_iff haccess hai).mp hconf
    refine ⟨key, hkey.imp (And.imp_right (Or.imp ?_ ?_)) (And.imp_right ?_)⟩
    all_goals exact fun hmem => ⟨i, hi, t, a, hti, hai, hmem⟩

theorem ScheduleInv.place (h : ScheduleInv P txs n st) :
    ScheduleInv P txs (n + 1) (st.place n access) := by
  have hiff := h.conflicts_iff haccess htx hall
  unfold ScheduleState.place
  split_ifs with hconf
  · -- The transaction opens a batch of its own.
    obtain ⟨j, hj, hclash⟩ := hiff.mp hconf
    refine ⟨?_, fun b hb => ?_, pairwise_singleton _ _, ?_, fun b hb => ?_, fun key => ?_,
      fun key => ?_⟩
    · simp [ScheduleState.flush, ScheduleState.push, range_succ, ← h.flatten_eq]
    · rcases mem_append.mp hb with hb | hb
      · exact h.batches b hb
      · obtain rfl := mem_singleton.mp hb
        exact ⟨ne_nil_of_mem hj, h.current⟩
    · refine h.chain.append (.singleton _) fun b hb b' hb' => ?_
      cases hb'
      exact h.last b hb
    · obtain rfl : st.currentBatch = b := by
        simpa [ScheduleState.flush, ScheduleState.push] using hb
      exact ⟨n, rfl, j, hj, hclash⟩
    all_goals
      refine Iff.trans ?_ (locked_concat haccess htx).symm
      simp [ScheduleState.flush, ScheduleState.push, Locked]
  · refine ⟨?_, h.batches, ?_, h.chain, fun b hb => ?_, fun key => ?_, fun key => ?_⟩
    · rw [range_succ, ← h.flatten_eq, append_assoc]
      rfl
    · refine pairwise_append.mpr ⟨h.current, pairwise_singleton _ _, ?_⟩
      intro i hi j hj hclash
      obtain rfl := mem_singleton.mp hj
      exact hconf (hiff.mpr ⟨i, hi, hclash⟩)
    · obtain ⟨i, hi, hclash⟩ := h.last b hb
      exact ⟨i, by simp [ScheduleState.push, Option.mem_def.mp hi], hclash⟩
    · refine mem_append.trans (.trans ?_ (locked_concat haccess htx).symm)
      rw [h.write]
    · refine mem_append.trans (.trans ?_ (locked_concat haccess htx).symm)
      rw [h.read]

end

variable {rest : List Transaction} {f : Fault}

/-- The loop keeps its invariant, by induction over the transactions that are left. -/
theorem ScheduleInv.scheduleFrom (hall : ∀ t ∈ txs, ∃ access, extractAccessSet P t = .ok access)
    {pre : List Transaction} (htxs : txs = pre ++ rest) {st' : ScheduleState}
    (h : ScheduleInv P txs pre.length st)
    (hrun : scheduleFrom P pre.length rest st = .ok st') : ScheduleInv P txs txs.length st' := by
  induction rest generalizing pre st with
  | nil =>
    cases hrun
    simpa [htxs] using h
  | cons tx rest ih =>
    simp only [Nusantara.scheduleFrom, exceptBind_eq_ok] at hrun
    obtain ⟨access, haccess, hrun⟩ := hrun
    have hplaced := h.place haccess (by simp [htxs]) hall
    have hlen : pre.length + 1 = (pre ++ [tx]).length := by simp
    rw [hlen] at hplaced hrun
    exact ih (by simp [htxs]) hplaced hrun

theorem scheduleFrom_isOk_iff {i : ℕ} :
    (∃ st', scheduleFrom P i rest st = .ok st') ↔
      ∀ tx ∈ rest, ∃ access, extractAccessSet P tx = .ok access := by
  induction rest generalizing i st with
  | nil => simp [Nusantara.scheduleFrom]
  | cons tx rest ih =>
    simp only [Nusantara.scheduleFrom, exceptBind_eq_ok, forall_mem_cons]
    constructor
    · rintro ⟨st', access, haccess, h⟩
      exact ⟨⟨access, haccess⟩, ih.mp ⟨st', h⟩⟩
    · rintro ⟨⟨access, haccess⟩, h⟩
      obtain ⟨st', hst'⟩ : ∃ st', Nusantara.scheduleFrom P (i + 1) rest (st.place i access)
          = .ok st' := ih.mpr h
      exact ⟨st', access, haccess, hst'⟩

section

variable {batches : List (List ℕ)} (h : schedule P txs = .ok batches)

include h

theorem schedule_inv : ∃ st, ScheduleInv P txs txs.length st ∧ batches = st.finish := by
  obtain ⟨st, hst, rfl⟩ := exceptMap_eq_ok.mp h
  have hall := scheduleFrom_isOk_iff.mp ⟨st, hst⟩
  exact ⟨st, scheduleInv_nil.scheduleFrom hall (nil_append txs).symm hst, rfl⟩

/-- **The batches, one after another, are the transactions in their order.** -/
theorem schedule_flatten :
    batches.flatten = range txs.length := by
  obtain ⟨st, hinv, rfl⟩ := schedule_inv h
  rw [← hinv.flatten_eq, ScheduleState.finish]
  split_ifs with hempty
  · rw [hempty, append_nil]
  · simp

/-- **Within a batch no two transactions conflict**, and a batch is not empty. -/
theorem schedule_apart {b : List ℕ} (hb : b ∈ batches) :
    b ≠ [] ∧ b.Pairwise fun i j => ¬Clash P txs i j := by
  obtain ⟨st, hinv, rfl⟩ := schedule_inv h
  unfold ScheduleState.finish at hb
  split_ifs at hb with hempty
  · exact hinv.batches b hb
  · rcases mem_append.mp hb with hb | hb
    · exact hinv.batches b hb
    · obtain rfl := mem_singleton.mp hb
      exact ⟨hempty, hinv.current⟩

/-- **A batch is closed only for a transaction that conflicts with it.** -/
theorem schedule_chain : batches.IsChain (Follows P txs) := by
  obtain ⟨st, hinv, rfl⟩ := schedule_inv h
  unfold ScheduleState.finish
  split_ifs
  · exact hinv.chain
  · refine hinv.chain.append (.singleton _) fun b hb b' hb' => ?_
    cases hb'
    exact hinv.last b hb

end

/-- The scheduler stops exactly at a header that overcounts the accounts, and only where
arithmetic is checked. -/
theorem schedule_isOk_iff :
    (∃ batches, schedule P txs = .ok batches) ↔
      (P.overflowChecks = true → ∀ tx ∈ txs, tx.message.HeaderFits) := by
  calc (∃ batches, schedule P txs = .ok batches)
    _ ↔ ∃ st', scheduleFrom P 0 txs {} = .ok st' := by
      simp only [schedule, exceptMap_eq_ok]
      exact ⟨fun ⟨_, st, hst, _⟩ => ⟨st, hst⟩, fun ⟨st, hst⟩ => ⟨_, st, hst, rfl⟩⟩
    _ ↔ ∀ tx ∈ txs, P.overflowChecks = true → tx.message.HeaderFits := by
      simp only [scheduleFrom_isOk_iff, extractAccessSet_isOk_iff]
    _ ↔ (P.overflowChecks = true → ∀ tx ∈ txs, tx.message.HeaderFits) :=
      ⟨fun h hP tx htx => h tx htx hP, fun h tx htx hP => h hP tx htx⟩

/-- **The schedule.**  With headers that fit, the batches are the transactions in their order; none is
empty, within a batch no two transactions conflict, and the first of every later batch conflicts with
one of the batch before it. -/
theorem schedule_partitions (hfits : ∀ tx ∈ txs, tx.message.HeaderFits) :
    ∃ batches, schedule P txs = .ok batches ∧ batches.flatten = List.range txs.length ∧
      (∀ b ∈ batches, b ≠ [] ∧ b.Pairwise fun i j => ¬Clash P txs i j) ∧
      batches.IsChain (Follows P txs) := by
  obtain ⟨batches, h⟩ := schedule_isOk_iff.mpr fun _ => hfits
  exact ⟨batches, h, schedule_flatten h, fun _ => schedule_apart h, schedule_chain h⟩

/-- Two transactions that write the same account are scheduled. -/
theorem two_writers_are_scheduled :
    let writer : Transaction := ⟨[], [], ⟨1, 0, 0, [Hash.zero], Hash.zero, []⟩⟩
    ∃ batches, schedule .release [writer, writer] = .ok batches ∧
      batches.flatten = [0, 1] ∧ batches.IsChain (Follows .release [writer, writer]) := by
  intro writer
  obtain ⟨batches, h, hflatten, -, hchain⟩ := schedule_partitions (P := Platform.sample false)
    (by decide : ∀ tx ∈ [writer, writer], tx.message.HeaderFits)
  exact ⟨batches, h, hflatten, hchain⟩

theorem scheduleFrom_eq_error {i : ℕ}
    (h : scheduleFrom P i rest st = .error f) : f = .writableUnderflow := by
  induction rest generalizing i st with
  | nil => simp [Nusantara.scheduleFrom] at h
  | cons tx rest ih =>
    simp only [Nusantara.scheduleFrom, exceptBind_eq_error] at h
    rcases h with h | ⟨access, -, h⟩
    · exact accessFrom_eq_error h
    · exact ih h

theorem schedule_eq_error (h : schedule P txs = .error f) :
    f = .writableUnderflow := by
  cases hst : scheduleFrom P 0 txs {} with
  | ok st => simp [schedule, hst, Except.map] at h
  | error g =>
    obtain rfl : g = f := by simpa [schedule, hst, Except.map] using h
    exact scheduleFrom_eq_error hst

end Results

end Nusantara
