import Nusantara.Lib.Exec
import Nusantara.Core.Transaction
import Nusantara.Runtime.Error

/-!
# The transaction context

The state an instruction runs on (`runtime/src/transaction_context.rs`,
`runtime/src/compute_meter.rs`): the loaded accounts, a snapshot of them taken before the first
instruction, the message and the compute meter.  A processor works on a mutable borrow of it, so
`Run` keeps the state a failing processor leaves behind.

A mutable borrow of an account is modelled by `getAccountMut`, which checks that the account is
there and writable and returns its current value, and `putAccount`, which writes it back.

## Main results

* `getAccount_eq_ok`, `getAccountMut_eq_ok`, `putAccount_eq_ok`, `consumeCompute_eq_ok`: what a
  successful access has checked and changed.
* `account?_setAccount`: a write changes one account.
-/

namespace Nusantara

open List

/-- Compute units left to a transaction. -/
structure ComputeMeter where
  remaining : ℕ
  limit : ℕ
  deriving DecidableEq

namespace ComputeMeter

/-- `ComputeMeter::new`. -/
def new (limit : ℕ) : ComputeMeter := { remaining := limit, limit }

/-- `ComputeMeter::consumed`. -/
def consumed (m : ComputeMeter) : ℕ := m.limit - m.remaining

/-- `ComputeMeter::set_remaining`: the budget can only shrink. -/
def setRemaining (m : ComputeMeter) (remaining : ℕ) : ComputeMeter :=
  { m with remaining := min remaining m.remaining }

end ComputeMeter

/-- The state of a transaction under execution. -/
structure TransactionContext where
  accounts : List (Hash × Account)
  preAccounts : List (Hash × Account)
  message : Message
  slot : UInt64
  computeMeter : ComputeMeter
  deriving DecidableEq

/-- A computation on a transaction context. -/
abbrev Run (α : Type) := Exec Fault TransactionContext RuntimeError α

namespace TransactionContext

variable (ctx : TransactionContext)

/-- `TransactionContext::new`: the snapshot is taken of the accounts as they are given. -/
def new (accounts : List (Hash × Account)) (message : Message) (slot : UInt64)
    (computeLimit : ℕ) : TransactionContext :=
  { accounts, preAccounts := accounts, message, slot,
    computeMeter := ComputeMeter.new computeLimit }

/-- The account at a position. -/
def account? (i : ℕ) : Option Account := ctx.accounts[i]?.map Prod.snd

/-- Replace the account at a position. -/
def setAccount (i : ℕ) (a : Account) : TransactionContext :=
  { ctx with accounts := ctx.accounts.modify i fun p => (p.1, a) }

/-- Replace the compute units left. -/
def setRemaining (n : ℕ) : TransactionContext :=
  { ctx with computeMeter := { ctx.computeMeter with remaining := n } }

section Lemmas

variable {ctx} {i j n : ℕ} {a b : Account}

@[simp] theorem setRemaining_accounts : (ctx.setRemaining n).accounts = ctx.accounts := rfl

@[simp] theorem setRemaining_account? : (ctx.setRemaining n).account? i = ctx.account? i := rfl

/-- The addresses of the accounts never change. -/
@[simp] theorem addresses_setAccount :
    (ctx.setAccount i a).accounts.map Prod.fst = ctx.accounts.map Prod.fst := by
  apply ext_getElem?
  intro k
  simp only [setAccount, getElem?_map, getElem?_modify]
  by_cases h : i = k
  · cases ctx.accounts[k]? <;> simp [h]
  · cases ctx.accounts[k]? <;> simp [h]

theorem account?_eq_some_lt (h : ctx.account? i = some a) : i < ctx.accounts.length := by
  by_contra hge
  simp [account?, getElem?_eq_none (not_lt.mp hge)] at h

/-- A write changes one account. -/
theorem account?_setAccount (h : ctx.account? i = some b) :
    (ctx.setAccount i a).account? j = if i = j then some a else ctx.account? j := by
  by_cases hij : i = j
  · subst hij
    have hlt := account?_eq_some_lt h
    simp [account?, setAccount, getElem?_eq_getElem hlt]
  · simp [account?, setAccount, hij]

theorem account?_of_getElem? {x : Hash} (h : ctx.accounts[i]? = some (x, a)) :
    ctx.account? i = some a := by
  simp [account?, h]

theorem setAccount_setAccount : (ctx.setAccount i a).setAccount i b = ctx.setAccount i b := by
  simp only [setAccount, modify_modify_eq]
  rfl

/-- New data written to an account take the place of any that were written before. -/
theorem withData_of_setAccount {c : Account} {d e : List UInt8} (ha : ctx.account? i = some a)
    (hb : ctx.account? j = some b) (hc : (ctx.setAccount i (a.withData d)).account? j = some c) :
    c.withData e = b.withData e := by
  rw [account?_setAccount ha] at hc
  split_ifs at hc with hij
  · subst hij
    cases ha.symm.trans hb
    cases hc
    rfl
  · cases hb.symm.trans hc
    rfl

end Lemmas

end TransactionContext

open TransactionContext Exec

/-! ### Access to the accounts -/

/-- What a shared borrow of an account shows. -/
structure AccountRef where
  address : Hash
  account : Account
  isSigner : Bool
  isWritable : Bool
  deriving DecidableEq

section Access

variable (P : Platform)

/-- `TransactionContext::get_account`. -/
def getAccount (index : ℕ) : Run AccountRef := do
  let ctx ← Exec.get
  let entry ← ofOption (.accountNotFound index) ctx.accounts[index]?
  let isWritable ← ofFault (ctx.message.isWritable P index)
  return { address := entry.1, account := entry.2,
           isSigner := ctx.message.isSigner index, isWritable }

/-- `TransactionContext::get_account_mut`: the value behind the mutable borrow. -/
def getAccountMut (index : ℕ) : Run Account := do
  let ctx ← Exec.get
  require (index < ctx.accounts.length) (.accountNotFound index)
  let isWritable ← ofFault (ctx.message.isWritable P index)
  require (isWritable = true) (.accountNotWritable index)
  let entry ← ofFault (indexAt ctx.accounts index)
  return entry.2

/-- A write through the mutable borrow. -/
def putAccount (index : ℕ) (a : Account) : Run Unit := do
  let ctx ← Exec.get
  Exec.set (ctx.setAccount index a)

/-- `TransactionContext::consume_compute`. -/
def consumeCompute (units : ℕ) : Run Unit := do
  let ctx ← Exec.get
  if ctx.computeMeter.remaining < units then do
    Exec.set (ctx.setRemaining 0)
    Exec.throw (.insufficientComputeUnits units ctx.computeMeter.remaining)
  else Exec.set (ctx.setRemaining (ctx.computeMeter.remaining - units))

/-- An element of an instruction's account list. -/
def accountIndex (accounts : List UInt8) (i : ℕ) : Run ℕ := do
  let index ← ofFault (indexAt accounts i)
  return index.toNat

end Access

section Inversion

variable {P : Platform} {i n : ℕ} {s s' : TransactionContext} {a : Account} {u : Unit}

theorem indexAt_eq_ok {α : Type} {xs : List α} {x : α} :
    indexAt xs i = .ok x ↔ xs[i]? = some x := by
  unfold indexAt
  cases xs[i]? <;> simp

theorem getAccount_eq_ok {r : AccountRef} :
    (getAccount P i).run s = .ok r s' ↔
      s' = s ∧ s.accounts[i]? = some (r.address, r.account) ∧
        r.isSigner = s.message.isSigner i ∧ s.message.isWritable P i = .ok r.isWritable := by
  obtain ⟨address, account, isSigner, isWritable⟩ := r
  simp only [getAccount, bind_eq_ok, run_get, Outcome.ok.injEq, ofOption_eq_ok, ofFault_eq_ok,
    run_pure, AccountRef.mk.injEq]
  constructor
  · rintro ⟨_, _, ⟨rfl, rfl⟩, ⟨ad, ac⟩, _, ⟨he, rfl⟩, w, _, ⟨hw, rfl⟩, ⟨rfl, rfl, rfl, rfl⟩,
      rfl⟩
    exact ⟨rfl, he, rfl, hw⟩
  · rintro ⟨rfl, he, rfl, hw⟩
    exact ⟨_, _, ⟨rfl, rfl⟩, _, _, ⟨he, rfl⟩, _, _, ⟨hw, rfl⟩, ⟨rfl, rfl, rfl, rfl⟩, rfl⟩

theorem getAccountMut_eq_ok :
    (getAccountMut P i).run s = .ok a s' ↔
      s' = s ∧ s.account? i = some a ∧ s.message.isWritable P i = .ok true := by
  simp only [getAccountMut, bind_eq_ok, run_get, Outcome.ok.injEq, require_eq_ok, ofFault_eq_ok,
    run_pure, indexAt_eq_ok]
  constructor
  · rintro ⟨_, _, ⟨rfl, rfl⟩, _, _, ⟨-, rfl⟩, w, _, ⟨hw, rfl⟩, _, _, ⟨rfl, rfl⟩, e, _, ⟨he, rfl⟩,
      rfl, rfl⟩
    exact ⟨rfl, by simp [account?, he], hw⟩
  · rintro ⟨rfl, he, hw⟩
    have hlt := account?_eq_some_lt he
    obtain ⟨e, hat, rfl⟩ := Option.map_eq_some_iff.mp he
    exact ⟨_, _, ⟨rfl, rfl⟩, (), _, ⟨hlt, rfl⟩, _, _, ⟨hw, rfl⟩, (), _, ⟨rfl, rfl⟩, _, _,
      ⟨hat, rfl⟩, rfl, rfl⟩

@[simp] theorem putAccount_eq_ok :
    (putAccount i a).run s = .ok u s' ↔ s' = s.setAccount i a := by
  simp [putAccount, run_bind, eq_comm]

@[simp] theorem consumeCompute_eq_ok :
    (consumeCompute n).run s = .ok u s' ↔
      n ≤ s.computeMeter.remaining ∧ s' = s.setRemaining (s.computeMeter.remaining - n) := by
  unfold consumeCompute
  simp only [run_bind, run_get]
  split_ifs with h
  · simp [run_bind]
    omega
  · simp only [run_set, Outcome.ok.injEq, true_and, eq_comm]
    exact ⟨fun h' => ⟨by omega, h'⟩, fun h' => h'.2⟩

theorem accountIndex_eq_ok {accounts : List UInt8} :
    (accountIndex accounts i).run s = .ok n s' ↔
      s' = s ∧ ∃ b, accounts[i]? = some b ∧ n = b.toNat := by
  simp only [accountIndex, bind_eq_ok, ofFault_eq_ok, indexAt_eq_ok, run_pure, Outcome.ok.injEq]
  constructor
  · rintro ⟨b, _, ⟨hb, rfl⟩, rfl, rfl⟩
    exact ⟨rfl, b, hb, rfl⟩
  · rintro ⟨rfl, b, hb, rfl⟩
    exact ⟨b, _, ⟨hb, rfl⟩, rfl, rfl⟩

end Inversion

end Nusantara
