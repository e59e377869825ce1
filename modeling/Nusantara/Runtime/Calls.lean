import Nusantara.Runtime.Executor
import Nusantara.Runtime.World

/-!
# Instructions of the native programs, seen from all accounts

An instruction for one of the native programs runs in a context whose accounts are loaded from all
accounts of the chain, and leaves them changed there (`runtime/src/program_processor.rs`).  `NativeStep`
is one such instruction that succeeds; a run of the chain is a sequence of them.

The balance of an account can be changed by an instruction that has nothing else to do with it, as a
payer or a recipient.  `World.body` is an account without its balance.

## Main results

* `World.Shows.setAccount`, `World.Shows.debit`, `World.Shows.credit`: a write to a context, seen from
  the world, where balances do not count.
-/

namespace Nusantara

open Exec TransactionContext Function World

/-- An instruction for a native program with the context it runs in. -/
structure NativeCall where
  program : Builtin
  sysvars : SysvarCache
  accounts : List UInt8
  data : List UInt8
  context : TransactionContext

/-- The address that an instruction names at a position of its account list. -/
def NativeCall.address (c : NativeCall) (k : ℕ) : Option Hash := do
  let i ← c.accounts[k]?
  let q ← c.context.accounts[i.toNat]?
  return q.1

/-- The instruction succeeds on accounts of the first world, and the second one is what it leaves. -/
def NativeStep (P : Platform) (w : World) (c : NativeCall) (w' : World) : Prop :=
  w.Loads c.context ∧
    ∃ s', (processBuiltin P c.sysvars c.program c.accounts c.data).run c.context = .ok () s' ∧
      w' = w.store s'

namespace World

/-- An account of the world without its balance. -/
def body (w : World) (x : Hash) : Account := (w.account x).withLamports 0

/-- The context holds accounts at the given addresses, each once, and together with the other accounts
of the world they are `body`, where balances do not count. -/
structure Shows (w : World) (keys : List Hash) (s : TransactionContext) (body : Hash → Account) :
    Prop where
  keys_eq : s.accounts.map Prod.fst = keys
  nodup : keys.Nodup
  body_eq : (w.store s).body = body

variable {P : Platform} {w : World} {keys : List Hash} {s s' : TransactionContext}
  {body : Hash → Account} {x : Hash} {a b : Account} {i : ℕ} {amount : UInt64}

@[simp] theorem body_data : (w.body x).data = (w.account x).data := rfl

theorem Loads.shows (h : w.Loads s) : w.Shows (s.accounts.map Prod.fst) s w.body := by
  refine ⟨rfl, h.nodup, ?_⟩
  funext x
  rw [body, body, h.account_store]

namespace Shows

section

variable (h : w.Shows keys s body) (hx : keys[i]? = some x)

include h hx

theorem getElem? (ha : s.account? i = some a) :
    s.accounts[i]? = some (x, a) := by
  obtain ⟨y, hy⟩ := exists_getElem?_of_account? ha
  rw [← h.keys_eq, List.getElem?_map, hy] at hx
  cases hx
  exact hy

/-- What the context holds at a position. -/
theorem body_apply (ha : s.account? i = some a) :
    body x = a.withLamports 0 := by
  rw [← h.body_eq, World.body, account_store (h.keys_eq ▸ h.nodup) (h.getElem? hx ha)]

/-- **A write to a context, seen from the world.** -/
theorem setAccount (ha : s.account? i = some b) :
    w.Shows keys (s.setAccount i a) (update body x (a.withLamports 0)) := by
  refine ⟨by rw [addresses_setAccount, h.keys_eq], h.nodup, ?_⟩
  funext y
  rw [World.body, account_store_setAccount (h.keys_eq ▸ h.nodup) (h.getElem? hx ha), ← h.body_eq]
  by_cases hy : y = x
  · rw [hy, update_self, update_self]
  · rw [update_of_ne hy, update_of_ne hy, World.body]

end

/-- A write of nothing but the balance. -/
theorem setLamports {l : UInt64} (h : w.Shows keys s body) (ha : s.account? i = some a) :
    w.Shows keys (s.setAccount i (a.withLamports l)) body := by
  obtain ⟨x, hx⟩ := exists_getElem?_of_account? ha
  have hkey : keys[i]? = some x := by rw [← h.keys_eq, List.getElem?_map, hx]; rfl
  have hset := h.setAccount (a := a.withLamports l) hkey ha
  have hsame : update body x ((a.withLamports l).withLamports 0) = body :=
    update_eq_self_iff.mpr (h.body_apply hkey ha).symm
  rwa [hsame] at hset

theorem debit {e : UInt64 → RuntimeError} (h : w.Shows keys s body)
    (hrun : (debit P i amount e).run s = .ok () s') : w.Shows keys s' body := by
  obtain ⟨a, l, ha, -, -, rfl⟩ :=
    (changeLamports_eq_ok (f := fun l => Word.checkedSub l amount)).mp hrun
  exact h.setLamports ha

theorem credit (h : w.Shows keys s body) (hrun : (credit P i amount).run s = .ok () s') :
    w.Shows keys s' body := by
  obtain ⟨a, l, ha, -, -, rfl⟩ := credit_eq_ok.mp hrun
  exact h.setLamports ha

end Shows

end World

/-- The accounts that an instruction names have addresses. -/
theorem NativeCall.exists_address {c : NativeCall} {s : TransactionContext} {k : ℕ} {i : UInt8}
    {a : Account} (hs : s.accounts = c.context.accounts) (hi : c.accounts[k]? = some i)
    (ha : s.account? i.toNat = some a) :
    ∃ x, c.address k = some x ∧ (s.accounts.map Prod.fst)[i.toNat]? = some x := by
  obtain ⟨x, hx⟩ := exists_getElem?_of_account? ha
  exact ⟨x, by simp [address, hi, ← hs, hx], by simp [hx]⟩

/-! ### Instructions to evaluate on -/

namespace Sample

/-- An instruction with the addresses of its accounts, the first `signers` of which sign. -/
structure Order where
  program : Builtin
  sysvars : SysvarCache
  signers : UInt8
  keys : List Hash
  data : List UInt8
  accounts : List UInt8

/-- The call of an instruction on the accounts there are. -/
def Order.call (q : Order) (w : World) : NativeCall where
  program := q.program
  sysvars := q.sysvars
  accounts := q.accounts
  data := q.data
  context := TransactionContext.new (q.keys.map fun x => (x, w.account x))
    (transaction q.signers 0 q.keys []).message 1000 100000

/-- The accounts after the instruction, if it succeeds. -/
def Order.world (w : World) (q : Order) : Option World :=
  if q.keys.Nodup then
    ((processBuiltin (Platform.sample false) q.sysvars q.program q.accounts q.data).run
      (q.call w).context).okState.map w.store
  else none

theorem nativeStep_of_world {w w' : World} {q : Order} (h : q.world w = some w') :
    NativeStep .release w (q.call w) w' := by
  simp only [Order.world] at h
  split_ifs at h with hnodup
  obtain ⟨s', hs', hw'⟩ := Option.map_eq_some_iff.mp h
  obtain ⟨_, hrun⟩ := Outcome.okState_eq_some.mp hs'
  refine ⟨⟨?_, ?_⟩, s', hrun, hw'.symm⟩
  · simpa [Order.call, TransactionContext.new, comp_def] using hnodup
  · intro p hp
    obtain ⟨x, -, rfl⟩ := List.mem_map.mp hp
    rfl

end Sample

end Nusantara
