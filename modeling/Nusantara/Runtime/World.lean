import Mathlib.Algebra.BigOperators.Group.Finset.Basic
import Mathlib.Data.Finmap
import Nusantara.Runtime.Context

/-!
# All accounts of the chain

An instruction runs in the context of its transaction, which holds copies of some accounts
(`runtime/src/account_loader.rs`, `runtime/src/transaction_context.rs`).  What holds of all accounts
together, such as the sum of all balances of one token, is a property of the accounts behind the
contexts: `World`.  A context is loaded from it, each account once, and stored into it.

A processor changes its context by `setAccount`, one account at a time.  `World.Puts` says what that
makes of the world: one account changes, and every total by what it says of that account.

## Main results

* `World.puts_setAccount`: a write to a context, seen from the world.
* `World.Loads.account_store`, `World.Loads.total_store`: what was loaded and is stored unchanged
  changes nothing.
-/

namespace Nusantara

open TransactionContext List Finmap Function
open Prod (fst)

/-- The accounts of the chain by address. -/
abbrev World := Finmap fun _ : Hash => Account

namespace World

/-- An account as a transaction loads it: one that does not exist is empty and owned by the zero
hash. -/
def account (w : World) (x : Hash) : Account := (w.lookup x).getD (Account.new 0 Hash.zero)

/-- The sum over all accounts of what `f` says of each. -/
def total (w : World) (f : Account → ℕ) : ℕ := ∑ x ∈ w.keys, f (w.account x)

/-- The context holds accounts of the world, each once. -/
structure Loads (w : World) (s : TransactionContext) : Prop where
  nodup : (s.accounts.map fst).Nodup
  loaded : ∀ q ∈ s.accounts, q.2 = w.account q.1

/-- The world with the accounts of a context. -/
def store (w : World) (s : TransactionContext) : World :=
  s.accounts.foldl (fun w q => w.insert q.1 q.2) w

/-- The second world is the first with the account at `x` replaced. -/
structure Puts (w : World) (x : Hash) (a : Account) (w' : World) : Prop where
  account : w'.account = update w.account x a
  total : ∀ f, w'.total f + f (w.account x) = w.total f + f a

/-- The second world is the first with the accounts at `x` and `y` replaced. -/
structure PutsBoth (w : World) (x : Hash) (a : Account) (y : Hash) (b : Account) (w' : World) :
    Prop where
  account : w'.account = update (update w.account x a) y b
  total : ∀ f, w'.total f + (f (w.account x) + f (w.account y)) = w.total f + (f a + f b)

section Lemmas

variable {w w' : World} {s : TransactionContext} {x y : Hash} {a b : Account} {i : ℕ}
  {f : Account → ℕ}

theorem account_insert : World.account (w.insert x a) = update w.account x a := by
  funext y
  by_cases hy : y = x
  · subst hy
    simp [account]
  · simp [account, hy]

variable {l : List (Hash × Account)} {j : ℕ}

theorem account_foldl_of_notMem (h : x ∉ l.map fst) :
    World.account (l.foldl (fun w q => w.insert q.1 q.2) w) x = w.account x := by
  induction l generalizing w with
  | nil => rfl
  | cons q l ih =>
    obtain ⟨hq, hl⟩ := ne_and_not_mem_of_not_mem_cons h
    rw [foldl_cons, ih hl, account_insert, update_of_ne hq]

theorem account_foldl_of_mem (hl : (l.map fst).Nodup)
    (h : (x, a) ∈ l) : World.account (l.foldl (fun w q => w.insert q.1 q.2) w) x = a := by
  induction l generalizing w with
  | nil => simp at h
  | cons q l ih =>
    obtain ⟨hq, hl⟩ := nodup_cons.mp hl
    obtain rfl | h := mem_cons.mp h
    · rw [foldl_cons, account_foldl_of_notMem hq, account_insert, update_self]
    · exact ih hl h

theorem keys_foldl (l : List (Hash × Account)) (w : World) :
    Finmap.keys (l.foldl (fun w q => w.insert q.1 q.2) w) = w.keys ∪ (l.map fst).toFinset := by
  induction l generalizing w with
  | nil => simp
  | cons q l ih =>
    rw [foldl_cons, ih]
    ext y
    simp only [Finset.mem_union, Finmap.mem_keys, Finmap.mem_insert, map_cons,
      toFinset_cons, Finset.mem_insert, mem_toFinset]
    tauto

theorem account_store (hs : (s.accounts.map fst).Nodup) (h : s.accounts[i]? = some (x, a)) :
    (w.store s).account x = a :=
  account_foldl_of_mem hs (mem_of_getElem? h)

theorem keys_store : (w.store s).keys = w.keys ∪ (s.accounts.map fst).toFinset :=
  keys_foldl s.accounts w

theorem getElem?_setAccount (h : s.accounts[j]? = some (y, b)) :
    (s.setAccount i a).accounts[j]? = some (y, if i = j then a else b) := by
  simp only [setAccount, getElem?_modify, h, Option.map_eq_map, Option.map_some]
  split_ifs <;> rfl

theorem exists_getElem?_of_account? (h : s.account? i = some a) :
    ∃ x, s.accounts[i]? = some (x, a) := by
  obtain ⟨⟨x, a'⟩, hx, rfl⟩ := Option.map_eq_some_iff.mp h
  exact ⟨x, hx⟩

theorem address_inj (hs : (s.accounts.map fst).Nodup)
    (hi : s.accounts[i]? = some (x, a)) (hj : s.accounts[j]? = some (x, b)) : i = j := by
  have hlt : i < (s.accounts.map fst).length := by
    simpa using (List.getElem?_eq_some_iff.mp hi).1
  exact (List.getElem?_inj hlt hs).mp (by simp [hi, hj])

section

variable (hs : (s.accounts.map fst).Nodup) (h : s.accounts[i]? = some (x, b))

include hs h

theorem account_store_setAccount :
    (w.store (s.setAccount i a)).account = update (w.store s).account x a := by
  have hs' : ((s.setAccount i a).accounts.map fst).Nodup := by rwa [addresses_setAccount]
  funext y
  by_cases hy : y ∈ s.accounts.map fst
  · -- The positions of different addresses are different.
    obtain ⟨⟨z, c⟩, hmem, rfl⟩ := mem_map.mp hy
    obtain ⟨j, hj⟩ := mem_iff_getElem?.mp hmem
    rw [account_store hs' (getElem?_setAccount hj)]
    by_cases hij : i = j
    · subst hij
      obtain rfl := congrArg fst (Option.some.inj (h.symm.trans hj))
      rw [if_pos rfl, update_self]
    · have hzx : z ≠ x := by
        rintro rfl
        exact hij (address_inj hs h hj)
      rw [if_neg hij, update_of_ne hzx, account_store hs hj]
  · have hy' : y ∉ (s.setAccount i a).accounts.map fst := by rwa [addresses_setAccount]
    have hx : x ∈ s.accounts.map fst :=
      mem_map.mpr ⟨(x, b), mem_of_getElem? h, rfl⟩
    have hyx : y ≠ x := fun hyx => hy (hyx ▸ hx)
    rw [update_of_ne hyx]
    exact (account_foldl_of_notMem hy').trans (account_foldl_of_notMem hy).symm

/-- **A write to a context, seen from the world.** -/
theorem puts_setAccount :
    (w.store s).Puts x a (w.store (s.setAccount i a)) := by
  have hacc := account_store_setAccount (w := w) (a := a) hs h
  refine ⟨hacc, fun f => ?_⟩
  have hx : x ∈ (w.store s).keys := by
    rw [keys_store, Finset.mem_union, mem_toFinset]
    exact .inr (mem_map.mpr ⟨(x, b), mem_of_getElem? h, rfl⟩)
  have hkeys : (w.store (s.setAccount i a)).keys = (w.store s).keys := by
    rw [keys_store, keys_store, addresses_setAccount]
  simp only [total, hkeys, hacc]
  rw [← Finset.add_sum_erase _ _ hx, ← Finset.add_sum_erase _ _ hx, update_self]
  have hrest : ∑ y ∈ (w.store s).keys.erase x, f (update (w.store s).account x a y)
      = ∑ y ∈ (w.store s).keys.erase x, f ((w.store s).account y) :=
    Finset.sum_congr rfl fun y hy => by rw [update_of_ne (Finset.ne_of_mem_erase hy)]
  rw [hrest]
  ring

end

/-- Two writes to a context, seen from the world. -/
theorem putsBoth_setAccount {c d : Account} (hs : (s.accounts.map fst).Nodup)
    (hi : s.accounts[i]? = some (x, a)) (hj : s.accounts[j]? = some (y, b)) (hij : i ≠ j) :
    (w.store s).PutsBoth x c y d (w.store ((s.setAccount i c).setAccount j d)) := by
  have hs' : ((s.setAccount i c).accounts.map fst).Nodup := by rwa [addresses_setAccount]
  have hyx : y ≠ x := by
    rintro rfl
    exact hij (address_inj hs hi hj)
  have hfirst : (w.store s).Puts x c (w.store (s.setAccount i c)) := puts_setAccount hs hi
  have hsecond := puts_setAccount (w := w) (a := d) hs' (getElem?_setAccount hj)
  refine ⟨by rw [hsecond.account, hfirst.account], fun f => ?_⟩
  have hone := hfirst.total f
  have htwo := hsecond.total f
  rw [hfirst.account, update_of_ne hyx] at htwo
  omega

/-- The order of the two does not matter. -/
theorem PutsBoth.symm (h : w.PutsBoth x a y b w') (hxy : x ≠ y) : w.PutsBoth y b x a w' :=
  ⟨by rw [h.account, update_comm hxy], fun f => by have := h.total f; omega⟩

/-- Accounts that are stored as they were loaded. -/
theorem Loads.account_store (h : w.Loads s) : (w.store s).account = w.account := by
  funext y
  by_cases hy : y ∈ s.accounts.map fst
  · obtain ⟨⟨z, c⟩, hmem, rfl⟩ := mem_map.mp hy
    exact (account_foldl_of_mem h.nodup hmem).trans (h.loaded _ hmem)
  · exact account_foldl_of_notMem hy

theorem Loads.total_store (h : w.Loads s) (hf : f (Account.new 0 Hash.zero) = 0) :
    (w.store s).total f = w.total f := by
  simp only [total, h.account_store]
  symm
  refine Finset.sum_subset (by rw [keys_store]; exact Finset.subset_union_left) ?_
  intro y _ hy
  have hnone : w.lookup y = none := by
    rw [lookup_eq_none]
    exact fun hmem => hy (mem_keys.mpr hmem)
  simp [account, hnone, hf]

end Lemmas

end World

end Nusantara
