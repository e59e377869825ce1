import Nusantara.Runtime.Parallel
import Nusantara.Storage.Rewind

/-!
# What a slot writes

The write batch of a slot and its cache are built side by side, one result after another.  The
batch lays the accounts of the cache over the store, as their versions of the slot (`Overlays`),
and the deltas of the slot list the same accounts.

## Main results

* `overlays_parallelCommitter`: the batch of a slot writes the accounts of its cache, and nothing
  else.
* `AccountCache.mem_deltas`: the deltas of a slot are the accounts of its cache.
-/

namespace Nusantara

open Exec Storage List Finmap

/-! ### The deltas -/

namespace AccountCache

variable {cache : AccountCache} {q : Hash × Account}

/-- The accounts of a cache in the order of their addresses. -/
def deltas (cache : AccountCache) : List (Hash × Account) :=
  cache.keys.ascending.filterMap fun a => (cache.lookup a).map fun account => (a, account)

theorem mem_deltas : q ∈ cache.deltas ↔ cache.lookup q.1 = some q.2 := by
  simp only [deltas, mem_filterMap, Finset.mem_ascending, Finmap.mem_keys,
    Option.map_eq_some_iff]
  constructor
  · rintro ⟨a, -, account, hlookup, rfl⟩
    exact hlookup
  · intro hlookup
    exact ⟨q.1, Finmap.mem_iff.mpr ⟨q.2, hlookup⟩, q.2, hlookup, rfl⟩

/-- A map into which a value is inserted for every delta. -/
theorem lookup_foldl_deltas {β : Type} (f : Hash × Account → β) (m : Finmap fun _ : Hash => β)
    (a : Hash) :
    (cache.deltas.foldl (fun m q => m.insert q.1 (f q)) m).lookup a
      = ((cache.lookup a).map fun account => f (a, account)).or (m.lookup a) :=
  lookup_foldl_insert cache.lookup f (fun _ => mem_deltas) m a

end AccountCache

/-! ### The batch -/

/-- The batch lays the accounts of the cache over the store, as their versions of the slot. -/
structure Overlays (slot : UInt64) (batch : WriteBatch) (cache : AccountCache) : Prop where
  accounts : ∀ (s : Storage) a t, (s.write batch).accounts.lookup (a, t) =
    if t = slot ∧ a ∈ cache then cache.lookup a else s.accounts.lookup (a, t)
  index : ∀ (s : Storage) a, (s.write batch).accountIndex.lookup a =
    if a ∈ cache then some slot else s.accountIndex.lookup a

namespace Overlays

variable {slot : UInt64} {b b' : WriteBatch} {cache : AccountCache} {a : Hash}
  {account : Account} {old : Option Account}

/-- The versions after the batch. -/
theorem mem_accounts (h : Overlays slot b cache) (s : Storage) (t : UInt64) :
    (a, t) ∈ (s.write b).accounts ↔ (t = slot ∧ a ∈ cache) ∨ (a, t) ∈ s.accounts := by
  rw [mem_iff, h.accounts]
  by_cases hnew : t = slot ∧ a ∈ cache
  · rw [if_pos hnew]
    exact iff_of_true (mem_iff.mp hnew.2) (.inl hnew)
  · rw [if_neg hnew, or_iff_right hnew, mem_iff]

theorem nil : Overlays slot [] ∅ where
  accounts _ _ _ := (if_neg fun h => notMem_empty h.2).symm
  index _ _ := (if_neg notMem_empty).symm

/-- One more account. -/
theorem accountWrite (h : Overlays slot b cache) (a : Hash) (account : Account)
    (old : Option Account) :
    Overlays slot (b ++ Storage.accountWrite a slot account old) (cache.insert a account) where
  accounts s c t := by
    rw [write_append, (write_accountWrite _ a slot account old).1]
    by_cases hct : c = a ∧ t = slot
    · obtain ⟨rfl, rfl⟩ := hct
      rw [lookup_insert, if_pos ⟨rfl, mem_insert.mpr (.inl rfl)⟩,
        lookup_insert]
    · have hne : (c, t) ≠ (a, slot) := fun heq => hct (Prod.mk.inj heq)
      rw [lookup_insert_of_ne _ hne, h.accounts]
      by_cases ht : t = slot
      · have hca : c ≠ a := fun heq => hct ⟨heq, ht⟩
        simp [ht, hca]
      · simp [ht]
  index s c := by
    rw [write_append, (write_accountWrite _ a slot account old).2]
    by_cases hca : c = a
    · subst hca
      rw [lookup_insert, if_pos (mem_insert.mpr (.inl rfl))]
    · rw [lookup_insert_of_ne _ hca, h.index]
      simp [hca]

/-- Operations on other column families change nothing. -/
theorem append (h : Overlays slot b cache)
    (hb' : ∀ s : Storage, (s.write b').accounts = s.accounts ∧
      (s.write b').accountIndex = s.accountIndex) : Overlays slot (b ++ b') cache where
  accounts s a t := by rw [write_append, (hb' _).1, h.accounts]
  index s a := by rw [write_append, (hb' _).2, h.index]

/-- The writes of a result. -/
theorem writes (h : Overlays slot b cache) (i : ℕ) (r : TransactionResult) :
    Overlays slot (b ++ r.writes i slot) (cache.insertAll r.accountDeltas) := by
  have hdeltas : ∀ (l : List (Hash × Account)) b cache, Overlays slot b cache →
      Overlays slot (b ++ l.flatMap fun q => Storage.accountWrite q.1 slot q.2 (r.loaded? q.1))
        (cache.insertAll l) := by
    intro l
    induction l with
    | nil =>
      intro b cache hb
      simpa [AccountCache.insertAll] using hb
    | cons q l ih =>
      intro b cache hb
      have hq := ih _ _ (hb.accountWrite q.1 q.2 (r.loaded? q.1))
      rw [flatMap_cons, ← append_assoc]
      exact hq
  unfold TransactionResult.writes
  rw [append_assoc, ← append_assoc]
  refine (hdeltas r.accountDeltas b cache h).append fun s => ?_
  -- What follows is the record of the transaction and the entries of its addresses.
  rw [write_append]
  have haddresses : ∀ (l : List (Hash × Account)) (s : Storage),
      (s.write (l.map fun q => .putAddressSignature q.1 slot (UInt32.ofNat i) r.txHash)).accounts
          = s.accounts ∧
        (s.write (l.map fun q => .putAddressSignature q.1 slot (UInt32.ofNat i)
          r.txHash)).accountIndex = s.accountIndex := by
    intro l
    induction l with
    | nil => exact fun s => ⟨rfl, rfl⟩
    | cons q l ih => exact fun s => ih (s.apply _)
  exact haddresses _ _

end Overlays

section Committer

variable {P : Platform} {storage : Storage} {sysvars : SysvarCache}
  {feeCalculator : FeeCalculator} {slot : UInt64} {txs : List Transaction}
  {order : List ℕ → List ℕ} {c c' : SlotCommitter}

theorem overlays_commitAll {rs : List (ℕ × TransactionResult)}
    (hc : Overlays slot c.writeBatch c.accountCache) (h : commitAll P slot rs c = .ok c') :
    Overlays slot c'.writeBatch c'.accountCache := by
  induction rs generalizing c with
  | nil => exact Except.ok.inj h ▸ hc
  | cons q rs ih =>
    obtain ⟨c₁, hc₁, h⟩ := exceptBind_eq_ok.mp h
    obtain ⟨hcache, hbatch⟩ := commitResult_eq_ok hc₁
    refine ih ?_ h
    rw [hcache, hbatch]
    exact hc.writes q.1 q.2

theorem overlays_executeBatches {batches : List (List ℕ)}
    (hc : Overlays slot c.writeBatch c.accountCache)
    (h : executeBatches P storage sysvars feeCalculator slot txs order batches c = .ok c') :
    Overlays slot c'.writeBatch c'.accountCache := by
  induction batches generalizing c with
  | nil => exact Except.ok.inj h ▸ hc
  | cons b batches ih =>
    simp only [executeBatches, executeBatch, exceptBind_eq_ok] at h
    obtain ⟨c₁, ⟨rs, -, hcommit⟩, h⟩ := h
    exact ih (overlays_commitAll hc hcommit) h

/-- **The writes of a slot** lay the accounts of its cache over the store. -/
theorem overlays_parallelCommitter
    (h : parallelCommitter P storage sysvars feeCalculator slot txs order = .ok c) :
    Overlays slot c.writeBatch c.accountCache := by
  obtain ⟨batches, -, h⟩ := exceptBind_eq_ok.mp h
  exact overlays_executeBatches Overlays.nil h

end Committer

end Nusantara
