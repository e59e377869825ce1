import Nusantara.Lib.Latest
import Nusantara.Lib.Trace
import Nusantara.Storage.Ledger

/-!
# What a rewind restores

A fork sees, of every account, the latest version written in one of its slots or at or below all
of them (`SeesOnFork`).  A rewind for the ancestry of a block is to make the account index name
those versions.

The rewind passes over the entries the index has.  An account without an entry stays without one,
and an entry that already names a slot of the fork is left alone.  Both go wrong when a fork is
left and taken up again: the rewind that left it has deleted the entries of its new accounts, or
put them back to versions that both forks share.

## Main results

* `Storage.lookup_rewindIndex`: what a rewind makes of an entry.
* `Storage.indexed_of_steps`: the index names stored versions, after any writes and rewinds.
* `Storage.rewind_restores_iff`: the stores in which a rewind for an ancestry restores what the
  fork sees.
-/

namespace Nusantara

open List Finmap Option UInt64 Hash

namespace Storage

variable {s s' : Storage} {a address : Hash} {slot maxSlot : UInt64} {ancestors : Finset UInt64}
  {target : Hash → UInt64 → Option UInt64}

/-! ### Versions -/

variable {slots : Finset ℕ} {n : ℕ} {latest : Option UInt64}

theorem greatest_eq_some (h : greatest slots = some n) :
    n ∈ slots ∧ ∀ m ∈ slots, m ≤ n := by
  unfold greatest at h
  split at h
  case h_1 => simp at h
  case h_2 k hk =>
    obtain rfl := some.inj h
    have hne : slots.Nonempty := by
      rw [Finset.nonempty_iff_ne_empty]
      rintro rfl
      simp at hk
    obtain ⟨m, hm, hsup⟩ := Finset.exists_mem_eq_sup slots hne (· + 1)
    have hmk : m = k := by omega
    refine ⟨hmk ▸ hm, fun i hi => ?_⟩
    have hle : i + 1 ≤ slots.sup (· + 1) := Finset.le_sup hi
    omega

theorem greatest_eq_none (h : greatest slots = none) : slots = ∅ := by
  unfold greatest at h
  split at h
  case h_1 hzero =>
    rw [Finset.eq_empty_iff_forall_notMem]
    intro i hi
    have hle : i + 1 ≤ slots.sup (· + 1) := Finset.le_sup hi
    omega
  case h_2 => simp at h

theorem mem_versionSlots :
    n ∈ s.versionSlots a ↔ ∃ slot : UInt64, (a, slot) ∈ s.accounts ∧ slot.toNat = n := by
  simp only [versionSlots, Finset.mem_image, Finset.mem_filter, Finmap.mem_keys]
  constructor
  · rintro ⟨⟨b, slot⟩, ⟨hmem, rfl⟩, rfl⟩
    exact ⟨slot, hmem, rfl⟩
  · rintro ⟨slot, hmem, rfl⟩
    exact ⟨(a, slot), ⟨hmem, rfl⟩, rfl⟩

/-- The greatest of the version slots with a property is the latest version that has it. -/
theorem isLatest_greatest (p : ℕ → Prop) [DecidablePred p] :
    IsLatest {slot : UInt64 | (a, slot) ∈ s.accounts ∧ p slot.toNat}
      ((greatest ((s.versionSlots a).filter p)).map UInt64.ofNat) := by
  cases hg : greatest ((s.versionSlots a).filter p) with
  | none =>
    have hempty := greatest_eq_none hg
    refine Set.eq_empty_iff_forall_notMem.mpr fun slot hslot => ?_
    have hmem : slot.toNat ∈ (s.versionSlots a).filter p :=
      Finset.mem_filter.mpr ⟨mem_versionSlots.mpr ⟨slot, hslot.1, rfl⟩, hslot.2⟩
    rw [hempty] at hmem
    exact Finset.notMem_empty _ hmem
  | some n =>
    obtain ⟨hmem, hmax⟩ := greatest_eq_some hg
    obtain ⟨hver, hp⟩ := Finset.mem_filter.mp hmem
    obtain ⟨slot, hslot, rfl⟩ := mem_versionSlots.mp hver
    simp only [map_some, UInt64.ofNat_toNat]
    refine ⟨⟨hslot, hp⟩, fun slot' hslot' => ?_⟩
    refine UInt64.le_iff_toNat_le.mpr (hmax _ ?_)
    exact Finset.mem_filter.mpr ⟨mem_versionSlots.mpr ⟨slot', hslot'.1, rfl⟩, hslot'.2⟩

/-- The slot that `find_latest_account_at_or_before` finds. -/
theorem findLatestAccountAtOrBefore_fst :
    (s.findLatestAccountAtOrBefore a maxSlot).map Prod.fst
      = (greatest ((s.versionSlots a).filter (· ≤ maxSlot.toNat))).map UInt64.ofNat := by
  unfold findLatestAccountAtOrBefore
  cases hg : greatest ((s.versionSlots a).filter (· ≤ maxSlot.toNat)) with
  | none => rfl
  | some n =>
    obtain ⟨hmem, -⟩ := greatest_eq_some hg
    obtain ⟨slot, hslot, rfl⟩ := mem_versionSlots.mp (Finset.mem_filter.mp hmem).1
    obtain ⟨account, haccount⟩ := mem_iff.mp hslot
    simp only [bind, bind_some, UInt64.ofNat_toNat, map_some]
    rw [UInt64.ofNat_toNat, haccount]
    rfl

/-- A read returns the latest version at or before its slot. -/
theorem getAccountAtSlot_of_isLatest
    (h : IsLatest {v : UInt64 | (a, v) ∈ s.accounts ∧ v.toNat ≤ maxSlot.toNat} latest) :
    s.getAccountAtSlot a maxSlot = latest.bind fun v => s.accounts.lookup (a, v) := by
  obtain rfl := h.unique (isLatest_greatest (· ≤ maxSlot.toNat))
  simp only [getAccountAtSlot, findLatestAccountAtOrBefore, bind]
  cases greatest ((s.versionSlots a).filter (· ≤ maxSlot.toNat)) with
  | none => rfl
  | some n => cases h : s.accounts.lookup (a, ofNat n) <;> simp [h]

/-- A read at the slot of a version returns it. -/
theorem getAccountAtSlot_of_mem (h : (a, slot) ∈ s.accounts) :
    s.getAccountAtSlot a slot = s.accounts.lookup (a, slot) := by
  have hlatest : IsLatest {v : UInt64 | (a, v) ∈ s.accounts ∧ v.toNat ≤ slot.toNat} (some slot) :=
    ⟨⟨h, le_rfl⟩, fun v hv => le_iff_toNat_le.mpr hv.2⟩
  exact getAccountAtSlot_of_isLatest hlatest

/-! ### The index -/

/-- Every entry of the index names a stored version. -/
def Indexed (s : Storage) : Prop :=
  ∀ a slot, s.accountIndex.lookup a = some slot → (a, slot) ∈ s.accounts

instance : Decidable s.Indexed :=
  decidable_of_iff (∀ a ∈ s.accountIndex.keys,
      (s.accountIndex.lookup a).all fun slot => (a, slot) ∈ s.accounts) (by
    constructor
    · intro h a slot hslot
      have hmem : a ∈ s.accountIndex.keys :=
        mem_keys.mpr (mem_iff.mpr ⟨slot, hslot⟩)
      simpa [hslot] using h a hmem
    · intro h a _
      cases hslot : s.accountIndex.lookup a with
      | none => rfl
      | some slot => simpa using h a slot hslot)

/-- A read returns the version that the index names. -/
theorem Indexed.getAccount_eq (h : s.Indexed) (a : Hash) :
    s.getAccount a = (s.accountIndex.lookup a).bind fun slot => s.accounts.lookup (a, slot) := by
  unfold getAccount
  cases hindex : s.accountIndex.lookup a with
  | none => rfl
  | some slot => exact getAccountAtSlot_of_mem (h a slot hindex)

theorem lookup_rewindEntry (index : Finmap fun _ : Hash => UInt64) :
    (s.rewindEntry target index address).lookup a =
      if a = address ∧ (s.accountIndex.lookup a).isSome then
        (s.accountIndex.lookup a).bind (target a)
      else index.lookup a := by
  unfold rewindEntry
  by_cases ha : a = address
  · subst ha
    cases hcur : s.accountIndex.lookup a with
    | none => simp
    | some current =>
      cases htarget : target a current <;> simp [htarget]
  · rw [if_neg fun h => ha h.1]
    split
    · rfl
    · split
      · exact lookup_insert_of_ne _ ha
      · exact lookup_erase_ne ha

/-- **What a rewind makes of an entry.**  An account that has an entry gets the one it is to have;
an account without one stays without. -/
theorem lookup_rewindIndex :
    (s.rewindIndex target).accountIndex.lookup a
      = (s.accountIndex.lookup a).bind (target a) := by
  have hfold : ∀ (l : List Hash) (index : Finmap fun _ : Hash => UInt64),
      (l.foldl (s.rewindEntry target) index).lookup a =
        if a ∈ l ∧ (s.accountIndex.lookup a).isSome then (s.accountIndex.lookup a).bind (target a)
        else index.lookup a := by
    intro l
    induction l with
    | nil => simp
    | cons b l ih =>
      intro index
      rw [foldl_cons, ih, lookup_rewindEntry]
      by_cases hb : a = b
      · by_cases hsome : (s.accountIndex.lookup a).isSome <;> simp [hb, hsome]
      · simp [hb]
  refine (hfold _ _).trans ?_
  cases hindex : s.accountIndex.lookup a with
  | none => simp
  | some current =>
    have hmem : a ∈ s.accountIndex.keys.ascending := by
      rw [Finset.mem_ascending, Finmap.mem_keys, ← Finmap.lookup_isSome, hindex]
      rfl
    simp [hmem]

/-- A rewind that sends entries to stored versions keeps the index on stored versions. -/
theorem Indexed.rewindIndex (h : s.Indexed)
    (htarget : ∀ a current slot, (a, current) ∈ s.accounts → target a current = some slot →
      (a, slot) ∈ s.accounts) : (s.rewindIndex target).Indexed := by
  intro a slot hslot
  rw [lookup_rewindIndex] at hslot
  obtain ⟨current, hcur, ht⟩ := bind_eq_some_iff.mp hslot
  exact htarget a current slot (h a current hcur) ht

/-! ### Forks -/

/-- The slot counts for a fork: it is one of its slots, or at or below all of them. -/
def OnFork (ancestors : Finset UInt64) (slot : UInt64) : Prop :=
  slot ∈ ancestors ∨ ∀ m ∈ ancestors, slot ≤ m

instance : DecidablePred (OnFork ancestors) := fun slot =>
  inferInstanceAs (Decidable (slot ∈ ancestors ∨ ∀ m ∈ ancestors, slot ≤ m))

/-- The versions of an account that a fork sees. -/
def versionsOnFork (s : Storage) (ancestors : Finset UInt64) (a : Hash) : Set UInt64 :=
  {slot | (a, slot) ∈ s.accounts ∧ OnFork ancestors slot}

/-- What a fork sees of an account: its latest version there, or nothing. -/
def SeesOnFork (s : Storage) (ancestors : Finset UInt64) (a : Hash) (account : Option Account) :
    Prop :=
  ∃ latest, IsLatest (s.versionsOnFork ancestors a) latest ∧
    account = latest.bind fun slot => s.accounts.lookup (a, slot)

theorem le_rootOf (hne : ancestors.Nonempty) :
    slot ≤ rootOf ancestors ↔ ∀ m ∈ ancestors, slot ≤ m := by
  -- The first element in ascending order is the least of the ancestors.
  cases hl : ancestors.ascending with
  | nil =>
    obtain ⟨m, hm⟩ := hne
    have hmem := Finset.mem_ascending.mpr hm
    simp [hl] at hmem
  | cons m₀ l =>
    have hmem : ∀ m, m ∈ m₀ :: l ↔ m ∈ ancestors := fun m => hl ▸ Finset.mem_ascending
    have hsorted : (m₀ :: l).Pairwise (· ≤ ·) := hl ▸ Finset.pairwise_ascending
    have hroot : rootOf ancestors = m₀ := by rw [rootOf, hl, headD_cons]
    rw [hroot]
    refine ⟨fun hle m hm => hle.trans ?_, fun h => h m₀ ((hmem m₀).mp (by simp))⟩
    rcases mem_cons.mp ((hmem m).mpr hm) with rfl | htail
    · exact le_rfl
    · exact (pairwise_cons.mp hsorted).1 m htail

theorem onFork_iff (hne : ancestors.Nonempty) :
    OnFork ancestors slot ↔ slot ≤ rootOf ancestors ∨ slot ∈ ancestors := by
  rw [le_rootOf hne]
  exact or_comm

theorem isLatest_latestOnFork (hne : ancestors.Nonempty) :
    IsLatest (s.versionsOnFork ancestors a) (s.latestOnFork ancestors a) := by
  have hset : s.versionsOnFork ancestors a = {slot : UInt64 | (a, slot) ∈ s.accounts ∧
      (slot.toNat ≤ (rootOf ancestors).toNat ∨ ofNat slot.toNat ∈ ancestors)} := by
    ext slot
    simp [versionsOnFork, onFork_iff hne, le_iff_toNat_le]
  rw [hset]
  exact isLatest_greatest fun n => n ≤ (rootOf ancestors).toNat ∨ ofNat n ∈ ancestors

/-! ### Writes -/

theorem write_append (b₁ b₂ : WriteBatch) : s.write (b₁ ++ b₂) = (s.write b₁).write b₂ :=
  foldl_append

/-- A write adds a version, and makes it the one in force. -/
theorem write_accountWrite (s : Storage) (address : Hash) (slot : UInt64) (account : Account)
    (old : Option Account) :
    (s.write (accountWrite address slot account old)).accounts
        = s.accounts.insert (address, slot) account ∧
      (s.write (accountWrite address slot account old)).accountIndex
        = s.accountIndex.insert address slot := by
  rw [accountWrite, write_append]
  -- The entries that follow the owner are not in the column families of the versions.
  unfold indexUpdates
  split_ifs
  · exact ⟨rfl, rfl⟩
  · cases old <;> exact ⟨rfl, rfl⟩

theorem Indexed.write (h : s.Indexed) (account : Account) (old : Option Account) :
    (s.write (accountWrite address slot account old)).Indexed := by
  obtain ⟨haccounts, hindex⟩ := write_accountWrite s address slot account old
  intro a slot' hslot'
  rw [haccounts, mem_insert]
  rw [hindex] at hslot'
  by_cases ha : a = address
  · subst ha
    rw [lookup_insert] at hslot'
    exact .inl (by rw [some.inj hslot'])
  · rw [lookup_insert_of_ne _ ha] at hslot'
    exact .inr (h a slot' hslot')

/-! ### Histories of the index -/

/-- What changes the versions and the index: the write of an account, and the two rewinds. -/
inductive IndexOp where
  | write (address : Hash) (slot : UInt64) (account : Account) (old : Option Account)
  | rewindToSlot (maxSlot : UInt64)
  | rewindForAncestry (ancestors : Finset UInt64)
  deriving DecidableEq

/-- The store after an operation. -/
def IndexOp.run (s : Storage) : IndexOp → Storage
  | .write address slot account old => s.write (accountWrite address slot account old)
  | .rewindToSlot maxSlot => s.rewindAccountIndexToSlot maxSlot
  | .rewindForAncestry ancestors => s.rewindAccountIndexForAncestry ancestors

/-- One operation on the versions and the index. -/
def IndexStep (s : Storage) (op : IndexOp) (s' : Storage) : Prop := op.run s = s'

theorem Indexed.rewindToSlot (h : s.Indexed) : (s.rewindAccountIndexToSlot maxSlot).Indexed := by
  refine h.rewindIndex fun a current slot hcur ht => ?_
  unfold rewoundToSlot at ht
  split_ifs at ht
  · rw [findLatestAccountAtOrBefore_fst] at ht
    have hlatest := isLatest_greatest (s := s) (a := a) (· ≤ maxSlot.toNat)
    rw [ht] at hlatest
    exact hlatest.1.1
  · exact some.inj ht ▸ hcur

theorem Indexed.rewindForAncestry (h : s.Indexed) :
    (s.rewindAccountIndexForAncestry ancestors).Indexed := by
  refine h.rewindIndex fun a current slot hcur ht => ?_
  unfold rewoundIndex at ht
  split_ifs at ht
  · exact some.inj ht ▸ hcur
  · -- The search of the rewind looks at stored versions only.
    have hlatest := isLatest_greatest (s := s) (a := a)
      fun n => n ≤ (rootOf ancestors).toNat ∨ ofNat n ∈ ancestors
    rw [show (greatest _).map ofNat = some slot from ht] at hlatest
    exact hlatest.1.1

/-- The index names stored versions after any history of writes and rewinds. -/
theorem indexed_of_steps {ops : List IndexOp} (h : Trace.Steps IndexStep empty ops s) :
    s.Indexed := by
  refine h.invariant (I := Indexed) (G := fun _ => True) ?_ ?_ fun _ _ => trivial
  · rintro s op s' hs - rfl
    cases op with
    | write address slot account old => exact hs.write account old
    | rewindToSlot maxSlot => exact hs.rewindToSlot
    | rewindForAncestry ancestors => exact hs.rewindForAncestry
  · intro a slot hslot
    simp [empty] at hslot

/-! ### What a rewind for an ancestry restores -/

/-- The index is ready for a fork at an account: without an entry there is no version that the
fork sees, and an entry that is on the fork names what the fork sees. -/
def IndexFollows (s : Storage) (ancestors : Finset UInt64) (a : Hash) : Prop :=
  match s.accountIndex.lookup a with
  | none => ∀ slot, (a, slot) ∈ s.accounts → ¬ OnFork ancestors slot
  | some current =>
    OnFork ancestors current → s.SeesOnFork ancestors a (s.accounts.lookup (a, current))

theorem seesOnFork_iff {account : Option Account}
    (h : IsLatest (s.versionsOnFork ancestors a) latest) :
    s.SeesOnFork ancestors a account ↔
      account = latest.bind fun slot => s.accounts.lookup (a, slot) := by
  constructor
  · rintro ⟨latest', h', rfl⟩
    rw [h.unique h']
  · exact fun haccount => ⟨latest, h, haccount⟩

/-- The read of one account after a rewind. -/
theorem seesOnFork_rewind_iff (hs : s.Indexed) (hne : ancestors.Nonempty) :
    s.SeesOnFork ancestors a ((s.rewindAccountIndexForAncestry ancestors).getAccount a) ↔
      s.IndexFollows ancestors a := by
  have hlatest := isLatest_latestOnFork (s := s) (a := a) hne
  have hread : (s.rewindAccountIndexForAncestry ancestors).getAccount a =
      ((s.accountIndex.lookup a).bind (s.rewoundIndex ancestors a)).bind
        fun slot => s.accounts.lookup (a, slot) := by
    rw [hs.rewindForAncestry.getAccount_eq a]
    exact congrArg (bind · _) lookup_rewindIndex
  rw [hread]
  unfold IndexFollows
  cases hindex : s.accountIndex.lookup a with
  | none =>
    -- The account stays without an entry, so the fork must not see a version of it.
    have hempty : s.SeesOnFork ancestors a none ↔ s.versionsOnFork ancestors a = ∅ := by
      constructor
      · rintro ⟨latest, hl, hnone⟩
        cases latest with
        | none => exact hl
        | some slot =>
          obtain ⟨account, haccount⟩ := mem_iff.mp hl.1.1
          simp [haccount] at hnone
      · exact fun h => ⟨none, h, rfl⟩
    simp only [bind_none]
    rw [hempty, Set.eq_empty_iff_forall_notMem]
    simp [versionsOnFork]
  | some current =>
    simp only [bind_some, rewoundIndex]
    by_cases hon : OnFork ancestors current
    · -- The entry is left alone.
      rw [if_pos ((onFork_iff hne).mp hon)]
      simp [hon]
    · -- The entry is put on the latest version of the fork.
      rw [if_neg (fun h => hon ((onFork_iff hne).mpr h))]
      simp only [hon, false_imp_iff, iff_true]
      exact (seesOnFork_iff hlatest).mpr rfl

/-- **Fork-aware rewind.**  In a store with any history of writes and rewinds, a rewind for an
ancestry makes every read return what the fork sees exactly if the index was ready for the fork at
every account: the rewind neither restores a deleted entry nor moves an entry forward. -/
theorem rewind_restores_iff {ops : List IndexOp} (h : Trace.Steps IndexStep empty ops s)
    (hne : ancestors.Nonempty) :
    (∀ a, s.SeesOnFork ancestors a ((s.rewindAccountIndexForAncestry ancestors).getAccount a)) ↔
      ∀ a, s.IndexFollows ancestors a :=
  forall_congr' fun _ => seesOnFork_rewind_iff (indexed_of_steps h) hne

/-! ### A fork that is left and taken up again -/

namespace Sample

/-- An account of the samples. -/
def coin (lamports : UInt64) : Account := Account.new lamports Hash.zero

/-- Two slots of a fork; the second also creates an account.  Then a block on the first slot makes
the node leave the second. -/
def history : List IndexOp :=
  [.write (repeated 1) 1 (coin 10) none, .write (repeated 1) 2 (coin 20) none,
    .write (repeated 2) 2 (coin 5) none, .rewindForAncestry {0, 1}]

/-- The store after it. -/
def forkLeft : Storage := history.foldl IndexOp.run empty

end Sample

open Storage.Sample in
/-- Back on the fork, the first account is read in the version of slot 1 instead of slot 2, and
the account created in slot 2 is not found. -/
theorem rewind_loses_versions :
    Trace.Steps IndexStep empty history forkLeft ∧
      ¬ forkLeft.SeesOnFork {0, 1, 2} (Hash.repeated 1)
        ((forkLeft.rewindAccountIndexForAncestry {0, 1, 2}).getAccount (Hash.repeated 1)) ∧
      ¬ forkLeft.SeesOnFork {0, 1, 2} (Hash.repeated 2)
        ((forkLeft.rewindAccountIndexForAncestry {0, 1, 2}).getAccount (Hash.repeated 2)) := by
  refine ⟨Trace.Steps.foldl IndexOp.run history empty, ?_, ?_⟩
  all_goals
    rw [seesOnFork_iff (isLatest_latestOnFork (by decide))]
    decide +kernel

open Storage.Sample in
/-- On a chain that was never left, the rewind is right. -/
theorem rewind_restores_single_write :
    Trace.Steps IndexStep empty [.write (Hash.repeated 1) 1 (coin 10) none]
        (IndexOp.run empty (.write (Hash.repeated 1) 1 (coin 10) none)) ∧
      ∀ a, (IndexOp.run empty (.write (Hash.repeated 1) 1 (coin 10) none)).SeesOnFork {0, 1} a
        (((IndexOp.run empty (.write (Hash.repeated 1) 1 (coin 10) none))
          |>.rewindAccountIndexForAncestry {0, 1}).getAccount a) := by
  refine ⟨.cons rfl (.nil _), ?_⟩
  refine (rewind_restores_iff (.cons rfl (.nil _)) (by decide)).mpr fun a => ?_
  obtain ⟨haccounts, hindex⟩ := write_accountWrite empty (repeated 1) 1 (coin 10) none
  have hversion : ∀ slot, (a, slot) ∈
      (IndexOp.run empty (.write (repeated 1) 1 (coin 10) none)).accounts →
        a = repeated 1 ∧ slot = 1 := by
    intro slot hmem
    change (a, slot) ∈ (empty.write _).accounts at hmem
    rw [haccounts, mem_insert] at hmem
    rcases hmem with heq | hempty
    · exact Prod.mk.inj heq
    · exact absurd hempty notMem_empty
  unfold IndexFollows
  change match (empty.write _).accountIndex.lookup a with
    | none => _
    | some current => _
  rw [hindex]
  by_cases ha : a = repeated 1
  · subst ha
    rw [lookup_insert]
    intro _
    refine ⟨some 1, ⟨⟨?_, .inl (by decide)⟩, fun slot hslot => (hversion slot hslot.1).2.le⟩, rfl⟩
    change (repeated 1, 1) ∈ (empty.write _).accounts
    rw [haccounts]
    exact mem_insert.mpr (.inl rfl)
  · rw [lookup_insert_of_ne _ ha]
    exact fun slot hmem _ => ha (hversion slot hmem).1

end Storage

end Nusantara
