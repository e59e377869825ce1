import Mathlib.Algebra.BigOperators.Group.Finset.Piecewise
import Mathlib.Data.Finmap
import Mathlib.Data.Finset.Defs
import Mathlib.Data.List.DropRight
import Mathlib.Data.List.Sort
import Mathlib.Data.Multiset.Basic

/-!
# Lists, finite sets and maps

A fold that chooses among the elements of a list, the parts of a list, the end of a list that grows,
the elements of a finite set in ascending order, the entries of a finite map in the order in which a
hash map is passed over, and the part of a finite map that satisfies a condition.

`Finset.sort` of Mathlib is by merge sort, which is defined by well-founded recursion and does not
evaluate in the kernel.  The list here is built by insertion, so that what is computed from it can
be evaluated on closed terms.
-/

section

variable {α : Type} {f : Option α → α → Option α} {l : List α} {acc : Option α}

/-- A fold whose steps take the element or keep what they have ends with one of them. -/
theorem List.foldl_choice (hf : ∀ acc c, f acc c = some c ∨ f acc c = acc) {a : α}
    (h : l.foldl f acc = some a) : a ∈ l ∨ acc = some a := by
  induction l generalizing acc with
  | nil => exact .inr h
  | cons c l ih =>
    rcases ih h with hmem | hacc
    · exact .inl (List.mem_cons_of_mem _ hmem)
    · rcases hf acc c with htake | hkeep
      · exact .inl (Option.some.inj (htake.symm.trans hacc) ▸ List.mem_cons_self)
      · exact .inr (hkeep ▸ hacc)

/-- A fold that replaces what it has by every element that is at least as large ends with a largest
element. -/
theorem List.foldl_largest {r : α → α → Prop} [DecidableRel r] (hfirst : ∀ c, f none c = some c)
    (hnext : ∀ b c, f (some b) c = if r b c then some c else some b) (htotal : ∀ a b, r a b ∨ r b a)
    (htrans : ∀ a b c, r a b → r b c → r a c) {m : α}
    (h : l.foldl f acc = some m) : (∀ a ∈ l, r a m) ∧ ∀ b, acc = some b → r b m := by
  induction l generalizing acc with
  | nil =>
    refine ⟨fun a ha => absurd ha List.not_mem_nil, fun b hb => ?_⟩
    obtain rfl := Option.some.inj (hb.symm.trans h)
    exact (htotal b b).elim id id
  | cons c l ih =>
    obtain ⟨hl, hacc⟩ := ih h
    -- The step has kept the larger of the two.
    have hstep : r c m ∧ ∀ b, acc = some b → r b m := by
      cases acc with
      | none => exact ⟨hacc c (hfirst c), fun b hb => by cases hb⟩
      | some b =>
        rw [hnext] at hacc
        by_cases hbc : r b c
        · have hc := hacc c (if_pos hbc)
          exact ⟨hc, fun b' hb' => Option.some.inj hb' ▸ htrans b c m hbc hc⟩
        · have hb := hacc b (if_neg hbc)
          have hcb := (htotal b c).resolve_left hbc
          exact ⟨htrans c b m hcb hb, fun b' hb' => Option.some.inj hb' ▸ hb⟩
    exact ⟨List.forall_mem_cons.mpr ⟨hstep.1, hl⟩, hstep.2⟩

theorem List.foldl_eq_none (hf : ∀ acc c, (f acc c).isSome) (h : l.foldl f acc = none) :
    l = [] := by
  induction l generalizing acc with
  | nil => rfl
  | cons c l ih =>
    obtain rfl := ih h
    have hsome := hf acc c
    rw [List.foldl_cons, List.foldl_nil] at h
    rw [h] at hsome
    exact absurd hsome (by simp)

end

/-- Lists that differ only where both are filtered out. -/
theorem List.filter_eq_of_forall₂ {α : Type} {R : α → α → Prop} {f : α → Bool} {l l' : List α}
    (h : List.Forall₂ R l l')
    (hR : ∀ a, ∀ b ∈ l', R a b → a = b ∨ f a = false ∧ f b = false) : l.filter f = l'.filter f := by
  induction h with
  | nil => rfl
  | @cons a b l l' hab _ ih =>
    have htail := ih fun a b hb => hR a b (List.mem_cons_of_mem _ hb)
    rcases hR a b List.mem_cons_self hab with rfl | ⟨ha, hb⟩
    · rw [List.filter_cons, List.filter_cons, htail]
    · rw [List.filter_cons_of_neg (by simp [ha]), List.filter_cons_of_neg (by simp [hb]), htail]

theorem List.exists_of_forall₂_left {α β : Type} {R : α → β → Prop} {l : List α} {l' : List β}
    (h : List.Forall₂ R l l') : ∀ a ∈ l, ∃ b ∈ l', R a b := by
  intro a ha
  obtain ⟨hlength, hget⟩ := List.forall₂_iff_get.mp h
  obtain ⟨i, hi, rfl⟩ := List.getElem_of_mem ha
  exact ⟨_, List.getElem_mem _, hget i hi (hlength ▸ hi)⟩

/-- A sum over a list is the sum over the keys of what each key gets. -/
theorem List.sum_fiberwise {α β M : Type} [DecidableEq β] [AddCommMonoid M] (key : α → β)
    (f : α → M) {l : List α} {s : Finset β} (h : ∀ x ∈ l, key x ∈ s) :
    ∑ b ∈ s, ((l.filter fun x => key x = b).map f).sum = (l.map f).sum := by
  induction l with
  | nil => simp
  | cons x l ih =>
    obtain ⟨hx, hl⟩ := List.forall_mem_cons.mp h
    have hstep : ∀ b, (((x :: l).filter fun y => key y = b).map f).sum
        = (if key x = b then f x else 0) + ((l.filter fun y => key y = b).map f).sum := by
      intro b
      by_cases hb : key x = b <;> simp [hb]
    simp only [hstep, Finset.sum_add_distrib, ih hl, Finset.sum_ite_eq, hx, if_true, List.map_cons,
      List.sum_cons]

/-! ### The parts of a list of a given length -/

section Chunks

variable {α : Type} {n : ℕ}

/-- The parts of `n` elements that a list splits into, the last of which may be shorter; the fuel
bounds how many there are. -/
def List.chunksFrom (n : ℕ) : ℕ → List α → List (List α)
  | 0, _ => []
  | fuel + 1, l => if l.isEmpty then [] else l.take n :: chunksFrom n fuel (l.drop n)

/-- The parts of `n` elements that a list splits into. -/
def List.chunksOf (n : ℕ) (l : List α) : List (List α) := l.chunksFrom n l.length

theorem List.chunksFrom_congr (hn : 0 < n) {l : List α} {fuel fuel' : ℕ} (h : l.length ≤ fuel)
    (h' : l.length ≤ fuel') : l.chunksFrom n fuel = l.chunksFrom n fuel' := by
  induction fuel generalizing fuel' l with
  | zero =>
    obtain rfl := List.length_eq_zero_iff.mp (Nat.le_zero.mp h)
    cases fuel' <;> rfl
  | succ fuel ih =>
    cases l with
    | nil => cases fuel' <;> rfl
    | cons a l =>
      obtain ⟨fuel', rfl⟩ := Nat.exists_eq_add_of_le' (Nat.lt_of_lt_of_le (Nat.succ_pos _) h')
      have hdrop : ((a :: l).drop n).length ≤ l.length := by
        rw [List.length_drop, List.length_cons]
        omega
      rw [List.length_cons] at h h'
      have hrest : ((a :: l).drop n).length ≤ fuel' := by omega
      rw [chunksFrom, chunksFrom, ih (by omega) hrest]

theorem List.chunksOf_of_ne_nil (hn : 0 < n) {l : List α} (hl : l ≠ []) :
    l.chunksOf n = l.take n :: (l.drop n).chunksOf n := by
  obtain ⟨a, l, rfl⟩ := List.exists_cons_of_ne_nil hl
  have hdrop : ((a :: l).drop n).length ≤ l.length := by
    rw [List.length_drop, List.length_cons]
    omega
  rw [chunksOf, List.length_cons, chunksFrom, chunksFrom_congr hn hdrop le_rfl]
  rfl

theorem List.flatten_chunksOf (hn : 0 < n) (l : List α) : (l.chunksOf n).flatten = l := by
  induction hlength : l.length using Nat.strong_induction_on generalizing l with
  | h k ih =>
    subst hlength
    by_cases hl : l = []
    · rw [hl]
      rfl
    · have hpos := List.length_pos_iff.mpr hl
      have hlt : (l.drop n).length < l.length := by
        rw [List.length_drop]
        omega
      rw [chunksOf_of_ne_nil hn hl, List.flatten_cons, ih _ hlt _ rfl, List.take_append_drop]

end Chunks

/-! ### The end of a list

`l.rtake n` are the last `n` elements of `l`, and `l.rdrop n` are those before them. -/

section Windows

variable {α : Type} {l : List α} {n : ℕ}

theorem List.rtake_of_length_le (h : l.length ≤ n) : l.rtake n = l := by
  rw [List.rtake, Nat.sub_eq_zero_of_le h, List.drop_zero]

theorem List.rdrop_of_length_le (h : l.length ≤ n) : l.rdrop n = [] := by
  rw [List.rdrop, Nat.sub_eq_zero_of_le h, List.take_zero]

theorem List.rdrop_append_rtake (l : List α) (n : ℕ) : l.rdrop n ++ l.rtake n = l :=
  List.take_append_drop _ _

theorem List.length_rtake (l : List α) (n : ℕ) : (l.rtake n).length = min n l.length := by
  simp only [List.rtake, List.length_drop]
  omega

theorem List.getLast?_rtake_succ (l : List α) (n : ℕ) :
    (l.rtake (n + 1)).getLast? = l.getLast? := by
  simp [List.rtake_eq_reverse_take_reverse, List.getLast?_reverse, List.head?_take]

theorem List.rtake_append (l l' : List α) (n : ℕ) :
    (l ++ l').rtake n = l.rtake (n - l'.length) ++ l'.rtake n := by
  simp only [List.rtake_eq_reverse_take_reverse, List.reverse_append, List.take_append,
    List.length_reverse]

theorem List.rdrop_append (l l' : List α) (n : ℕ) :
    (l ++ l').rdrop n = l.rdrop (n - l'.length) ++ l'.rdrop n := by
  simp only [List.rdrop_eq_reverse_drop_reverse, List.reverse_append, List.drop_append,
    List.length_reverse]

theorem List.rtake_rtake (l : List α) {m n : ℕ} (h : n ≤ m) : (l.rtake m).rtake n = l.rtake n := by
  simp only [List.rtake, List.drop_drop, List.length_drop]
  congr 1
  omega

/-- The end of a list is all that the end of a longer one depends on. -/
theorem List.rtake_append_rtake (l l' : List α) (n : ℕ) :
    (l.rtake n ++ l').rtake n = (l ++ l').rtake n := by
  rw [List.rtake_append, List.rtake_append, List.rtake_rtake l (Nat.sub_le n l'.length)]

/-- What is no longer at the end when a list grows. -/
theorem List.rdrop_append_rdrop (l l' : List α) (n : ℕ) :
    l.rdrop n ++ (l.rtake n ++ l').rdrop n = (l ++ l').rdrop n := by
  nth_rewrite 3 [← l.rdrop_append_rtake n]
  rw [List.append_assoc, List.rdrop_append (l.rdrop n)]
  rcases le_total n l.length with h | h
  · have hlen : n - (l.rtake n ++ l').length = 0 := by
      rw [List.length_append, List.length_rtake]
      omega
    rw [hlen, List.rdrop_zero]
  · rw [List.rdrop_of_length_le h, List.rdrop_nil]

theorem List.rtake_succ (l : List α) (n : ℕ) :
    l.rtake (n + 1) = (l.rdrop n).getLast?.toList ++ l.rtake n := by
  simp only [List.rtake_eq_reverse_take_reverse, List.rdrop_eq_reverse_drop_reverse,
    List.take_add_one, List.reverse_append, List.getLast?_reverse, List.head?_drop]
  cases l.reverse[n]? <;> rfl

end Windows

namespace Finset

open Finmap Finset

variable {α : Type} [LinearOrder α] (s : Finset α)

/-- The elements of `s`, the least first. -/
def ascending : List α :=
  Quot.liftOn s.val (fun l => l.insertionSort (· ≤ ·)) fun l l' (h : l.Perm l') => by
    have hperm := (List.perm_insertionSort (· ≤ ·) l).trans
      (h.trans (List.perm_insertionSort (· ≤ ·) l').symm)
    exact hperm.eq_of_pairwise' (List.pairwise_insertionSort (· ≤ ·) l)
      (List.pairwise_insertionSort (· ≤ ·) l')

variable {s}

@[simp] theorem mem_ascending {a : α} : a ∈ s.ascending ↔ a ∈ s := by
  obtain ⟨l, hl⟩ := s
  induction l using Quot.inductionOn with
  | h l => exact List.mem_insertionSort (· ≤ ·)

theorem pairwise_ascending : s.ascending.Pairwise (· ≤ ·) := by
  obtain ⟨l, hl⟩ := s
  induction l using Quot.inductionOn with
  | h l => exact List.pairwise_insertionSort (· ≤ ·) l

theorem coe_ascending : (s.ascending : Multiset α) = s.val := by
  obtain ⟨l, hl⟩ := s
  induction l using Quot.inductionOn with
  | h l => exact Quot.sound (List.perm_insertionSort (· ≤ ·) l)

theorem nodup_ascending : s.ascending.Nodup := by
  rw [← Multiset.coe_nodup, coe_ascending]
  exact s.nodup

/-- The greatest element comes last. -/
theorem getLast?_ascending {a : α} (ha : a ∈ s) (hmax : ∀ b ∈ s, b ≤ a) :
    s.ascending.getLast? = some a := by
  have hne : s.ascending ≠ [] := List.ne_nil_of_mem (mem_ascending.mpr ha)
  rw [List.getLast?_eq_some_getLast hne]
  have hle := hmax _ (mem_ascending.mp (List.getLast_mem hne))
  have hge := pairwise_ascending.rel_getLast (mem_ascending.mpr ha)
  exact congrArg some (le_antisymm hle hge)

/-- The elements from the greatest down. -/
theorem pairwise_reverse_ascending : s.ascending.reverse.Pairwise (· > ·) := by
  rw [List.pairwise_reverse]
  exact (pairwise_ascending.and nodup_ascending).imp fun h => lt_of_le_of_ne h.1 h.2

/-- The first elements from the greatest down are those with few greater ones. -/
theorem mem_take_reverse_ascending {a : α} {n : ℕ} :
    a ∈ s.ascending.reverse.take n ↔ a ∈ s ∧ (s.filter (a < ·)).card < n := by
  have hlist : ∀ (l : List α) (n : ℕ), l.Pairwise (· > ·) →
      (a ∈ l.take n ↔ a ∈ l ∧ (l.filter (a < ·)).length < n) := by
    intro l
    induction l with
    | nil => simp
    | cons b l ih =>
      rintro (_ | n) hl
      · simp
      obtain ⟨hb, hl⟩ := List.pairwise_cons.mp hl
      rw [List.take_succ_cons, List.mem_cons, List.mem_cons, ih n hl]
      by_cases hab : a = b
      · -- Nothing is greater than the head.
        subst hab
        have hnone : (a :: l).filter (a < ·) = [] := by
          simpa using fun c hc => (hb c hc).le
        simp [hnone]
      · -- The head is greater than what comes after it.
        have hhead : a ∈ l → ((b :: l).filter (a < ·)).length = (l.filter (a < ·)).length + 1 :=
          fun ha => by simp [hb a ha]
        simp only [hab, false_or]
        refine and_congr_right fun ha => ?_
        rw [hhead ha]
        omega
  rw [hlist _ _ pairwise_reverse_ascending, List.mem_reverse, mem_ascending, List.filter_reverse,
    List.length_reverse, card_def, filter_val, ← coe_ascending, Multiset.filter_coe,
    Multiset.coe_card]

/-- What is left when all but the `n` greatest are dropped: the elements with few greater ones. -/
theorem mem_drop_ascending {a : α} {n : ℕ} :
    a ∈ s ∧ a ∉ s.ascending.take (s.card - n) ↔ a ∈ s ∧ (s.filter (a < ·)).card < n := by
  have hlen : s.ascending.length = s.card := by
    rw [card_def, ← coe_ascending, Multiset.coe_card]
  rw [← mem_take_reverse_ascending, List.take_reverse, List.mem_reverse, hlen]
  have hsplit := List.take_append_drop (s.card - n) s.ascending
  have hnodup := nodup_ascending (s := s)
  rw [← hsplit] at hnodup
  have hmem : a ∈ s ↔ a ∈ s.ascending.take (s.card - n) ∨ a ∈ s.ascending.drop (s.card - n) := by
    rw [← List.mem_append, hsplit, mem_ascending]
  rw [hmem]
  constructor
  · rintro ⟨htake | hdrop, hnot⟩
    · exact absurd htake hnot
    · exact hdrop
  · intro hdrop
    exact ⟨.inr hdrop, fun htake => (List.disjoint_of_nodup_append hnodup) htake hdrop⟩

end Finset

/-- An order in which the keys of a hash map are passed over. -/
structure IterOrder (α : Type) where
  order : List α → List α
  perm : ∀ l, (order l).Perm l

namespace Finmap

theorem insert_of_lookup {α γ : Type} [DecidableEq α] {m : Finmap fun _ : α => γ} {a : α} {c : γ}
    (h : m.lookup a = some c) : m.insert a c = m := by
  refine ext_lookup fun b => ?_
  by_cases hb : b = a
  · rw [hb, lookup_insert, h]
  · rw [lookup_insert_of_ne _ hb]

section Listed

variable {α γ : Type} [LinearOrder α] {o : IterOrder α} {m : Finmap fun _ : α => γ}

/-- The entries of `m`, in the order in which it is passed over. -/
def listed (o : IterOrder α) (m : Finmap fun _ : α => γ) : List (α × γ) :=
  (o.order m.keys.ascending).filterMap fun a => (m.lookup a).map fun c => (a, c)

theorem mem_listed {q : α × γ} : q ∈ m.listed o ↔ m.lookup q.1 = some q.2 := by
  rw [listed, List.mem_filterMap]
  constructor
  · rintro ⟨a, -, ha⟩
    obtain ⟨c, hc, rfl⟩ := Option.map_eq_some_iff.mp ha
    exact hc
  · intro hq
    have hmem : q.1 ∈ m.keys := mem_keys.mpr (mem_iff.mpr ⟨q.2, hq⟩)
    exact ⟨q.1, (o.perm _).mem_iff.mpr (Finset.mem_ascending.mpr hmem), by rw [hq]; rfl⟩

theorem map_fst_listed : (m.listed o).map Prod.fst = o.order m.keys.ascending := by
  have hkeys : ∀ l : List α, (∀ a ∈ l, (m.lookup a).isSome) →
      (l.filterMap fun a => (m.lookup a).map fun c => (a, c)).map Prod.fst = l := by
    intro l
    induction l with
    | nil => exact fun _ => rfl
    | cons a l ih =>
      intro hl
      obtain ⟨ha, hl⟩ := List.forall_mem_cons.mp hl
      obtain ⟨c, hc⟩ := Option.isSome_iff_exists.mp ha
      rw [List.filterMap_cons_some (by rw [hc]; rfl), List.map_cons, ih hl]
  refine hkeys _ fun a ha => ?_
  rw [lookup_isSome, ← mem_keys, ← Finset.mem_ascending]
  exact (o.perm _).mem_iff.mp ha

theorem nodup_listed : ((m.listed o).map Prod.fst).Nodup := by
  rw [map_fst_listed]
  exact (o.perm _).nodup_iff.mpr Finset.nodup_ascending

theorem listed_perm (o o' : IterOrder α) : (m.listed o).Perm (m.listed o') :=
  ((o.perm _).trans (o'.perm _).symm).filterMap _

end Listed

variable {α : Type} {β : α → Type} (p : (a : α) → β a → Bool) (m : Finmap β)

/-- The entries of `m` that satisfy `p`. -/
def retain : Finmap β where
  entries := m.entries.filter fun e => p e.1 e.2
  nodupKeys := by
    rw [← Multiset.nodup_keys]
    exact Multiset.nodup_of_le (Multiset.map_le_map (Multiset.filter_le _ _)) m.nodupKeys.nodup_keys

variable {p m}

theorem lookup_retain [DecidableEq α] {a : α} :
    (m.retain p).lookup a = (m.lookup a).filter (p a) := by
  ext b
  rw [Option.filter_eq_some_iff, lookup_eq_some_iff, lookup_eq_some_iff]
  exact Multiset.mem_filter

/-- Every entry of `m` satisfies `q`. -/
def ForAll [DecidableEq α] (q : (a : α) → β a → Prop) (m : Finmap β) : Prop :=
  ∀ a b, m.lookup a = some b → q a b

namespace ForAll

variable [DecidableEq α] {q : (a : α) → β a → Prop} {a : α} {b : β a}

theorem empty : ForAll q (∅ : Finmap β) := fun a b h => by simp at h

theorem insert (h : ForAll q m) (hb : q a b) : ForAll q (m.insert a b) := by
  intro a' b' hb'
  by_cases ha : a' = a
  · subst ha
    rw [lookup_insert] at hb'
    exact Option.some.inj hb' ▸ hb
  · rw [lookup_insert_of_ne _ ha] at hb'
    exact h a' b' hb'

theorem erase (h : ForAll q m) (a : α) : ForAll q (m.erase a) := by
  intro a' b' hb'
  by_cases ha : a' = a
  · subst ha
    rw [lookup_erase] at hb'
    cases hb'
  · rw [lookup_erase_ne ha] at hb'
    exact h a' b' hb'

theorem eraseAll (h : ForAll q m) (as : List α) :
    ForAll q (as.foldl (fun m a => m.erase a) m) :=
  List.foldlRecOn as _ h fun _ h a _ => h.erase a

theorem retain (h : ForAll q m) : ForAll q (m.retain p) := by
  intro a b hb
  rw [lookup_retain] at hb
  exact h a b (Option.filter_eq_some_iff.mp hb).1

end ForAll

theorem lookup_eraseAll [DecidableEq α] (m : Finmap β) (as : List α) (a : α) :
    (as.foldl (fun m a => m.erase a) m).lookup a = if a ∈ as then none else m.lookup a := by
  induction as generalizing m with
  | nil => simp
  | cons b as ih =>
    rw [List.foldl_cons, ih]
    by_cases hab : a = b
    · subst hab
      simp
    · simp [hab]

/-- `m` with the value at `a`, if there is one, changed by `f`. -/
def adjust [DecidableEq α] {γ : Type} (m : Finmap fun _ : α => γ) (a : α) (f : γ → γ) :
    Finmap fun _ : α => γ :=
  match m.lookup a with
  | some c => m.insert a (f c)
  | none => m

section

variable [DecidableEq α]

theorem lookup_adjust {γ : Type} (m : Finmap fun _ : α => γ) (a : α) (f : γ → γ)
    (x : α) : (m.adjust a f).lookup x = if x = a then (m.lookup x).map f else m.lookup x := by
  unfold adjust
  cases ha : m.lookup a with
  | none =>
    split_ifs with hx
    · rw [hx, ha, Option.map_none]
    · rfl
  | some c =>
    split_ifs with hx
    · rw [hx, ha, Option.map_some]
      exact lookup_insert m
    · exact lookup_insert_of_ne m hx

theorem lookup_union {γ : Type} (m m' : Finmap fun _ : α => γ) (a : α) :
    (m ∪ m').lookup a = (m.lookup a).or (m'.lookup a) := by
  cases hm : m.lookup a with
  | none => rw [lookup_union_right (lookup_eq_none.mp hm), Option.none_or]
  | some c => rw [lookup_union_left (mem_iff.mpr ⟨c, hm⟩), hm, Option.some_or]

/-- Two maps that agree on their common keys. -/
theorem union_comm_of_agree {γ : Type} {m m' : Finmap fun _ : α => γ}
    (h : ∀ a c c', m.lookup a = some c → m'.lookup a = some c' → c = c') : m ∪ m' = m' ∪ m := by
  refine ext_lookup fun a => ?_
  rw [lookup_union, lookup_union]
  cases hm : m.lookup a with
  | none => cases m'.lookup a <;> rfl
  | some c =>
    cases hm' : m'.lookup a with
    | none => rfl
    | some c' => rw [h a c c' hm hm']

/-- The last pair of a list with a key is the one that stays, whatever is made of the values. -/
theorem lookup_foldl_insert_map {γ δ : Type} (f : α × γ → δ) (l : List (α × γ))
    (m : Finmap fun _ : α => δ) (a : α) :
    (l.foldl (fun m q => m.insert q.1 (f q)) m).lookup a
      = (((l.foldl (fun m q => m.insert q.1 q.2) (∅ : Finmap fun _ : α => γ)).lookup a).map
        fun c => f (a, c)).or (m.lookup a) := by
  refine List.foldl_rel (r := fun (m' : Finmap fun _ : α => δ) (k : Finmap fun _ : α => γ) =>
    m'.lookup a = ((k.lookup a).map fun c => f (a, c)).or (m.lookup a)) (by simp) ?_
  intro q _ m' k h
  by_cases hq : a = q.1
  · subst hq
    rw [lookup_insert, lookup_insert]
    rfl
  · rw [lookup_insert_of_ne _ hq, lookup_insert_of_ne _ hq, h]

/-- A map into which the pairs of a list are inserted, which lists a partial function. -/
theorem lookup_foldl_insert {γ δ : Type} (g : α → Option γ) (f : α × γ → δ)
    {l : List (α × γ)} (hl : ∀ q, q ∈ l ↔ g q.1 = some q.2) (m : Finmap fun _ : α => δ) (a : α) :
    (l.foldl (fun m q => m.insert q.1 (f q)) m).lookup a
      = ((g a).map fun c => f (a, c)).or (m.lookup a) := by
  -- What the list says of `a` is what the function says, wherever in the list it is.
  have hfold : ∀ (l : List (α × γ)) (m : Finmap fun _ : α => δ), (∀ q ∈ l, g q.1 = some q.2) →
      (l.foldl (fun m q => m.insert q.1 (f q)) m).lookup a =
        if a ∈ l.map Prod.fst then (g a).map fun c => f (a, c) else m.lookup a := by
    intro l
    induction l with
    | nil => simp
    | cons q l ih =>
      intro m hl
      obtain ⟨hq, hl⟩ := List.forall_mem_cons.mp hl
      rw [List.foldl_cons, ih _ hl]
      by_cases hqa : a = q.1
      · subst hqa
        rw [lookup_insert, hq, if_pos (List.mem_map_of_mem List.mem_cons_self)]
        exact ite_self _
      · rw [lookup_insert_of_ne _ hqa]
        exact if_congr (by rw [List.map_cons, List.mem_cons, or_iff_right hqa]) rfl rfl
  rw [hfold _ _ fun q hq => (hl q).mp hq]
  cases hlookup : g a with
  | none =>
    have hmem : a ∉ l.map Prod.fst := by
      intro ha
      obtain ⟨q, hq, rfl⟩ := List.mem_map.mp ha
      rw [(hl q).mp hq] at hlookup
      cases hlookup
    rw [if_neg hmem]
    rfl
  | some c =>
    have hmem : a ∈ l.map Prod.fst := List.mem_map.mpr ⟨(a, c), (hl (a, c)).mpr hlookup, rfl⟩
    rw [if_pos hmem]
    rfl

end

end Finmap
