import Mathlib.Algebra.Group.Nat.Defs
import Mathlib.Data.Finset.Insert
import Mathlib.Data.List.Basic
import Mathlib.Data.Set.Function
import Mathlib.Tactic.Common

/-!
# A complete binary tree in an array

The node `i` of the tree has the children `2 i + 1` and `2 i + 2`, and holds what the values of its
children come to.  After a leaf has changed, the nodes above it are stale: they are computed again
from the bottom to the top.

## Main results

* `HeapTree.sound_recomputeAll`: after that every node holds what its children come to, if the
  indices were passed in descending order and with each index the one above it.
* `HeapTree.sound_set`: a change of a leaf leaves every node sound that is not above it.
* `HeapTree.iterate_pairUp`: the root of a sound tree is what its leaves come to, paired up level by
  level.
* `HeapTree.climb_siblings`: from a node of a sound tree its siblings lead to the root.
* `HeapTree.mem_of_climb_mem`: a value that some siblings lead from to the root is a leaf, if no two
  pairs come to the same and none to a leaf.
-/

namespace HeapTree

open List Option Function Nat

variable {α : Type} {combine : α → α → α} {nodes nodes' : List α} {i j : ℕ} {x : α}

/-! ### Sound nodes -/

/-- The node `i` holds what its children come to. -/
def Sound (combine : α → α → α) (nodes : List α) (i : ℕ) : Prop :=
  ∀ l r, nodes[2 * i + 1]? = some l → nodes[2 * i + 2]? = some r → nodes[i]? = some (combine l r)

/-- The node `i` is computed from its children, if they are there. -/
def recompute (combine : α → α → α) (nodes : List α) (i : ℕ) : Option (List α) := do
  let l ← nodes[2 * i + 1]?
  let r ← nodes[2 * i + 2]?
  return nodes.set i (combine l r)

/-- The nodes with the given indices are computed one after another. -/
def recomputeAll (combine : α → α → α) (nodes : List α) (indices : List ℕ) : Option (List α) :=
  indices.foldlM (recompute combine) nodes

theorem recompute_eq_some : recompute combine nodes i = some nodes' ↔ ∃ l r,
    nodes[2 * i + 1]? = some l ∧ nodes[2 * i + 2]? = some r ∧ nodes' = nodes.set i (combine l r) := by
  simp only [recompute, bind, pure, bind_eq_some_iff, some.injEq]
  constructor
  · rintro ⟨l, hl, r, hr, rfl⟩
    exact ⟨l, r, hl, hr, rfl⟩
  · rintro ⟨l, r, hl, hr, rfl⟩
    exact ⟨l, hl, r, hr, rfl⟩

theorem recompute_of_lt (combine : α → α → α) (h : 2 * i + 2 < nodes.length) :
    ∃ nodes', recompute combine nodes i = some nodes' := by
  refine ⟨_, recompute_eq_some.mpr ⟨nodes[2 * i + 1], nodes[2 * i + 2], ?_, ?_, rfl⟩⟩
  · exact getElem?_eq_getElem _
  · exact getElem?_eq_getElem _

/-- A changed value does not matter to a node that is elsewhere and has other children. -/
theorem Sound.set (h : Sound combine nodes j) (hleft : 2 * j + 1 ≠ i) (hright : 2 * j + 2 ≠ i)
    (hself : j ≠ i) : Sound combine (nodes.set i x) j := by
  intro l r hl hr
  rw [getElem?_set_ne hleft.symm] at hl
  rw [getElem?_set_ne hright.symm] at hr
  rw [getElem?_set_ne hself.symm]
  exact h l r hl hr

theorem Sound.recompute (h : recompute combine nodes i = some nodes') :
    Sound combine nodes' i := by
  obtain ⟨l, r, hl, hr, rfl⟩ := recompute_eq_some.mp h
  intro l' r' hl' hr'
  rw [List.getElem?_set_ne (by omega), hl] at hl'
  rw [List.getElem?_set_ne (by omega), hr] at hr'
  obtain ⟨hlt, -⟩ := List.getElem?_eq_some_iff.mp hl
  rw [List.getElem?_set_self (by omega), some.inj hl', some.inj hr']

section All

variable {indices : List ℕ}

theorem length_recomputeAll (h : recomputeAll combine nodes indices = some nodes') :
    nodes'.length = nodes.length := by
  induction indices generalizing nodes with
  | nil => exact congrArg _ (some.inj h).symm
  | cons i indices ih =>
    rw [recomputeAll, foldlM_cons] at h
    obtain ⟨nodes₁, hstep, h⟩ := bind_eq_some_iff.mp h
    obtain ⟨l, r, -, -, rfl⟩ := recompute_eq_some.mp hstep
    rw [ih h, length_set]

theorem recomputeAll_of_lt (combine : α → α → α) (nodes : List α) (indices : List ℕ)
    (h : ∀ i ∈ indices, 2 * i + 2 < nodes.length) :
    ∃ nodes', recomputeAll combine nodes indices = some nodes' := by
  induction indices generalizing nodes with
  | nil => exact ⟨nodes, rfl⟩
  | cons i indices ih =>
    obtain ⟨hi, hindices⟩ := forall_mem_cons.mp h
    obtain ⟨nodes₁, hstep⟩ := recompute_of_lt combine hi
    obtain ⟨l, r, -, -, rfl⟩ := recompute_eq_some.mp hstep
    have hlength : (nodes.set i (combine l r)).length = nodes.length := length_set
    rw [← hlength] at hindices
    obtain ⟨nodes', h'⟩ := ih _ hindices
    refine ⟨nodes', ?_⟩
    rw [recomputeAll, foldlM_cons, hstep]
    exact h'

theorem getElem?_recomputeAll (h : recomputeAll combine nodes indices = some nodes')
    (hj : j ∉ indices) : nodes'[j]? = nodes[j]? := by
  induction indices generalizing nodes with
  | nil => rw [some.inj h]
  | cons i indices ih =>
    rw [mem_cons, not_or] at hj
    rw [recomputeAll, foldlM_cons] at h
    obtain ⟨nodes₁, hstep, h⟩ := bind_eq_some_iff.mp h
    obtain ⟨l, r, -, -, rfl⟩ := recompute_eq_some.mp hstep
    rw [ih h hj.2, getElem?_set_ne (Ne.symm hj.1)]

/-- **From the bottom to the top.**  The first index is the largest, so no child of its node is
computed after it; the node above it is the only one that it makes stale, and that comes later. -/
theorem sound_recomputeAll (hdesc : indices.Pairwise (· > ·))
    (hclosed : ∀ i ∈ indices, 0 < i → (i - 1) / 2 ∈ indices)
    (hsound : ∀ i, i ∉ indices → Sound combine nodes i)
    (h : recomputeAll combine nodes indices = some nodes') (i : ℕ) : Sound combine nodes' i := by
  induction indices generalizing nodes with
  | nil => exact some.inj h ▸ hsound i (by simp)
  | cons k indices ih =>
    obtain ⟨hlargest, hdesc⟩ := pairwise_cons.mp hdesc
    rw [recomputeAll, foldlM_cons] at h
    obtain ⟨nodes₁, hstep, h⟩ := bind_eq_some_iff.mp h
    refine ih hdesc (fun m hm hpos => ?_) (fun m hm => ?_) h
    · rcases mem_cons.mp (hclosed m (mem_cons_of_mem k hm) hpos) with habove | habove
      · have hlt := hlargest m hm
        omega
      · exact habove
    · by_cases hmk : m = k
      · exact hmk ▸ .recompute hstep
      · obtain ⟨l, r, -, -, rfl⟩ := recompute_eq_some.mp hstep
        have hmem : m ∉ k :: indices := fun hmem => (mem_cons.mp hmem).elim hmk hm
        refine (hsound m hmem).set (fun hleft => ?_) (fun hright => ?_) hmk
        all_goals
          have habove := hclosed k mem_cons_self (by omega)
          rw [show (k - 1) / 2 = m by omega] at habove
          exact hmem habove

end All

/-! ### The nodes above a leaf -/

/-- The indices above `i` are added to a set; the fuel bounds how many there are. -/
def markAbove : ℕ → ℕ → Finset ℕ → Finset ℕ
  | 0, _, marked => marked
  | fuel + 1, i, marked =>
    if i = 0 then marked else markAbove fuel ((i - 1) / 2) (insert ((i - 1) / 2) marked)

variable {fuel : ℕ} {marked : Finset ℕ}

theorem subset_markAbove (h : j ∈ marked) : j ∈ markAbove fuel i marked := by
  induction fuel generalizing i marked with
  | zero => exact h
  | succ fuel ih =>
    unfold markAbove
    split_ifs
    · exact h
    · exact ih (Finset.mem_insert_of_mem h)

theorem above_mem_markAbove (hfuel : i ≤ fuel) (hpos : 0 < i) :
    (i - 1) / 2 ∈ markAbove fuel i marked := by
  cases fuel with
  | zero => omega
  | succ fuel =>
    rw [markAbove, if_neg (by omega)]
    exact subset_markAbove (Finset.mem_insert_self _ _)

/-- With each index the one above it is marked. -/
theorem closed_markAbove (hfuel : i ≤ fuel)
    (hclosed : ∀ j ∈ marked, 0 < j → j = i ∨ (j - 1) / 2 ∈ marked) :
    ∀ j ∈ markAbove fuel i marked, 0 < j → (j - 1) / 2 ∈ markAbove fuel i marked := by
  induction fuel generalizing i marked with
  | zero =>
    intro j hj hpos
    obtain rfl : i = 0 := by omega
    exact (hclosed j hj hpos).resolve_left (by omega)
  | succ fuel ih =>
    intro j hj hpos
    by_cases hi : i = 0
    · rw [markAbove, if_pos hi] at hj ⊢
      exact (hclosed j hj hpos).resolve_left (by omega)
    · rw [markAbove, if_neg hi] at hj ⊢
      refine ih (by omega) (fun m hm hmpos => ?_) j hj hpos
      rcases Finset.mem_insert.mp hm with rfl | hm
      · exact .inl rfl
      · rcases hclosed m hm hmpos with rfl | habove
        · exact .inr (Finset.mem_insert_self _ _)
        · exact .inr (Finset.mem_insert_of_mem habove)

theorem mem_markAbove (h : j ∈ markAbove fuel i marked) : j ∈ marked ∨ 2 * j + 1 ≤ i := by
  induction fuel generalizing i marked with
  | zero => exact .inl h
  | succ fuel ih =>
    unfold markAbove at h
    split_ifs at h with hi
    · exact .inl h
    · rcases ih h with hmem | hle
      · rcases Finset.mem_insert.mp hmem with rfl | hmem
        · exact .inr (by omega)
        · exact .inl hmem
      · exact .inr (by omega)

/-- A change of a leaf leaves every node sound that is not above it. -/
theorem sound_set (hleaf : nodes.length ≤ 2 * i + 1) (hmarked : 0 < i → (i - 1) / 2 ∈ marked)
    (hj : j ∉ marked) (hsound : Sound combine nodes j) : Sound combine (nodes.set i x) j := by
  by_cases hself : j = i
  · -- A leaf has no children.
    intro l r hl _
    rw [getElem?_eq_none (by rw [length_set]; omega)] at hl
    cases hl
  · refine hsound.set (fun hleft => ?_) (fun hright => ?_) hself
    all_goals
      have habove := hmarked (by omega)
      rw [show (i - 1) / 2 = j by omega] at habove
      exact hj habove

/-! ### The root -/

/-- The values of a level, two at a time; a last one without a partner stays. -/
def pairUp (combine : α → α → α) : List α → List α
  | a :: b :: rest => combine a b :: pairUp combine rest
  | rest => rest

theorem length_pairUp {n : ℕ} {l : List α} (h : l.length = 2 * n) :
    (pairUp combine l).length = n := by
  induction n generalizing l with
  | zero =>
    obtain rfl := length_eq_zero_iff.mp h
    rfl
  | succ n ih =>
    match l, h with
    | a :: b :: rest, h =>
      rw [pairUp, length_cons, ih]
      simp only [length_cons] at h
      omega

theorem getElem?_pairUp {n : ℕ} {l : List α} (h : l.length = 2 * n) {a b : α}
    (ha : l[2 * i]? = some a) (hb : l[2 * i + 1]? = some b) :
    (pairUp combine l)[i]? = some (combine a b) := by
  induction n generalizing l i with
  | zero =>
    obtain rfl := length_eq_zero_iff.mp h
    simp at ha
  | succ n ih =>
    match l, h with
    | c :: d :: rest, h =>
      cases i with
      | zero =>
        simp only [Nat.mul_zero, getElem?_cons_zero, Nat.zero_add, getElem?_cons_succ,
          some.injEq] at ha hb
        rw [ha, hb]
        rfl
      | succ i =>
        rw [pairUp, getElem?_cons_succ]
        simp only [length_cons] at h
        refine ih (by omega) ?_ ?_
        · simpa [Nat.mul_add] using ha
        · simpa [Nat.mul_add] using hb

/-- The nodes of a level. -/
def level (nodes : List α) (k : ℕ) : List α := (nodes.drop (2 ^ k - 1)).take (2 ^ k)

variable {height k : ℕ}

theorem length_level (hlength : nodes.length = 2 ^ (height + 1) - 1) (hk : k ≤ height) :
    (level nodes k).length = 2 ^ k := by
  have hpow : 2 ^ (k + 1) ≤ 2 ^ (height + 1) := Nat.pow_le_pow_right (by omega) (by omega)
  rw [level, length_take, length_drop, hlength]
  omega

theorem getElem?_level (hi : i < 2 ^ k) : (level nodes k)[i]? = nodes[2 ^ k - 1 + i]? := by
  rw [level, getElem?_take_of_lt hi, getElem?_drop]

/-- A level of a sound tree is the level below, paired up. -/
theorem pairUp_level (hlength : nodes.length = 2 ^ (height + 1) - 1) (hk : k < height)
    (hsound : ∀ i, Sound combine nodes i) :
    pairUp combine (level nodes (k + 1)) = level nodes k := by
  have hbelow := length_level hlength (show k + 1 ≤ height from hk)
  have hdouble : (level nodes (k + 1)).length = 2 * 2 ^ k := by rw [hbelow, pow_succ']
  refine ext_getElem? fun i => ?_
  by_cases hi : i < 2 ^ k
  · have hpow : 2 ^ (k + 1) = 2 * 2 ^ k := pow_succ'
    have hleft : 2 * i < (level nodes (k + 1)).length := by omega
    have hright : 2 * i + 1 < (level nodes (k + 1)).length := by omega
    have ha := getElem?_eq_getElem hleft
    have hb := getElem?_eq_getElem hright
    rw [getElem?_pairUp hdouble ha hb, getElem?_level hi]
    refine (hsound (2 ^ k - 1 + i) _ _ ?_ ?_).symm
    · rw [← ha, getElem?_level (by omega)]
      congr 1
      omega
    · rw [← hb, getElem?_level (by omega)]
      congr 1
      omega
  · rw [getElem?_eq_none (by rw [length_pairUp hdouble]; omega),
      getElem?_eq_none (by rw [length_level hlength hk.le]; omega)]

/-- **The root of a sound tree** is what its leaves come to, paired up level by level. -/
theorem iterate_pairUp (hlength : nodes.length = 2 ^ (height + 1) - 1)
    (hsound : ∀ i, Sound combine nodes i) :
    ((pairUp combine)^[height] (level nodes height)).head? = nodes[0]? := by
  have hiterate : ∀ n ≤ height, (pairUp combine)^[n] (level nodes height)
      = level nodes (height - n) := by
    intro n
    induction n with
    | zero => exact fun _ => rfl
    | succ n ih =>
      intro hn
      rw [iterate_succ_apply', ih (by omega),
        show height - n = height - (n + 1) + 1 by omega, pairUp_level hlength (by omega) hsound]
  have hfirst : 2 ^ 0 - 1 + 0 = 0 := rfl
  rw [hiterate height le_rfl, Nat.sub_self, head?_eq_getElem?, getElem?_level (by simp), hfirst]

/-! ### The way from a node to the root -/

/-- A value and its sibling in their order: the flag says whether the value is the right one. -/
def side (x : α) (s : α × Bool) : α × α := if s.2 then (s.1, x) else (x, s.1)

/-- What a value comes to with siblings, one after another. -/
def climb (combine : α → α → α) (x : α) (steps : List (α × Bool)) : α :=
  steps.foldl (fun x s => combine (side x s).1 (side x s).2) x

/-- The pairs that are combined on the way. -/
def climbPairs (combine : α → α → α) : α → List (α × Bool) → List (α × α)
  | _, [] => []
  | x, s :: steps => side x s :: climbPairs combine (combine (side x s).1 (side x s).2) steps

/-- The siblings of the nodes from `i` up, if they are there; the fuel bounds how many there are. -/
def siblings (nodes : List α) : ℕ → ℕ → Option (List (α × Bool))
  | 0, _ => some []
  | fuel + 1, i =>
    if i = 0 then some []
    else do
      let sibling ← nodes[if i % 2 = 1 then i + 1 else i - 1]?
      let steps ← siblings nodes fuel ((i - 1) / 2)
      return (sibling, decide (i % 2 = 0)) :: steps

/-- **The siblings lead to the root** of a sound tree in which every node has two children or none. -/
theorem climb_siblings (hlength : nodes.length % 2 = 1) (hsound : ∀ i, Sound combine nodes i)
    (hfuel : i ≤ fuel) (hx : nodes[i]? = some x) :
    ∃ steps, siblings nodes fuel i = some steps ∧ nodes[0]? = some (climb combine x steps) := by
  induction fuel generalizing i x with
  | zero =>
    obtain rfl : i = 0 := by omega
    exact ⟨[], rfl, hx⟩
  | succ fuel ih =>
    by_cases hi : i = 0
    · subst hi
      exact ⟨[], by simp [siblings], hx⟩
    have hlt := (List.getElem?_eq_some_iff.mp hx).1
    -- The other child of the node above `i`.
    have hother : (if i % 2 = 1 then i + 1 else i - 1) < nodes.length := by
      split_ifs <;> omega
    obtain ⟨s, hs⟩ : ∃ s, nodes[if i % 2 = 1 then i + 1 else i - 1]? = some s :=
      ⟨_, List.getElem?_eq_getElem hother⟩
    have habove : nodes[(i - 1) / 2]? = some (combine (side x (s, decide (i % 2 = 0))).1
        (side x (s, decide (i % 2 = 0))).2) := by
      by_cases hodd : i % 2 = 1
      · rw [if_pos hodd] at hs
        have heven : ¬ i % 2 = 0 := by omega
        simp only [side, heven, decide_false, Bool.false_eq_true, if_false]
        refine hsound _ x s ?_ ?_
        · rwa [show 2 * ((i - 1) / 2) + 1 = i by omega]
        · rwa [show 2 * ((i - 1) / 2) + 2 = i + 1 by omega]
      · rw [if_neg hodd] at hs
        have heven : i % 2 = 0 := by omega
        simp only [side, heven, decide_true, if_true]
        refine hsound _ s x ?_ ?_
        · rwa [show 2 * ((i - 1) / 2) + 1 = i - 1 by omega]
        · rwa [show 2 * ((i - 1) / 2) + 2 = i by omega]
    obtain ⟨steps, hsteps, hroot⟩ := ih (by omega) habove
    refine ⟨(s, decide (i % 2 = 0)) :: steps, ?_, hroot⟩
    rw [siblings, if_neg hi, hs, hsteps]
    rfl

/-- The pairs of a level. -/
def pairs : List α → List (α × α)
  | a :: b :: rest => (a, b) :: pairs rest
  | _ => []

section

variable {l : List α}

theorem mem_of_mem_pairs {q : α × α} (h : q ∈ pairs l) : q.1 ∈ l ∧ q.2 ∈ l := by
  induction l using pairs.induct with
  | case1 a b rest ih =>
    rw [pairs, mem_cons] at h
    rcases h with rfl | h
    · simp
    · obtain ⟨hleft, hright⟩ := ih h
      simp [hleft, hright]
  | case2 l hl => simp [pairs] at h

theorem mem_pairUp {n : ℕ} (hlength : l.length = 2 * n) (h : x ∈ pairUp combine l) :
    ∃ q ∈ pairs l, x = combine q.1 q.2 := by
  induction n generalizing l with
  | zero =>
    obtain rfl := length_eq_zero_iff.mp hlength
    simp [pairUp] at h
  | succ n ih =>
    match l, hlength with
    | a :: b :: rest, hlength =>
      rw [pairUp, mem_cons] at h
      rcases h with rfl | h
      · exact ⟨(a, b), mem_cons_self, rfl⟩
      · simp only [length_cons] at hlength
        obtain ⟨q, hq, hx⟩ := ih (by omega) h
        exact ⟨q, mem_cons_of_mem _ hq, hx⟩

theorem length_iterate_pairUp (combine : α → α → α) (hlength : l.length = 2 ^ height)
    (hk : k ≤ height) : ((pairUp combine)^[k] l).length = 2 ^ (height - k) := by
  induction k with
  | zero => exact hlength
  | succ k ih =>
    rw [iterate_succ_apply']
    refine length_pairUp ?_
    rw [ih (by omega), ← pow_succ', succ_eq_add_one]
    congr 1
    omega

/-- The length of a level below the root. -/
theorem length_iterate_pairUp_of_lt (combine : α → α → α)
    (hlength : l.length = 2 ^ height) (hk : k < height) :
    ((pairUp combine)^[k] l).length = 2 * 2 ^ (height - (k + 1)) := by
  rw [length_iterate_pairUp combine hlength hk.le, ← pow_succ', succ_eq_add_one]
  congr 1
  omega

/-- What is above the last level is combined from the level below. -/
theorem mem_iterate_pairUp_succ (hlength : l.length = 2 ^ height) (hk : k < height)
    (h : x ∈ (pairUp combine)^[k + 1] l) :
    ∃ q ∈ pairs ((pairUp combine)^[k] l), x = combine q.1 q.2 := by
  rw [iterate_succ_apply'] at h
  exact mem_pairUp (length_iterate_pairUp_of_lt combine hlength hk) h

end

theorem climbPairs_concat (combine : α → α → α) (x : α) (steps : List (α × Bool)) (s : α × Bool) :
    climbPairs combine x (steps ++ [s])
      = climbPairs combine x steps ++ [side (climb combine x steps) s] := by
  induction steps generalizing x with
  | nil => rfl
  | cons s' steps ih =>
    rw [cons_append, climbPairs, ih, climbPairs, cons_append]
    rfl

section

variable {S : Set (α × α)} (hinj : Set.InjOn (fun q : α × α => combine q.1 q.2) S)

include hinj

/-- **What leads to the root is a leaf.**  From the root down: a pair that comes to a node of a level
is the pair of that node, so the value before it is on the level below; and a value that is not
combined from anything is on the last level. -/
theorem mem_of_climb_mem {l : List α} {steps : List (α × Bool)}
    (hleaf : ∀ q ∈ S, combine q.1 q.2 ∉ l ∧ combine q.1 q.2 ≠ x)
    (hlength : l.length = 2 ^ height)
    (hlevels : ∀ j < height, ∀ q ∈ pairs ((pairUp combine)^[j] l), q ∈ S)
    (hclimb : ∀ q ∈ climbPairs combine x steps, q ∈ S) (hk : k ≤ height)
    (h : climb combine x steps ∈ (pairUp combine)^[k] l) : x ∈ l := by
  induction steps using reverseRecOn generalizing k with
  | nil =>
    cases k with
    | zero => exact h
    | succ k =>
      obtain ⟨q, hq, hx⟩ := mem_iterate_pairUp_succ hlength hk h
      exact absurd hx.symm (hleaf q (hlevels k hk q hq)).2
  | append_singleton steps s ih =>
    rw [climbPairs_concat] at hclimb
    have hlast : side (climb combine x steps) s ∈ S := hclimb _ (by simp)
    have htop : climb combine x (steps ++ [s]) = combine (side (climb combine x steps) s).1
        (side (climb combine x steps) s).2 := foldl_concat ..
    rw [htop] at h
    cases k with
    | zero => exact absurd h (hleaf _ hlast).1
    | succ k =>
      obtain ⟨q, hq, hsame⟩ := mem_iterate_pairUp_succ hlength hk h
      have hpair := hinj hlast (hlevels k hk q hq) hsame
      refine ih (k := k) (fun q hq => hclimb q (mem_append_left _ hq)) (by omega) ?_
      obtain ⟨hleft, hright⟩ := mem_of_mem_pairs hq
      rw [← hpair] at hleft hright
      unfold side at hleft hright
      split_ifs at hleft hright
      · exact hright
      · exact hleft

/-! ### What the root determines -/

theorem pairUp_inj {n : ℕ} {l l' : List α}
    (hlength : l.length = 2 * n) (hlength' : l'.length = 2 * n)
    (hl : ∀ q ∈ pairs l, q ∈ S) (hl' : ∀ q ∈ pairs l', q ∈ S)
    (h : pairUp combine l = pairUp combine l') : l = l' := by
  induction n generalizing l l' with
  | zero => rw [length_eq_zero_iff.mp hlength, length_eq_zero_iff.mp hlength']
  | succ n ih =>
    match l, l', hlength, hlength' with
    | a :: b :: rest, a' :: b' :: rest', hlength, hlength' =>
      simp only [pairs, forall_mem_cons] at hl hl'
      simp only [length_cons] at hlength hlength'
      obtain ⟨hfirst, hrest⟩ := cons.inj h
      cases hinj hl.1 hl'.1 hfirst
      rw [ih (by omega) (by omega) hl.2 hl'.2 hrest]

/-- **The root determines the last level**, and with it the height: downwards, a level determines the
one below, and a last level holds nothing that is combined. -/
theorem eq_of_iterate_pairUp_eq {height' k' : ℕ} {l l' : List α}
    (hleaf : ∀ q ∈ S, combine q.1 q.2 ∉ l ∧ combine q.1 q.2 ∉ l')
    (hlength : l.length = 2 ^ height) (hlength' : l'.length = 2 ^ height')
    (hlevels : ∀ j < height, ∀ q ∈ pairs ((pairUp combine)^[j] l), q ∈ S)
    (hlevels' : ∀ j < height', ∀ q ∈ pairs ((pairUp combine)^[j] l'), q ∈ S)
    (hk : k ≤ height) (hk' : k' ≤ height')
    (h : (pairUp combine)^[k] l = (pairUp combine)^[k'] l') : l = l' := by
  have hnonempty : ∀ l : List α, ∀ height, l.length = 2 ^ height → ∃ x, x ∈ l := by
    intro l height hlength
    exact exists_mem_of_length_pos (hlength ▸ Nat.two_pow_pos height)
  induction k generalizing k' with
  | zero =>
    cases k' with
    | zero => exact h
    | succ k' =>
      obtain ⟨x, hx⟩ := hnonempty l _ hlength
      have hcombined : x ∈ (pairUp combine)^[k' + 1] l' := by rwa [← h]
      obtain ⟨q, hq, rfl⟩ := mem_iterate_pairUp_succ hlength' hk' hcombined
      exact absurd hx (hleaf q (hlevels' k' hk' q hq)).1
  | succ k ih =>
    cases k' with
    | zero =>
      obtain ⟨x, hx⟩ := hnonempty l' _ hlength'
      have hcombined : x ∈ (pairUp combine)^[k + 1] l := by rwa [h]
      obtain ⟨q, hq, rfl⟩ := mem_iterate_pairUp_succ hlength hk hcombined
      exact absurd hx (hleaf q (hlevels k hk q hq)).2
    | succ k' =>
      have hlower := length_iterate_pairUp_of_lt combine hlength hk
      have hlower' := length_iterate_pairUp_of_lt combine hlength' hk'
      rw [iterate_succ_apply', iterate_succ_apply'] at h
      have hsame : 2 ^ (height - (k + 1)) = 2 ^ (height' - (k' + 1)) := by
        rw [← length_pairUp hlower, h, length_pairUp hlower']
      rw [← hsame] at hlower'
      exact ih (by omega) (by omega)
        (pairUp_inj hinj hlower hlower' (hlevels k hk) (hlevels' k' hk') h)

end

end HeapTree
