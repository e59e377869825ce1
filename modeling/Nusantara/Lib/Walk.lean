import Mathlib.Data.Finset.Card
import Mathlib.Data.Fintype.Card
import Mathlib.Data.List.Nodup
import Mathlib.Logic.Relation
import Mathlib.Order.Defs.LinearOrder

/-!
# Walks to a root

Every point has at most one next point.  A walk lists the points from a start to the first that has
none; there is one from every point that is not led into a cycle.

## Main results

* `Walk.suffix`: from every point of a walk the rest of it is a walk.
* `Walk.nodup`: a walk comes to no point twice, so it is no longer than what it stays in.
* `Walk.cut`: the walk that stops at a point it passed.
* `Walk.exists_iff_acyclic`: on finitely many points there is a walk from everywhere exactly if there
  is no cycle.
* `Walk.mem_of_le`: a walk that descends comes from a point to every lower point it passes.
-/

variable {α : Type} {up up' : α → Option α} {x y z : α} {l l' : List α}

/-- The walk from a start along `up`, to the first point without a next one. -/
inductive Walk (up : α → Option α) : α → List α → Prop
  | stop {x : α} (h : up x = none) : Walk up x [x]
  | step {x y : α} {l : List α} (h : up x = some y) (w : Walk up y l) : Walk up x (x :: l)

namespace Walk

open List

section

variable (w : Walk up x l)

include w

theorem head_mem : x ∈ l := by
  cases w <;> exact mem_cons_self

theorem head?_eq : l.head? = some x := by
  cases w <;> rfl

theorem unique (w' : Walk up x l') : l = l' := by
  induction w generalizing l' with
  | stop h =>
    cases w' with
    | stop => rfl
    | step h' => exact absurd (h.symm.trans h') (by simp)
  | step h w ih =>
    cases w' with
    | stop h' => exact absurd (h.symm.trans h') (by simp)
    | step h' w' =>
      cases h.symm.trans h'
      rw [ih w']

/-- From every point of a walk the rest of it is a walk. -/
theorem suffix (hy : y ∈ l) : ∃ l', Walk up y l' ∧ l' <:+ l := by
  induction w with
  | stop h =>
    obtain rfl := mem_singleton.mp hy
    exact ⟨_, .stop h, suffix_rfl⟩
  | step h w ih =>
    rcases mem_cons.mp hy with rfl | hy
    · exact ⟨_, .step h w, suffix_rfl⟩
    · obtain ⟨l', w', hl'⟩ := ih hy
      exact ⟨l', w', hl'.trans (suffix_cons _ _)⟩

/-- A walk comes to no point twice: the walk from there would be a part of itself. -/
theorem nodup : l.Nodup := by
  induction w with
  | stop => exact nodup_singleton _
  | step h w ih =>
    refine nodup_cons.mpr ⟨fun hx => ?_, ih⟩
    obtain ⟨l', w', hsuf⟩ := w.suffix hx
    have hlen := hsuf.length_le
    rw [w'.unique (.step h w), length_cons] at hlen
    omega

/-- Points on each other's walks are equal. -/
theorem antisymm (w' : Walk up y l') (hy : y ∈ l) (hx : x ∈ l') : x = y := by
  cases w with
  | stop => exact (mem_singleton.mp hy).symm
  | step h w =>
    rcases mem_cons.mp hy with rfl | hy
    · rfl
    -- Otherwise the walk comes back to `x`.
    obtain ⟨l₁, w₁, hsuf⟩ := w.suffix hy
    obtain rfl := w₁.unique w'
    have hnodup := (Walk.step h w).nodup
    exact absurd (hsuf.subset hx) (nodup_cons.mp hnodup).1

theorem isChain : l.IsChain fun a b => up a = some b := by
  induction w with
  | stop => exact .singleton _
  | step h w ih =>
    cases w with
    | stop | step => exact .cons_cons h ih

theorem exists_up_of_mem_dropLast (hy : y ∈ l.dropLast) :
    ∃ z, up y = some z := by
  induction w with
  | stop => simp at hy
  | step h w ih =>
    rw [dropLast_cons_of_ne_nil (ne_nil_of_mem w.head_mem)] at hy
    rcases mem_cons.mp hy with rfl | hy
    · exact ⟨_, h⟩
    · exact ih hy

end

/-- A walk has at most one point more than there are points with a next one. -/
theorem length_le_card_succ [DecidableEq α] (w : Walk up x l) {s : Finset α}
    (hs : ∀ y z, up y = some z → y ∈ s) : l.length ≤ s.card + 1 := by
  have hsub : l.dropLast.toFinset ⊆ s := by
    intro y hy
    obtain ⟨z, hz⟩ := w.exists_up_of_mem_dropLast (mem_toFinset.mp hy)
    exact hs y z hz
  have hcard := Finset.card_le_card hsub
  rw [toFinset_card_of_nodup (w.nodup.sublist (dropLast_sublist l)),
    length_dropLast] at hcard
  omega

theorem congr (w : Walk up x l) (h : ∀ y ∈ l, up' y = up y) : Walk up' x l := by
  induction w with
  | stop hx => exact .stop ((h _ mem_cons_self).trans hx)
  | step hx w ih =>
    refine .step ((h _ mem_cons_self).trans hx) (ih fun y hy => h y ?_)
    exact mem_cons_of_mem _ hy

/-- From a point before another, the walk comes to the other. -/
theorem of_mem_takeWhile [DecidableEq α] (w : Walk up x l) (hz : z ∈ l)
    (hy : y ∈ l.takeWhile (· ≠ z)) : ∃ l', Walk up y l' ∧ z ∈ l' := by
  induction w with
  | @stop x =>
    have hxz : z = x := mem_singleton.mp hz
    simp [hxz] at hy
  | @step x _ l h w ih =>
    by_cases hxz : x = z
    · simp [hxz] at hy
    · have hzl : z ∈ l := (mem_cons.mp hz).resolve_left fun heq => hxz heq.symm
      simp only [ne_eq, takeWhile_cons, hxz, not_false_eq_true, decide_true, if_true,
        mem_cons] at hy
      rcases hy with rfl | hy
      · exact ⟨_, .step h w, mem_cons_of_mem _ hzl⟩
      · exact ih hzl hy

theorem takeWhile_ne_cons [DecidableEq α] (hxz : x ≠ z) :
    (x :: l).takeWhile (· ≠ z) = x :: l.takeWhile (· ≠ z) := by
  simp [hxz]

/-- The walk that stops at a point it passed. -/
theorem cut [DecidableEq α] (w : Walk up x l) (hz : z ∈ l) (hstop : up' z = none)
    (h : ∀ y ∈ l.takeWhile (· ≠ z), up' y = up y) :
    Walk up' x (l.takeWhile (· ≠ z) ++ [z]) := by
  induction w with
  | stop =>
    obtain rfl := mem_singleton.mp hz
    simpa using Walk.stop hstop
  | @step x y l hx w ih =>
    by_cases hxz : x = z
    · subst hxz
      simpa using Walk.stop hstop
    · have hzl : z ∈ l := (mem_cons.mp hz).resolve_left fun heq => hxz heq.symm
      rw [takeWhile_ne_cons hxz] at h ⊢
      have hup : up' x = some y := (h x mem_cons_self).trans hx
      exact .step hup (ih hzl fun y hy => h y (mem_cons_of_mem _ hy))

/-! ### Reaching -/

/-- What is reached from a point is on the walk from there. -/
theorem reaches_iff (w : Walk up x l) :
    Relation.ReflTransGen (fun a b => up a = some b) x y ↔ y ∈ l := by
  induction w with
  | stop h =>
    rw [mem_singleton]
    constructor
    · intro hy
      rcases Relation.ReflTransGen.cases_head hy with heq | ⟨z, hz, -⟩
      · exact heq.symm
      · rw [h] at hz
        cases hz
    · rintro rfl
      exact .refl
  | step h w ih =>
    rw [mem_cons, ← ih]
    constructor
    · intro hy
      rcases Relation.ReflTransGen.cases_head hy with heq | ⟨z, hz, hzy⟩
      · exact .inl heq.symm
      · cases h.symm.trans hz
        exact .inr hzy
    · rintro (rfl | hy)
      · exact .refl
      · exact .head h hy

/-- A point with a walk is not on a cycle. -/
theorem not_transGen (w : Walk up x l) : ¬ Relation.TransGen (fun a b => up a = some b) x x := by
  intro hcycle
  obtain ⟨z, hz, hzx⟩ := Relation.TransGen.head'_iff.mp hcycle
  cases w with
  | stop h =>
    rw [h] at hz
    cases hz
  | step h w =>
    cases h.symm.trans hz
    exact (nodup_cons.mp (Walk.step h w).nodup).1 (w.reaches_iff.mp hzx)

/-- **Walks and cycles.**  Among finitely many points there is a walk from every point exactly if
there is no cycle. -/
theorem exists_iff_acyclic [Finite α] : (∀ x, ∃ l, Walk up x l) ↔
    ∀ x, ¬ Relation.TransGen (fun a b => up a = some b) x x := by
  constructor
  · intro h x
    obtain ⟨l, w⟩ := h x
    exact w.not_transGen
  · intro h x
    let next : α → α → Prop := fun b a => up a = some b
    have hirrefl : Std.Irrefl (Relation.TransGen next) :=
      ⟨fun a hcycle => h a (Relation.transGen_swap.mp hcycle)⟩
    have hwf : WellFounded next :=
      Subrelation.wf (fun hab => .single hab)
        (Finite.wellFounded_of_trans_of_irrefl (Relation.TransGen next))
    induction x using hwf.induction with
    | _ x ih =>
      cases hx : up x with
      | none => exact ⟨_, .stop hx⟩
      | some y =>
        obtain ⟨l, w⟩ := ih y hx
        exact ⟨_, .step hx w⟩

/-! ### Descending walks -/

section Order

variable [LinearOrder α]

theorem le_head (w : Walk up x l) (hl : l.Pairwise (· > ·)) (hy : y ∈ l) : y ≤ x := by
  cases w with
  | stop => exact (mem_singleton.mp hy).le
  | step h w =>
    rcases mem_cons.mp hy with rfl | hy
    · exact le_rfl
    · exact ((pairwise_cons.mp hl).1 y hy).le

/-- A walk that descends comes from a point to every lower point it passes. -/
theorem mem_of_le (w : Walk up x l) (hl : l.Pairwise (· > ·)) (hz : z ∈ l) (w' : Walk up z l')
    (hy : y ∈ l) (hle : y ≤ z) : y ∈ l' := by
  induction w with
  | stop h =>
    obtain rfl := mem_singleton.mp hz
    exact w'.unique (.stop h) ▸ hy
  | step h w ih =>
    obtain ⟨hlt, htail⟩ := pairwise_cons.mp hl
    rcases mem_cons.mp hz with rfl | hzl
    · exact w'.unique (.step h w) ▸ hy
    · rcases mem_cons.mp hy with rfl | hyl
      · exact absurd hle (hlt z hzl).not_ge
      · exact ih htail hzl hyl

/-- A walk that is cut at a point has lost lower points only. -/
theorem mem_cut_or_le (hl : l.Pairwise (· > ·)) (hz : z ∈ l) (hy : y ∈ l) :
    y ∈ l.takeWhile (· ≠ z) ∨ y ≤ z := by
  induction l with
  | nil => simp at hy
  | cons x l ih =>
    obtain ⟨hlt, htail⟩ := pairwise_cons.mp hl
    by_cases hxz : x = z
    · subst hxz
      rcases mem_cons.mp hy with rfl | hy
      · exact .inr le_rfl
      · exact .inr (hlt y hy).le
    · have hzl : z ∈ l := (mem_cons.mp hz).resolve_left fun heq => hxz heq.symm
      rw [takeWhile_ne_cons hxz]
      rcases mem_cons.mp hy with rfl | hy
      · exact .inl mem_cons_self
      · exact (ih htail hzl hy).imp_left (mem_cons_of_mem _)

end Order

theorem cut_sublist [DecidableEq α] (hz : z ∈ l) : (l.takeWhile (· ≠ z) ++ [z]).Sublist l := by
  induction l with
  | nil => simp at hz
  | cons x l ih =>
    by_cases hxz : x = z
    · subst hxz
      simp
    · have hzl : z ∈ l := (mem_cons.mp hz).resolve_left fun heq => hxz heq.symm
      rw [takeWhile_ne_cons hxz]
      exact (ih hzl).cons_cons x

end Walk
