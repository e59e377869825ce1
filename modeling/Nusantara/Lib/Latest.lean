import Mathlib.Order.Bounds.Basic
import Mathlib.Tactic.Common

/-!
# The latest of a set of times

A store that keeps a value in several versions answers a read with the latest version the reader
may see.  `IsLatest A o` says that `o` is the latest of the times `A`, or `none` if there is none.

The rules say how the latest time moves: it stays when the reader comes to see less but still sees
it (`IsLatest.restrict`), a new version that is not before any other takes its place
(`IsLatest.insert`), and any other new version leaves it (`IsLatest.insert_cases`).
-/

section

variable {T : Type} [LinearOrder T] {A B : Set T} {o o' : Option T} {t : T}

/-- `o` is the latest of the times in `A`, or `none` if there is none. -/
def IsLatest (A : Set T) : Option T → Prop
  | some t => IsGreatest A t
  | none => A = ∅

namespace IsLatest

/-- There is one latest time at most. -/
theorem unique (h : IsLatest A o) (h' : IsLatest A o') : o = o' := by
  cases o with
  | none =>
    cases o' with
    | none => rfl
    | some t =>
      have hmem : t ∈ A := h'.1
      rw [show A = ∅ from h] at hmem
      exact absurd hmem (Set.notMem_empty t)
  | some t =>
    cases o' with
    | none =>
      have hmem : t ∈ A := h.1
      rw [show A = ∅ from h'] at hmem
      exact absurd hmem (Set.notMem_empty t)
    | some t' => rw [IsGreatest.unique h h']

/-- Who sees less, but still the latest time, has the same latest time. -/
theorem restrict (h : IsLatest A o) (hBA : B ⊆ A) (ho : ∀ t, o = some t → t ∈ B) :
    IsLatest B o := by
  cases o with
  | none => exact Set.subset_empty_iff.mp (hBA.trans_eq h)
  | some t => exact ⟨ho t rfl, fun b hb => h.2 (hBA hb)⟩

/-- A time that is not before any other is the latest. -/
theorem insert (h : ∀ a ∈ A, a ≤ t) : IsLatest (Insert.insert t A) (some t) := by
  refine ⟨Set.mem_insert t A, ?_⟩
  rintro a (rfl | ha)
  · exact le_rfl
  · exact h a ha

/-- A new time is the latest, or the latest is still another one. -/
theorem insert_cases (h : IsLatest A o) (t : T) :
    IsLatest (Insert.insert t A) (some t) ∨ o ≠ some t ∧ IsLatest (Insert.insert t A) o := by
  cases o with
  | none =>
    left
    rw [show A = ∅ from h]
    exact insert fun a ha => absurd ha (Set.notMem_empty a)
  | some u =>
    rcases le_or_gt u t with hle | hlt
    · exact .inl (insert fun a ha => (h.2 ha).trans hle)
    · refine .inr ⟨fun heq => hlt.ne' (Option.some.inj heq), Set.mem_insert_of_mem t h.1, ?_⟩
      rintro a (rfl | ha)
      · exact hlt.le
      · exact h.2 ha

end IsLatest

end
