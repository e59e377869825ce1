import Mathlib.Tactic.Common

/-!
# Runs of a labelled transition relation

A system moves from state to state by steps that carry a label: a message that arrives, a call, a
block that is executed.  `Steps step s as t` says that the steps with the labels `as` lead from
`s` to `t`.

## Main results

* `Trace.Steps.invariant`: what holds at the start and survives every step holds at the end.
* `Trace.Steps.history`: the same with the labels so far.
* `Trace.Steps.and_iff`: two conditions on the steps that agree where an invariant holds.
* `Trace.Steps.forall_label`: what every step says of its label.
-/

namespace Trace

open Option

variable {S L : Type}

/-- The steps labelled `as` lead from the first state to the second. -/
inductive Steps (step : S → L → S → Prop) : S → List L → S → Prop
  | nil (s : S) : Steps step s [] s
  | cons {s t u : S} {a : L} {as : List L} (head : step s a t) (tail : Steps step t as u) :
      Steps step s (a :: as) u

variable {step : S → L → S → Prop} {s t : S} {as : List L}

theorem Steps.nil_iff : Steps step s [] t ↔ t = s := by
  constructor
  · rintro ⟨⟩
    rfl
  · rintro rfl
    exact .nil _

theorem Steps.cons_iff {a : L} : Steps step s (a :: as) t ↔ ∃ u, step s a u ∧ Steps step u as t := by
  constructor
  · rintro (_ | ⟨head, tail⟩)
    exact ⟨_, head, tail⟩
  · rintro ⟨u, head, tail⟩
    exact .cons head tail

/-- **The invariant rule.**  A property of states that every step with an admitted label keeps
holds at the end of every run with admitted labels. -/
theorem Steps.invariant {I : S → Prop} {G : L → Prop}
    (hstep : ∀ s a t, I s → G a → step s a t → I t) (h : Steps step s as t) (hI : I s)
    (hG : ∀ a ∈ as, G a) : I t := by
  induction h with
  | nil s => exact hI
  | cons head tail ih =>
    have hhead := hstep _ _ _ hI (hG _ (by simp)) head
    exact ih hhead fun a ha => hG a (by simp [ha])

/-- **The rule for histories.**  A property of the labels so far and the state that every step keeps
holds at the end of every run. -/
theorem Steps.history {I : List L → S → Prop}
    (hstep : ∀ before s a t, I before s → step s a t → I (before ++ [a]) t)
    (h : Steps step s as t) (before : List L) (hI : I before s) : I (before ++ as) t := by
  induction h generalizing before with
  | nil s => simpa using hI
  | cons head tail ih => simpa using ih _ (hstep _ _ _ _ hI head)

/-- Two properties of steps that agree where an invariant holds agree along runs that keep it. -/
theorem Steps.and_iff {I : S → Prop} {A B : S → L → S → Prop}
    (hkeep : ∀ s a t, I s → step s a t → A s a t → I t)
    (h : ∀ s a t, I s → step s a t → (A s a t ↔ B s a t)) (hI : I s) :
    Steps (fun s a t => step s a t ∧ A s a t) s as t ↔
      Steps (fun s a t => step s a t ∧ B s a t) s as t := by
  induction as generalizing s with
  | nil => rw [nil_iff, nil_iff]
  | cons a as ih =>
    rw [cons_iff, cons_iff]
    constructor
    · rintro ⟨u, ⟨hstep, hA⟩, htail⟩
      exact ⟨u, ⟨hstep, (h s a u hI hstep).mp hA⟩, (ih (hkeep s a u hI hstep hA)).mp htail⟩
    · rintro ⟨u, ⟨hstep, hB⟩, htail⟩
      have hA := (h s a u hI hstep).mpr hB
      exact ⟨u, ⟨hstep, hA⟩, (ih (hkeep s a u hI hstep hA)).mpr htail⟩

theorem Steps.append {u : S} {bs : List L} (h : Steps step s as t) (h' : Steps step t bs u) :
    Steps step s (as ++ bs) u := by
  induction h with
  | nil s => exact h'
  | cons head tail ih => exact .cons head (ih h')

/-- What every step says of its label holds of all labels of a run. -/
theorem Steps.forall_label {Q : L → Prop} (hstep : ∀ s a t, step s a t → Q a)
    (h : Steps step s as t) : ∀ a ∈ as, Q a := by
  induction h with
  | nil s => simp
  | cons head tail ih => exact List.forall_mem_cons.mpr ⟨hstep _ _ _ head, ih⟩

/-- The run of a system whose steps are a function. -/
theorem Steps.foldl (f : S → L → S) (as : List L) (s : S) :
    Steps (fun s a t => f s a = t) s as (as.foldl f s) := by
  induction as generalizing s with
  | nil => exact .nil s
  | cons a as ih => exact .cons rfl (ih (f s a))

/-- The run of a system whose steps are a partial function. -/
theorem Steps.of_foldlM {f : S → L → Option S} (h : as.foldlM f s = some t) :
    Steps (fun s a t => f s a = some t) s as t := by
  induction as generalizing s with
  | nil =>
    obtain rfl := some.inj h
    exact .nil s
  | cons a as ih =>
    rw [List.foldlM_cons] at h
    obtain ⟨u, hu, h⟩ := bind_eq_some_iff.mp h
    exact .cons hu (ih h)

/-- The same for a partial function whose steps are labelled by what it was given. -/
theorem Steps.exists_of_foldlM {M : Type} {f : S → M → Option S}
    (hstep : ∀ s m t, f s m = some t → ∃ a, step s a t) {ms : List M}
    (h : ms.foldlM f s = some t) : ∃ as, Steps step s as t := by
  induction ms generalizing s with
  | nil =>
    obtain rfl := some.inj h
    exact ⟨[], .nil s⟩
  | cons m ms ih =>
    rw [List.foldlM_cons] at h
    obtain ⟨u, hu, h⟩ := bind_eq_some_iff.mp h
    obtain ⟨a, hhead⟩ := hstep s m u hu
    obtain ⟨as, htail⟩ := ih h
    exact ⟨a :: as, .cons hhead htail⟩

/-- A run of a relation is a run of every weaker one. -/
theorem Steps.mono {step' : S → L → S → Prop} (hstep : ∀ s a t, step s a t → step' s a t)
    (h : Steps step s as t) : Steps step' s as t := by
  induction h with
  | nil s => exact .nil s
  | cons head tail ih => exact .cons (hstep _ _ _ head) ih

end Trace
