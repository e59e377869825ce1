import Mathlib.Logic.Basic
import Mathlib.Tactic.Common

/-!
# Computations with a state, errors and faults

`Exec φ σ ε α` is the type of a computation over a state `σ` that ends in one of three ways
(`Outcome`):

* it returns a value, together with the state it reached;
* it fails with an error `ε`.  The state reached so far is **kept**: the caller of a fallible
  function that works on a mutable borrow sees whatever the function wrote before it failed;
* it stops with a fault `φ`, which no caller can observe (an abort).

Two ways of reasoning are provided.  The `_eq_ok` lemmas invert a successful run step by step;
tagged for `simp`, they turn `m.run s = .ok a s'` into the list of facts the run has checked.
`Spec` is a triple with one postcondition for each way of ending, and `Keeps` the special case
of an invariant that no step breaks.

## Main results

* `Exec.bind_eq_ok`, `Exec.bind_eq_err`, `Exec.bind_eq_fault`: how a sequence can end.
* `Exec.Spec.bind`, `Exec.Keeps.bind`, `Exec.Keeps.require_bind`: the rules of composition.
-/

/-- How a computation ends: with a value, with an error, or with a fault. -/
inductive Outcome (φ σ ε α : Type) where
  /-- It returned `a` in state `s`. -/
  | ok (a : α) (s : σ)
  /-- It failed with `e`, leaving the state `s`. -/
  | err (e : ε) (s : σ)
  /-- It stopped at the fault `f`. -/
  | fault (f : φ)
  deriving DecidableEq, Repr

/-! ### Evaluation

That a run on a fixed input ends in some way, and what holds of its result, is decided by running it. -/

section Evaluation

variable {φ σ ε α : Type}

instance decidableSome (o : Option α) (p : α → Prop) [DecidablePred p] :
    Decidable (∃ a, o = some a ∧ p a) :=
  decidable_of_iff (o.any (p ·)) (by cases o <;> simp)

instance decidableExceptOk (x : Except ε α) (p : α → Prop) [DecidablePred p] :
    Decidable (∃ a, x = .ok a ∧ p a) :=
  match x with
  | .error _ => .isFalse fun ⟨_, h, _⟩ => nomatch h
  | .ok a => decidable_of_iff (p a) ⟨fun h => ⟨a, rfl, h⟩, fun ⟨_, h, hp⟩ => Except.ok.inj h ▸ hp⟩

instance decidableOutcomeOk (o : Outcome φ σ ε α) (p : α → σ → Prop) [∀ a s, Decidable (p a s)] :
    Decidable (∃ a s, o = .ok a s ∧ p a s) :=
  match o with
  | .ok a s => decidable_of_iff (p a s)
      ⟨fun h => ⟨a, s, rfl, h⟩, by rintro ⟨_, _, h, hp⟩; cases h; exact hp⟩
  | .err _ _ | .fault _ => .isFalse fun ⟨_, _, h, _⟩ => nomatch h

instance decidableOutcomeErr (o : Outcome φ σ ε α) (p : ε → σ → Prop) [∀ e s, Decidable (p e s)] :
    Decidable (∃ e s, o = .err e s ∧ p e s) :=
  match o with
  | .err e s => decidable_of_iff (p e s)
      ⟨fun h => ⟨e, s, rfl, h⟩, by rintro ⟨_, _, h, hp⟩; cases h; exact hp⟩
  | .ok _ _ | .fault _ => .isFalse fun ⟨_, _, h, _⟩ => nomatch h

/-- The state of a computation that returned. -/
def Outcome.okState : Outcome φ σ ε α → Option σ
  | .ok _ s => some s
  | _ => none

theorem Outcome.okState_eq_some {o : Outcome φ σ ε α} {s : σ} :
    o.okState = some s ↔ ∃ a, o = .ok a s := by
  cases o <;> simp [okState]

end Evaluation

/-- A computation over the state `σ` with errors `ε` and faults `φ`. -/
structure Exec (φ σ ε α : Type) where
  /-- How the computation ends when started in a given state. -/
  run : σ → Outcome φ σ ε α

namespace Exec

open List

variable {φ σ ε α β : Type}

/-- Return `a`, leaving the state alone. -/
protected def pure (a : α) : Exec φ σ ε α := ⟨fun s => .ok a s⟩

/-- Run `x`, then `f` on its value; an error or a fault of `x` ends the sequence. -/
protected def bind (x : Exec φ σ ε α) (f : α → Exec φ σ ε β) : Exec φ σ ε β := ⟨fun s =>
  match x.run s with
  | .ok a s' => (f a).run s'
  | .err e s' => .err e s'
  | .fault c => .fault c⟩

instance : Monad (Exec φ σ ε) where
  pure := Exec.pure
  bind := Exec.bind

/-- Fail with `e`, keeping the state. -/
def throw (e : ε) : Exec φ σ ε α := ⟨fun s => .err e s⟩

/-- Stop at the fault `f`. -/
def abort (f : φ) : Exec φ σ ε α := ⟨fun _ => .fault f⟩

/-- The current state. -/
def get : Exec φ σ ε σ := ⟨fun s => .ok s s⟩

/-- Replace the state. -/
def set (s' : σ) : Exec φ σ ε Unit := ⟨fun _ => .ok () s'⟩

/-- Go on only if `p` holds; fail with `e` otherwise. -/
def require (p : Prop) [Decidable p] (e : ε) : Exec φ σ ε Unit :=
  if p then Exec.pure () else throw e

/-- The value of an option, or the error `e`. -/
def ofOption (e : ε) : Option α → Exec φ σ ε α
  | some a => Exec.pure a
  | none => throw e

/-- The value of a stateless fallible computation. -/
def ofExcept : Except ε α → Exec φ σ ε α
  | .ok a => Exec.pure a
  | .error e => throw e

/-- The value of a stateless computation that may stop at a fault. -/
def ofFault : Except φ α → Exec φ σ ε α
  | .ok a => Exec.pure a
  | .error f => abort f

/-! ### Inversion of a run -/

section Inversion

variable {x : Exec φ σ ε α} {f : α → Exec φ σ ε β} {s s' : σ} {b : β} {e : ε} {c : φ}

/-- The value of a computation that returns nothing is no choice. -/
theorem exists_unit {p : Unit → Prop} : (∃ u, p u) ↔ p () :=
  ⟨fun ⟨_, h⟩ => h, fun h => ⟨(), h⟩⟩

theorem run_bind : (x >>= f).run s = match x.run s with
    | .ok a s' => (f a).run s'
    | .err e s' => .err e s'
    | .fault c => .fault c := rfl

/-- A sequence returns iff both parts do. -/
@[simp] theorem bind_eq_ok :
    (x >>= f).run s = .ok b s' ↔ ∃ a t, x.run s = .ok a t ∧ (f a).run t = .ok b s' := by
  rw [run_bind]
  cases x.run s <;> simp

/-- A sequence fails iff its first part does, or its second after the first returned. -/
theorem bind_eq_err :
    (x >>= f).run s = .err e s' ↔
      x.run s = .err e s' ∨ ∃ a t, x.run s = .ok a t ∧ (f a).run t = .err e s' := by
  rw [run_bind]
  cases x.run s <;> simp

/-- A sequence stops iff its first part does, or its second after the first returned. -/
theorem bind_eq_fault :
    (x >>= f).run s = .fault c ↔
      x.run s = .fault c ∨ ∃ a t, x.run s = .ok a t ∧ (f a).run t = .fault c := by
  rw [run_bind]
  cases x.run s <;> simp

theorem bind_of_ok {a : α} (h : x.run s = .ok a s') : (x >>= f).run s = (f a).run s' := by
  rw [run_bind, h]

theorem bind_assoc {g : β → Exec φ σ ε γ} : x >>= f >>= g = x >>= fun a => f a >>= g := by
  refine congrArg Exec.mk (funext fun s => ?_)
  change (match (x >>= f).run s with | .ok b s' => _ | .err e s' => _ | .fault c => _) = _
  rw [run_bind]
  cases x.run s <;> rfl

theorem bind_of_fault (h : x.run s = .fault c) : (x >>= f).run s = .fault c := by
  rw [run_bind, h]

end Inversion

section Primitives

variable {s s' : σ} {a : α} {e e' : ε} {u : Unit} {c : φ} {p : Prop} [Decidable p]

@[simp] theorem run_pure : (pure a : Exec φ σ ε α).run s = .ok a s := rfl

@[simp] theorem run_throw : (throw e : Exec φ σ ε α).run s = .err e s := rfl

@[simp] theorem run_get : (get : Exec φ σ ε σ).run s = .ok s s := rfl

@[simp] theorem run_set : (set s' : Exec φ σ ε Unit).run s = .ok () s' := rfl

theorem run_ofOption_some : (ofOption e (some a) : Exec φ σ ε α).run s = .ok a s := rfl

theorem run_ofExcept_ok : (ofExcept (.ok a) : Exec φ σ ε α).run s = .ok a s := rfl

theorem run_ofExcept_error : (ofExcept (.error e) : Exec φ σ ε α).run s = .err e s := rfl

theorem run_require :
    (require p e : Exec φ σ ε Unit).run s = if p then .ok () s else .err e s := by
  unfold require
  split <;> rfl

@[simp] theorem require_eq_ok :
    (require p e : Exec φ σ ε Unit).run s = .ok u s' ↔ p ∧ s = s' := by
  rw [run_require]
  split <;> simp_all

@[simp] theorem require_eq_err :
    (require p e : Exec φ σ ε Unit).run s = .err e' s' ↔ ¬p ∧ e = e' ∧ s = s' := by
  rw [run_require]
  split <;> simp_all

@[simp] theorem require_ne_fault : (require p e : Exec φ σ ε Unit).run s ≠ .fault c := by
  rw [run_require]
  split <;> simp

@[simp] theorem ofOption_eq_ok {o : Option α} :
    (ofOption e o : Exec φ σ ε α).run s = .ok a s' ↔ o = some a ∧ s = s' := by
  cases o <;> simp [ofOption, throw, Exec.pure]

@[simp] theorem ofOption_ne_fault {o : Option α} :
    (ofOption e o : Exec φ σ ε α).run s ≠ .fault c := by
  cases o <;> simp [ofOption, throw, Exec.pure]

@[simp] theorem ofExcept_eq_ok {o : Except ε α} :
    (ofExcept o : Exec φ σ ε α).run s = .ok a s' ↔ o = .ok a ∧ s = s' := by
  cases o <;> simp [ofExcept, throw, Exec.pure]

@[simp] theorem ofExcept_ne_fault {o : Except ε α} :
    (ofExcept o : Exec φ σ ε α).run s ≠ .fault c := by
  cases o <;> simp [ofExcept, throw, Exec.pure]

@[simp] theorem ofFault_eq_ok {o : Except φ α} :
    (ofFault o : Exec φ σ ε α).run s = .ok a s' ↔ o = .ok a ∧ s = s' := by
  cases o <;> simp [ofFault, abort, Exec.pure]

@[simp] theorem ofFault_ne_err {o : Except φ α} :
    (ofFault o : Exec φ σ ε α).run s ≠ .err e s' := by
  cases o <;> simp [ofFault, abort, Exec.pure]

@[simp] theorem ofExcept_eq_err {o : Except ε α} :
    (ofExcept o : Exec φ σ ε α).run s = .err e s' ↔ o = .error e ∧ s = s' := by
  cases o <;> simp [ofExcept, throw, Exec.pure]

@[simp] theorem ofOption_eq_err {o : Option α} :
    (ofOption e o : Exec φ σ ε α).run s = .err e' s' ↔ o = none ∧ e = e' ∧ s = s' := by
  cases o <;> simp [ofOption, throw, Exec.pure]

end Primitives

/-! ### Stateless computations -/

section Stateless

variable {x : Except ε α} {f : α → Except ε β} {b : β} {e : ε}

theorem exceptBind_eq_ok : x >>= f = .ok b ↔ ∃ a, x = .ok a ∧ f a = .ok b := by
  cases x <;> simp [bind, Except.bind]

theorem exceptBind_ok {a : α} (hx : x = .ok a) (hf : ∃ b, f a = .ok b) :
    ∃ b, x >>= f = .ok b := by
  obtain ⟨b, hb⟩ := hf
  exact ⟨b, exceptBind_eq_ok.mpr ⟨a, hx, hb⟩⟩

theorem exceptBind_eq_error :
    x >>= f = .error e ↔ x = .error e ∨ ∃ a, x = .ok a ∧ f a = .error e := by
  cases x <;> simp [bind, Except.bind]

theorem exceptToOption_eq_some {a : α} : x.toOption = some a ↔ x = .ok a := by
  cases x <;> simp [Except.toOption]

theorem exceptMap_eq_ok {g : α → β} : x.map g = .ok b ↔ ∃ a, x = .ok a ∧ g a = b := by
  cases x <;> simp [Except.map]

theorem exceptMapError_eq_ok {ε' : Type} {g : ε → ε'} {a : α} :
    x.mapError g = .ok a ↔ x = .ok a := by
  cases x <;> simp [Except.mapError]

theorem length_exceptMapM {f : α → Except ε β} {l : List α} {l' : List β} (h : l.mapM f = .ok l') :
    l'.length = l.length := by
  induction l generalizing l' with
  | nil =>
    cases h
    rfl
  | cons a l ih =>
    rw [mapM_cons] at h
    obtain ⟨b, -, h⟩ := exceptBind_eq_ok.mp h
    obtain ⟨bs, hbs, h⟩ := exceptBind_eq_ok.mp h
    cases h
    simp [ih hbs]

section

variable {γ : Type} {g : β → γ → Except ε β} {I : β → Prop}

/-- What every step of a loop keeps, the loop keeps. -/
theorem foldlM_keeps
    {l : List γ} (hstep : ∀ c ∈ l, ∀ b b', I b → g b c = .ok b' → I b') {b b' : β} (hb : I b)
    (h : l.foldlM g b = .ok b') : I b' := by
  induction l generalizing b with
  | nil => exact Except.ok.inj h ▸ hb
  | cons c l ih =>
    rw [foldlM_cons] at h
    obtain ⟨b₁, hb₁, h⟩ := exceptBind_eq_ok.mp h
    obtain ⟨hc, hl⟩ := forall_mem_cons.mp hstep
    exact ih hl (hc b b₁ hb hb₁) h

/-- What every step of a loop keeps of the list so far and the state, the loop keeps. -/
theorem foldlM_history {R : List γ → β → Prop}
    (hstep : ∀ l c b b', R l b → g b c = .ok b' → R (l ++ [c]) b') {l todo : List γ} {b b' : β}
    (hb : R l b) (h : todo.foldlM g b = .ok b') : R (l ++ todo) b' := by
  induction todo generalizing l b with
  | nil => simpa using Except.ok.inj h ▸ hb
  | cons c todo ih =>
    rw [foldlM_cons] at h
    obtain ⟨b₁, hb₁, h⟩ := exceptBind_eq_ok.mp h
    simpa using ih (hstep l c b b₁ hb hb₁) h

/-- A loop whose steps do not fail under an invariant they keep does not fail. -/
theorem foldlM_ok
    (hstep : ∀ b c, I b → ∃ b', g b c = .ok b' ∧ I b') {l : List γ} {b : β} (hb : I b) :
    ∃ b', l.foldlM g b = .ok b' ∧ I b' := by
  induction l generalizing b with
  | nil => exact ⟨b, rfl, hb⟩
  | cons c l ih =>
    obtain ⟨b₁, hb₁, hI⟩ := hstep b c hb
    obtain ⟨b', hb', hI'⟩ := ih hI
    refine ⟨b', ?_, hI'⟩
    rw [foldlM_cons]
    exact exceptBind_eq_ok.mpr ⟨b₁, hb₁, hb'⟩

end

end Stateless

/-! ### Triples -/

/-- Started in a state with `P`, the computation `m` returns with `Q`, or fails with `E`, or
stops at a fault in `F`. -/
def Spec (P : σ → Prop) (m : Exec φ σ ε α) (Q : α → σ → Prop) (E : ε → σ → Prop)
    (F : φ → Prop) : Prop :=
  ∀ s, P s → match m.run s with
    | .ok a s' => Q a s'
    | .err e s' => E e s'
    | .fault f => F f

/-- No step of `m` breaks the invariant `I`, however `m` ends, and `m` stops only at faults
in `F`. -/
def Keeps (I : σ → Prop) (F : φ → Prop) (m : Exec φ σ ε α) : Prop :=
  Spec I m (fun _ => I) (fun _ => I) F

variable {I P : σ → Prop} {F : φ → Prop} {m : Exec φ σ ε α} {f : α → Exec φ σ ε β}
  {E : ε → σ → Prop} {Q : α → σ → Prop} {R : β → σ → Prop}

theorem Spec.bind (hm : Spec P m Q E F) (hf : ∀ a, Spec (Q a) (f a) R E F) :
    Spec P (m >>= f) R E F := by
  intro s hs
  have h := hm s hs
  rw [run_bind]
  cases hms : m.run s with
  | ok a s' =>
    rw [hms] at h
    exact hf a s' h
  | err e s' | fault c => rwa [hms] at h

section

variable (hm : Keeps I F m)

include hm

theorem Keeps.of_ok {s s' : σ} {a : α} (hs : I s)
    (h : m.run s = .ok a s') : I s' := by
  have := hm s hs
  rwa [h] at this

theorem Keeps.of_err {s s' : σ} {e : ε} (hs : I s)
    (h : m.run s = .err e s') : I s' := by
  have := hm s hs
  rwa [h] at this

theorem Keeps.of_fault {s : σ} {c : φ} (hs : I s)
    (h : m.run s = .fault c) : F c := by
  have := hm s hs
  rwa [h] at this

theorem Keeps.mono {F' : φ → Prop} (hF : ∀ c, F c → F' c) :
    Keeps I F' m := by
  intro s hs
  have h := hm s hs
  cases hms : m.run s with
  | ok a s' | err e s' => rwa [hms] at h
  | fault c =>
    rw [hms] at h
    exact hF c h

theorem Keeps.bind (hf : ∀ a, Keeps I F (f a)) : Keeps I F (m >>= f) :=
  Spec.bind hm hf

/-- What a step has established may be used in what follows. -/
theorem Keeps.bind_spec {C : α → σ → Prop}
    (hC : ∀ s a s', I s → m.run s = .ok a s' → C a s')
    (hf : ∀ a, Spec (fun s => I s ∧ C a s) (f a) (fun _ => I) (fun _ => I) F) :
    Keeps I F (m >>= f) := by
  intro s hs
  have h := hm s hs
  rw [run_bind]
  cases hms : m.run s with
  | ok a s' =>
    rw [hms] at h
    exact hf a s' ⟨h, hC s a s' hs hms⟩
  | err e s' | fault c => rwa [hms] at h

/-- The value a step returned may be used in what follows. -/
theorem Keeps.bind_of {C : α → Prop}
    (hC : ∀ s a s', I s → m.run s = .ok a s' → C a) (hf : ∀ a, C a → Keeps I F (f a)) :
    Keeps I F (m >>= f) :=
  hm.bind_spec (C := fun a _ => C a) hC fun a s hs => hf a hs.2 s hs.1

end

theorem Keeps.pure (a : α) : Keeps I F (pure a : Exec φ σ ε α) := fun _ hs => hs

theorem Keeps.throw (e : ε) : Keeps I F (throw e : Exec φ σ ε α) := fun _ hs => hs

theorem Keeps.get : Keeps I F (get : Exec φ σ ε σ) := fun _ hs => hs

theorem Keeps.require (p : Prop) [Decidable p] (e : ε) :
    Keeps I F (require p e : Exec φ σ ε Unit) := by
  intro s hs
  rw [run_require]
  split_ifs <;> exact hs

/-- After a check has passed, what it checked may be used. -/
theorem Keeps.require_bind {p : Prop} [Decidable p] {e : ε} {g : Unit → Exec φ σ ε β}
    (h : p → Keeps I F (g ())) : Keeps I F (Exec.require p e >>= g) := by
  refine Keeps.bind_of (C := fun _ => p) (Keeps.require p e) ?_ (fun _ hp => h hp)
  intro s a s' _ hreq
  exact (require_eq_ok.mp hreq).1

theorem Keeps.ofOption (e : ε) (o : Option α) : Keeps I F (ofOption e o : Exec φ σ ε α) := by
  cases o with
  | none => exact Keeps.throw e
  | some a => exact Keeps.pure a

theorem Keeps.ofExcept (o : Except ε α) : Keeps I F (ofExcept o : Exec φ σ ε α) := by
  cases o with
  | error e => exact Keeps.throw e
  | ok a => exact Keeps.pure a

theorem Keeps.ofFault {o : Except φ α} (h : ∀ c, o = .error c → F c) :
    Keeps I F (ofFault o : Exec φ σ ε α) := by
  intro s hs
  cases o with
  | error c => exact h c rfl
  | ok a => exact hs

end Exec
