import Mathlib.Algebra.Order.Group.Nat
import Mathlib.Order.Defs.LinearOrder
import Mathlib.Tactic.Common

/-!
# Checked and saturating arithmetic on 64-bit words

The operations of Rust's `u64` that do not wrap, each with the one lemma that says what it does
to the numbers, and the order of the words.
-/

namespace Word

open UInt64

instance instLinearOrder : LinearOrder UInt64 where
  le_refl := UInt64.le_refl
  le_trans _ _ _ := UInt64.le_trans
  lt_iff_le_not_ge a b := by
    rw [UInt64.not_le]
    exact ⟨fun h => ⟨UInt64.le_of_lt h, h⟩, fun h => h.2⟩
  le_antisymm _ _ := UInt64.le_antisymm
  le_total := UInt64.le_total
  toDecidableLE := inferInstance
  toDecidableEq := inferInstance
  toDecidableLT := inferInstance

instance instLawfulBEq : LawfulBEq UInt64 := inferInstance

/-- `a + b`, if it fits. -/
def checkedAdd (a b : UInt64) : Option UInt64 :=
  if a.toNat + b.toNat < 2 ^ 64 then some (a + b) else none

/-- `a - b`, if it is not negative. -/
def checkedSub (a b : UInt64) : Option UInt64 := if b ≤ a then some (a - b) else none

/-- `a - b`, or zero. -/
def saturatingSub (a b : UInt64) : UInt64 := if b ≤ a then a - b else 0

/-- `n` as a word, or the largest one. -/
def saturate (n : ℕ) : UInt64 := ofNat (min n (2 ^ 64 - 1))

/-- `a * b`, or the largest word. -/
def saturatingMul (a b : UInt64) : UInt64 := saturate (a.toNat * b.toNat)

/-- `a + b`, or the largest word. -/
def saturatingAdd (a b : UInt64) : UInt64 := saturate (a.toNat + b.toNat)

section

variable {a b c : UInt64}

theorem checkedAdd_eq_some :
    checkedAdd a b = some c ↔ a.toNat + b.toNat < 2 ^ 64 ∧ c = a + b := by
  unfold checkedAdd
  split_ifs with h
  · simp only [Option.some.injEq, h, true_and, eq_comm]
  · simp only [h, false_and]

theorem checkedSub_eq_some :
    checkedSub a b = some c ↔ b ≤ a ∧ c = a - b := by
  unfold checkedSub
  split_ifs with h
  · simp only [Option.some.injEq, h, true_and, eq_comm]
  · simp only [h, false_and]

theorem toNat_of_checkedAdd (h : checkedAdd a b = some c) :
    c.toNat = a.toNat + b.toNat := by
  obtain ⟨hlt, rfl⟩ := checkedAdd_eq_some.mp h
  rw [UInt64.toNat_add, Nat.mod_eq_of_lt hlt]

theorem toNat_of_checkedSub (h : checkedSub a b = some c) :
    c.toNat + b.toNat = a.toNat := by
  obtain ⟨hle, rfl⟩ := checkedSub_eq_some.mp h
  rw [UInt64.toNat_sub_of_le _ _ hle]
  have := UInt64.le_iff_toNat_le.mp hle
  omega

end

theorem toNat_saturatingSub (a b : UInt64) : (saturatingSub a b).toNat = a.toNat - b.toNat := by
  unfold saturatingSub
  split_ifs with hle
  · exact UInt64.toNat_sub_of_le _ _ hle
  · have hlt := UInt64.lt_iff_toNat_lt.mp (UInt64.not_le.mp hle)
    rw [UInt64.toNat_zero]
    omega

theorem toNat_saturate (n : ℕ) : (saturate n).toNat = min n (2 ^ 64 - 1) := by
  have hsmall : min n (2 ^ 64 - 1) < 2 ^ 64 := by omega
  exact toNat_ofNat_of_lt' hsmall

/-- Sums saturate in the end, in whatever order they are made. -/
theorem saturatingAdd_saturate (n : ℕ) (a : UInt64) :
    saturatingAdd (saturate n) a = saturate (n + a.toNat) := by
  rw [← UInt64.toNat_inj]
  unfold saturatingAdd
  simp only [toNat_saturate]
  omega

end Word
