import Mathlib.Data.List.Basic

/-!
# Images under construction

What a sequence of writes leaves of a medium that is blank at first: every write may start anywhere,
overlap what is there, or leave a gap.  An image is as long as the writes reach, and blank beyond that.

## Main results

* `Image.toList_write`: a write to the list of what was written so far, extended with blanks where it
  is too short.
-/

/-- What was written to a medium, position by position, with `blank` wherever nothing was. -/
structure Image (α : Type) (blank : α) where
  size : ℕ
  read : ℕ → α
  read_of_size_le : ∀ k, size ≤ k → read k = blank

namespace Image

open List

variable {α : Type} {blank : α}

/-- Nothing is written. -/
def empty (blank : α) : Image α blank := ⟨0, fun _ => blank, fun _ _ => rfl⟩

/-- The items `xs` are written from the position `offset` on. -/
def write (m : Image α blank) (offset : ℕ) (xs : List α) : Image α blank where
  size := max m.size (offset + xs.length)
  read k := if offset ≤ k then xs[k - offset]?.getD (m.read k) else m.read k
  read_of_size_le k hk := by
    have hread := m.read_of_size_le k (by omega)
    have hnone : xs[k - offset]? = none := getElem?_eq_none (by omega)
    simp [hnone, hread]

/-- What was written, as far as it reaches. -/
def toList (m : Image α blank) : List α := (range m.size).map m.read

@[simp] theorem length_toList (m : Image α blank) : m.toList.length = m.size := by simp [toList]

@[simp] theorem toList_empty : (empty blank).toList = [] := rfl

theorem getElem?_toList (m : Image α blank) (k : ℕ) :
    m.toList[k]? = if k < m.size then some (m.read k) else none := by
  split_ifs with h <;> simp [toList, h]

/-- The list with blanks behind it reads as the image. -/
theorem getElem?_toList_append (m : Image α blank) (n k : ℕ) :
    (m.toList ++ replicate n blank)[k]? =
      if k < m.size + n then some (m.read k) else none := by
  by_cases hk : k < m.size
  · rw [getElem?_append_left (by simpa using hk), getElem?_toList, if_pos hk, if_pos (by omega)]
  · rw [getElem?_append_right (by simpa using hk), length_toList, getElem?_replicate,
      m.read_of_size_le k (by omega)]
    by_cases hn : k < m.size + n
    · rw [if_pos hn, if_pos (by omega)]
    · rw [if_neg hn, if_neg (by omega)]

/-- **A write to the list of what was written so far**, extended with blanks where it is too short. -/
theorem toList_write (m : Image α blank) (offset : ℕ) (xs : List α) :
    (m.write offset xs).toList =
      (m.toList ++ replicate (offset + xs.length - m.toList.length) blank).take offset ++ xs ++
        (m.toList ++ replicate (offset + xs.length - m.toList.length) blank).drop
          (offset + xs.length) := by
  rw [length_toList]
  generalize hn : offset + xs.length - m.size = n
  have hlong : offset + xs.length ≤ m.size + n := by omega
  have htake : ((m.toList ++ replicate n blank).take offset).length = offset := by
    simp
    omega
  refine ext_getElem? fun k => ?_
  rw [getElem?_toList, append_assoc]
  have hsize : (m.write offset xs).size = m.size + n := by
    show max m.size (offset + xs.length) = m.size + n
    omega
  -- In front of the write, within it, and behind it.
  rcases Nat.lt_or_ge k offset with hk | hk
  · have hread : (m.write offset xs).read k = m.read k := if_neg (by omega)
    rw [getElem?_append_left (by omega), getElem?_take_of_lt hk, getElem?_toList_append,
      hsize, hread]
  rw [getElem?_append_right (by omega), htake]
  have hread : (m.write offset xs).read k = xs[k - offset]?.getD (m.read k) := if_pos hk
  rcases Nat.lt_or_ge (k - offset) xs.length with hin | hout
  · rw [getElem?_append_left hin, if_pos (by omega), hread, getElem?_eq_getElem hin]
    rfl
  · rw [getElem?_append_right hout, getElem?_drop, getElem?_toList_append, hsize, hread,
      getElem?_eq_none hout]
    have hpos : offset + xs.length + (k - offset - xs.length) = k := by omega
    rw [hpos]
    rfl

end Image
