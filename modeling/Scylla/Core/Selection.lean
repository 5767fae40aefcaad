import Mathlib.Data.List.Sort
import Mathlib.Order.Bounds.Basic

/-!
# Order statistics

The element at a position of a sorted list is characterised by counting: it is at least `x` exactly
when enough elements are. For the position in the middle, enough is a majority.
-/

namespace Scylla

open List

variable {α : Type*} [LinearOrder α]

variable {l : List α}

section

variable (h : l.SortedLE) {k : ℕ} (hk : k < l.length)

include h hk

private theorem countP_take_eq_zero {x : α}
    (hx : l[k] < x) : (l.take (k + 1)).countP (x ≤ ·) = 0 := by
  refine countP_eq_zero.mpr fun a ha => ?_
  obtain ⟨n, hn, rfl⟩ := mem_take_iff_getElem.mp ha
  have hle : l[n] ≤ l[k] := h.getElem_le_getElem_of_le (by omega)
  simpa using hle.trans_lt hx

private theorem countP_drop_eq_length {x : α}
    (hx : x ≤ l[k]) : (l.drop k).countP (x ≤ ·) = (l.drop k).length := by
  refine countP_eq_length.mpr fun a ha => ?_
  obtain ⟨n, hn, rfl⟩ := mem_drop_iff_getElem.mp ha
  have hle : l[k] ≤ l[k + n] := h.getElem_le_getElem_of_le (Nat.le_add_right k n)
  simpa using hx.trans hle

theorem le_getElem_iff_countP (x : α) :
    x ≤ l[k] ↔ l.length - k ≤ l.countP (x ≤ ·) := by
  constructor
  · intro hx
    have hdrop := countP_drop_eq_length h hk hx
    have hsplit : l.countP (x ≤ ·) = (l.take k).countP (x ≤ ·) + (l.drop k).countP (x ≤ ·) := by
      rw [← countP_append, take_append_drop]
    rw [length_drop] at hdrop
    omega
  · intro hcount
    by_contra hx
    have htake := countP_take_eq_zero h hk (not_le.mp hx)
    have hsplit : l.countP (x ≤ ·) =
        (l.take (k + 1)).countP (x ≤ ·) + (l.drop (k + 1)).countP (x ≤ ·) := by
      rw [← countP_append, take_append_drop]
    have hle : (l.drop (k + 1)).countP (x ≤ ·) ≤ (l.drop (k + 1)).length := countP_le_length
    rw [length_drop] at hle
    omega

end

/-- The element that a majority reaches or exceeds: at most half of the others are smaller. -/
def majorityPivot (l : List α) : Option α :=
  (l.insertionSort (· ≤ ·))[(l.length - 1) / 2]?

theorem le_of_majorityPivot {m : α} (h : majorityPivot l = some m) (x : α) :
    x ≤ m ↔ l.length / 2 + 1 ≤ l.countP (x ≤ ·) := by
  obtain ⟨hlt, rfl⟩ := List.getElem?_eq_some_iff.mp h
  have hperm := perm_insertionSort (· ≤ ·) l
  rw [le_getElem_iff_countP sortedLE_insertionSort hlt, hperm.countP_eq, hperm.length_eq]
  rw [length_insertionSort] at hlt
  have hsize : l.length - (l.length - 1) / 2 = l.length / 2 + 1 := by omega
  rw [hsize]

theorem isSome_majorityPivot (h : l ≠ []) : (majorityPivot l).isSome := by
  have hpos := length_pos_iff.mpr h
  have hlt : (l.length - 1) / 2 < (l.insertionSort (· ≤ ·)).length := by
    rw [length_insertionSort]
    omega
  rw [majorityPivot, List.getElem?_eq_getElem hlt]
  rfl

end Scylla
