import Mathlib

/-!
# Intervals

Intervals with inclusive, exclusive or missing bounds, over any type of bounds. Points are compared
with bounds by a given comparison, so that the same intervals serve for values and for prefixes of
keys. A singular interval is one with two equal inclusive bounds here.
-/

namespace Scylla.Cql

open Option
open Bool

structure Bound (α : Type*) where
  value : α
  inclusive : Bool
  deriving DecidableEq

structure Interval (α : Type*) where
  start : Option (Bound α)
  /-- `end`. -/
  stop : Option (Bound α)
  deriving DecidableEq

namespace Bound

variable {α : Type*} (b : Bound α)

/-- Whether a point that compares so with the value is above a lower bound. -/
def admitsAbove : Ordering → Bool
  | .lt => false
  | .eq => b.inclusive
  | .gt => true

/-- Whether a point that compares so with the value is below an upper bound. -/
def admitsBelow : Ordering → Bool
  | .lt => true
  | .eq => b.inclusive
  | .gt => false

@[simp] theorem admitsAbove_lt : b.admitsAbove .lt = false := rfl

@[simp] theorem admitsAbove_eq : b.admitsAbove .eq = b.inclusive := rfl

@[simp] theorem admitsAbove_gt : b.admitsAbove .gt = true := rfl

@[simp] theorem admitsBelow_lt : b.admitsBelow .lt = true := rfl

@[simp] theorem admitsBelow_eq : b.admitsBelow .eq = b.inclusive := rfl

@[simp] theorem admitsBelow_gt : b.admitsBelow .gt = false := rfl

end Bound

namespace Interval

variable {α β : Type*}

def contains (cmp : β → α → Ordering) (r : Interval α) (k : β) : Bool :=
  r.start.all (fun b => b.admitsAbove (cmp k b.value)) &&
    r.stop.all fun b => b.admitsBelow (cmp k b.value)

section

variable (cmp : α → α → Ordering)

/-- `less_than` for two starts. -/
def startLess : Option (Bound α) → Option (Bound α) → Bool
  | _, none => false
  | none, some _ => true
  | some a, some b =>
    match cmp a.value b.value with
    | .lt => true
    | .eq => a.inclusive && !b.inclusive
    | .gt => false

/-- `greater_than_or_equal` for an end and a start. -/
def stopReaches : Option (Bound α) → Option (Bound α) → Bool
  | some a, some b =>
    match cmp a.value b.value with
    | .lt => false
    | .eq => a.inclusive && b.inclusive
    | .gt => true
  | _, _ => true

/-- `greater_than_or_equal` for two ends. -/
def stopGe : Option (Bound α) → Option (Bound α) → Bool
  | none, _ => true
  | some _, none => false
  | some a, some b =>
    match cmp a.value b.value with
    | .lt => false
    | .eq => a.inclusive || !b.inclusive
    | .gt => true

/-- The intersection of two intervals, of which the first does not start later. -/
def intersectOrdered (a b : Interval α) : Option (Interval α) :=
  if stopReaches cmp a.stop b.start then
    some ⟨b.start, if stopGe cmp b.stop a.stop then a.stop else b.stop⟩
  else none

def intersection (a b : Interval α) : Option (Interval α) :=
  if startLess cmp b.start a.start then intersectOrdered cmp b a else intersectOrdered cmp a b

end

section

variable {cmp : α → α → Ordering} [Std.TransCmp cmp] {a b : Option (Bound α)} {v : α}

theorem above_of_not_startLess (h : startLess cmp b a = false)
    (hb : b.all (fun b => b.admitsAbove (cmp v b.value)) = true) :
    a.all (fun a => a.admitsAbove (cmp v a.value)) = true := by
  match a, b with
  | none, _ => rfl
  | some a, none => cases h
  | some a, some b =>
    rw [all_some] at hb ⊢
    cases hab : cmp b.value a.value with
    | lt => simp [startLess, hab] at h
    | eq =>
      rw [Std.TransCmp.congr_right hab] at hb
      cases hv : cmp v a.value <;> simp_all [startLess]
    | gt =>
      have hge : (cmp v b.value).isGE = true := by
        cases hv : cmp v b.value <;> simp_all
      rw [Std.TransCmp.gt_of_isGE_of_gt hge hab]
      rfl

theorem startLess_asymm (h : startLess cmp b a = true) : startLess cmp a b = false := by
  match a, b with
  | none, _ => cases h
  | some a, none => rfl
  | some a, some b =>
    cases hab : cmp b.value a.value with
    | lt => simp [startLess, Std.OrientedCmp.gt_of_lt hab]
    | eq => simp_all [startLess, Std.OrientedCmp.eq_symm hab]
    | gt => simp [startLess, hab] at h

theorem below_of_stopGe (h : stopGe cmp b a = true)
    (ha : a.all (fun a => a.admitsBelow (cmp v a.value)) = true) :
    b.all (fun b => b.admitsBelow (cmp v b.value)) = true := by
  match a, b with
  | _, none => rfl
  | none, some b => cases h
  | some a, some b =>
    rw [all_some] at ha ⊢
    cases hab : cmp b.value a.value with
    | lt => simp [stopGe, hab] at h
    | eq =>
      rw [Std.TransCmp.congr_right hab]
      cases hv : cmp v a.value <;> simp_all [stopGe]
    | gt =>
      have hle : (cmp v a.value).isLE = true := by
        cases hv : cmp v a.value <;> simp_all
      rw [Std.TransCmp.lt_of_isLE_of_lt hle (Std.OrientedCmp.lt_of_gt hab)]
      rfl

theorem stopGe_of_not_stopGe (h : stopGe cmp b a = false) : stopGe cmp a b = true := by
  match a, b with
  | none, _ => rfl
  | some a, none => cases h
  | some a, some b =>
    cases hab : cmp b.value a.value with
    | lt => simp [stopGe, Std.OrientedCmp.gt_of_lt hab]
    | eq => simp_all [stopGe, Std.OrientedCmp.eq_symm hab]
    | gt => simp [stopGe, hab] at h

theorem stopReaches_of_mem (ha : a.all (fun a => a.admitsBelow (cmp v a.value)) = true)
    (hb : b.all (fun b => b.admitsAbove (cmp v b.value)) = true) : stopReaches cmp a b = true := by
  match a, b with
  | none, _ | some _, none => rfl
  | some a, some b =>
    rw [all_some] at ha hb
    cases hab : cmp a.value b.value with
    | lt =>
      have hle : (cmp v a.value).isLE = true := by cases hv : cmp v a.value <;> simp_all
      rw [Std.TransCmp.lt_of_isLE_of_lt hle hab] at hb
      cases hb
    | eq =>
      rw [← Std.TransCmp.congr_right hab] at hb
      cases hv : cmp v a.value <;> simp_all [stopReaches]
    | gt => simp [stopReaches, hab]

theorem contains_intersectOrdered {a b : Interval α} (h : startLess cmp b.start a.start = false) :
    ((intersectOrdered cmp a b).any fun r => r.contains cmp v) =
      (a.contains cmp v && b.contains cmp v) := by
  rw [Bool.eq_iff_iff]
  unfold intersectOrdered contains
  constructor
  · intro hmem
    split at hmem
    · rw [any_some, and_eq_true] at hmem
      have habove := above_of_not_startLess h hmem.1
      split at hmem
      next hge => simp [hmem.1, hmem.2, habove, below_of_stopGe hge hmem.2]
      next hlt =>
        rw [not_eq_true] at hlt
        simp [hmem.1, hmem.2, habove, below_of_stopGe (stopGe_of_not_stopGe hlt) hmem.2]
    · cases hmem
  · intro hmem
    rw [and_eq_true, and_eq_true, and_eq_true] at hmem
    rw [if_pos (stopReaches_of_mem hmem.1.2 hmem.2.1), any_some]
    split <;> simp [hmem]

theorem contains_intersection (a b : Interval α) :
    ((a.intersection cmp b).any fun r => r.contains cmp v) =
      (a.contains cmp v && b.contains cmp v) := by
  unfold intersection
  split
  next hless =>
    rw [contains_intersectOrdered (startLess_asymm hless), Bool.and_comm]
  next hless => exact contains_intersectOrdered (eq_false_iff.mpr hless)

end

end Interval

end Scylla.Cql
