import Scylla.Cql.Interval

/-!
# Wrapping intervals

Intervals over a linear order whose end may lie before their start: such an interval goes from its
start over the top of the order round to its end. What comparing bounds means for the points above a
start and below an end is stated here, for dense orders without end points; everything else follows
from that.
-/

namespace Scylla.Dht

open Cql (Bound)
open Cql.Interval (startLess stopReaches stopGe)
open Bool

variable {T : Type*}

/-- `wrapping_interval`. The constructor drops the end of a singular interval. -/
structure WrappingInterval (T : Type*) where
  start : Option (Bound T)
  /-- `_end`. -/
  stop : Option (Bound T)
  singular : Bool
  singular_start : singular = true → ∃ v, start = some ⟨v, true⟩
  singular_stop : singular = true → stop = none

/-- `less_than_or_equal` for two starts. -/
def startLe (cmp : T → T → Ordering) : Option (Bound T) → Option (Bound T) → Bool
  | none, _ => true
  | some _, none => false
  | some a, some b =>
    match cmp a.value b.value with
    | .lt => true
    | .eq => a.inclusive || !b.inclusive
    | .gt => false

/-- The bound on the other side of the same cut. -/
def flip (b : Bound T) : Bound T := ⟨b.value, !b.inclusive⟩

namespace WrappingInterval

def ofBounds (start stop : Option (Bound T)) : WrappingInterval T where
  start := start
  stop := stop
  singular := false
  singular_start := nofun
  singular_stop := nofun

/-- `end`. -/
def endBound (r : WrappingInterval T) : Option (Bound T) := if r.singular then r.start else r.stop

variable {e s : Option (Bound T)}

@[simp] theorem start_ofBounds : (ofBounds s e).start = s := rfl

@[simp] theorem endBound_ofBounds : (ofBounds s e).endBound = e := rfl

def unwrap (r : WrappingInterval T) : WrappingInterval T × WrappingInterval T :=
  (ofBounds none r.endBound, ofBounds r.start none)

section Compare

variable [LinearOrder T]

def isWrapAround (r : WrappingInterval T) : Bool :=
  match r.start, r.stop with
  | some s, some e =>
    match compare e.value s.value with
    | .lt => true
    | .eq => !s.inclusive || !e.inclusive
    | .gt => false
  | _, _ => false

def before (r : WrappingInterval T) (point : T) : Bool :=
  match r.start with
  | none => false
  | some s =>
    match compare point s.value with
    | .lt => true
    | .eq => !s.inclusive
    | .gt => false

def after (r : WrappingInterval T) (point : T) : Bool :=
  match r.endBound with
  | none => false
  | some e =>
    match compare e.value point with
    | .lt => true
    | .eq => !e.inclusive
    | .gt => false

def containsPoint (r : WrappingInterval T) (point : T) : Bool :=
  if r.isWrapAround then
    (!r.unwrap.1.before point && !r.unwrap.1.after point) ||
      (!r.unwrap.2.before point && !r.unwrap.2.after point)
  else !r.before point && !r.after point

def overlapsUnwrapped (r o : WrappingInterval T) : Bool :=
  if r.start.isNone && o.start.isNone then true
  else stopReaches compare r.endBound o.start && stopReaches compare o.endBound r.start

def overlaps (r o : WrappingInterval T) : Bool :=
  if r.isWrapAround && o.isWrapAround then true
  else if r.isWrapAround then
    o.overlapsUnwrapped r.unwrap.1 || o.overlapsUnwrapped r.unwrap.2
  else if o.isWrapAround then
    r.overlapsUnwrapped o.unwrap.1 || r.overlapsUnwrapped o.unwrap.2
  else r.overlapsUnwrapped o

def contains (r o : WrappingInterval T) : Bool :=
  if r.isWrapAround && o.isWrapAround then
    startLe compare r.start o.start && stopGe compare r.endBound o.endBound
  else if !r.isWrapAround && !o.isWrapAround then
    startLe compare r.start o.start && stopGe compare r.endBound o.endBound
  else if o.isWrapAround then r.start.isNone && r.endBound.isNone
  else
    (o.start.isSome && startLe compare r.start o.start) ||
      (o.endBound.isSome && stopGe compare r.endBound o.endBound)

/-- The one or two intervals that an interval is made of. -/
def parts (r : WrappingInterval T) : List (WrappingInterval T) :=
  if r.isWrapAround then [r.unwrap.1, r.unwrap.2] else [r]

/-- What is left of `r` before an interval `o` that it overlaps. -/
def pieceBefore (r o : WrappingInterval T) : List (WrappingInterval T) :=
  if startLe compare o.start r.start then [] else [ofBounds r.start (o.start.map flip)]

/-- What is left of `r` after an interval `o` that it overlaps. -/
def pieceAfter (r o : WrappingInterval T) : List (WrappingInterval T) :=
  if stopGe compare o.endBound r.endBound then [] else [ofBounds (o.endBound.map flip) r.endBound]

end Compare

end WrappingInterval

/-! ### The rays cut off by bounds -/

section Rays

variable [LinearOrder T]

def above (s : Option (Bound T)) : Set T := {x | s.all fun b => b.admitsAbove (compare x b.value)}

def below (e : Option (Bound T)) : Set T := {x | e.all fun b => b.admitsBelow (compare x b.value)}

variable {x y : T} {a b : Option (Bound T)}

@[simp] theorem mem_above_none : x ∈ above (none : Option (Bound T)) := rfl

@[simp] theorem mem_below_none : x ∈ below (none : Option (Bound T)) := rfl

theorem mem_above_some {b : Bound T} :
    x ∈ above (some b) ↔ b.value < x ∨ x = b.value ∧ b.inclusive = true := by
  change b.admitsAbove (compare x b.value) = true ↔ _
  rcases lt_trichotomy x b.value with h | h | h
  · simp [compare_lt_iff_lt.mpr h, h.ne, h.not_gt]
  · simp [h]
  · simp [compare_gt_iff_gt.mpr h, h]

theorem mem_below_some {b : Bound T} :
    x ∈ below (some b) ↔ x < b.value ∨ x = b.value ∧ b.inclusive = true := by
  change b.admitsBelow (compare x b.value) = true ↔ _
  rcases lt_trichotomy x b.value with h | h | h
  · simp [compare_lt_iff_lt.mpr h, h]
  · simp [h]
  · simp [compare_gt_iff_gt.mpr h, h.ne', h.not_gt]

theorem isUpperSet_above : IsUpperSet (above a) := by
  intro x y hxy hx
  match a with
  | none => rfl
  | some a => grind [mem_above_some]

theorem isLowerSet_below : IsLowerSet (below a) := by
  intro x y hxy hx
  match a with
  | none => rfl
  | some a => grind [mem_below_some]

theorem mem_below_flip {b : Bound T} : x ∈ below (some (flip b)) ↔ x ∉ above (some b) := by
  rw [mem_below_some, mem_above_some]
  grind [flip]

theorem mem_above_flip {b : Bound T} : x ∈ above (some (flip b)) ↔ x ∉ below (some b) := by
  rw [mem_below_some, mem_above_some]
  grind [flip]

section

variable [DenselyOrdered T] [NoMinOrder T]

theorem startLe_iff :
    startLe compare a b = true ↔ above b ⊆ above a := by
  match a, b with
  | none, _ => simp [startLe, Set.subset_def]
  | some a, none =>
    obtain ⟨x, hx⟩ := exists_lt a.value
    refine iff_of_false (by simp [startLe]) fun hsub => ?_
    grind [mem_above_some.mp (hsub (mem_above_none (x := x)))]
  | some a, some b =>
    rcases lt_trichotomy a.value b.value with h | h | h
    · refine iff_of_true (by simp [startLe, compare_lt_iff_lt.mpr h]) fun x hx => ?_
      grind [mem_above_some]
    · have hdef : startLe compare (some a) (some b) = (a.inclusive || !b.inclusive) := by
        simp [startLe, h]
      refine ⟨fun hinc x hx => by grind [mem_above_some], fun hsub => ?_⟩
      by_contra hinc
      have hb : b.value ∈ above (some b) := by grind [mem_above_some]
      grind [mem_above_some.mp (hsub hb)]
    · obtain ⟨x, hbx, hxa⟩ := exists_between h
      refine iff_of_false (by simp [startLe, compare_gt_iff_gt.mpr h]) fun hsub => ?_
      grind [mem_above_some.mp (hsub (mem_above_some.mpr (.inl hbx)))]

theorem stopGe_iff [NoMaxOrder T] :
    stopGe compare a b = true ↔ below b ⊆ below a := by
  match a, b with
  | none, _ => simp [stopGe, Set.subset_def]
  | some a, none =>
    obtain ⟨x, hx⟩ := exists_gt a.value
    refine iff_of_false (by simp [stopGe]) fun hsub => ?_
    grind [mem_below_some.mp (hsub (mem_below_none (x := x)))]
  | some a, some b =>
    have hflip : stopGe compare (some a) (some b) =
        startLe compare (some (flip b)) (some (flip a)) := by
      rcases lt_trichotomy a.value b.value with h | h | h
      · simp [stopGe, startLe, flip, compare_lt_iff_lt.mpr h, compare_gt_iff_gt.mpr h]
      · simp [stopGe, startLe, flip, h, Bool.or_comm]
      · simp [stopGe, startLe, flip, compare_lt_iff_lt.mpr h, compare_gt_iff_gt.mpr h]
    rw [hflip, startLe_iff]
    simp only [Set.subset_def, mem_above_flip, not_imp_not]

theorem stopReaches_iff [NoMaxOrder T] [Nonempty T] :
    stopReaches compare a b = true ↔ ∃ x, x ∈ below a ∧ x ∈ above b := by
  match a, b with
  | none, none => exact iff_of_true rfl (Nonempty.elim ‹_› fun x => ⟨x, rfl, rfl⟩)
  | none, some b =>
    obtain ⟨x, hx⟩ := exists_gt b.value
    exact iff_of_true rfl ⟨x, rfl, mem_above_some.mpr (.inl hx)⟩
  | some a, none =>
    obtain ⟨x, hx⟩ := exists_lt a.value
    exact iff_of_true rfl ⟨x, mem_below_some.mpr (.inl hx), rfl⟩
  | some a, some b =>
    simp only [mem_below_some, mem_above_some]
    rcases lt_trichotomy a.value b.value with h | h | h
    · exact iff_of_false (by simp [stopReaches, compare_lt_iff_lt.mpr h]) (by grind)
    · have hdef : stopReaches compare (some a) (some b) = (a.inclusive && b.inclusive) := by
        simp [stopReaches, h]
      refine ⟨fun hinc => ⟨a.value, by grind, by grind⟩, by grind⟩
    · obtain ⟨x, hbx, hxa⟩ := exists_between h
      exact iff_of_true (by simp [stopReaches, compare_gt_iff_gt.mpr h])
        ⟨x, .inl hxa, .inl hbx⟩

end

end Rays

namespace WrappingInterval

/-! ### Points -/

section Points

variable [LinearOrder T] {r o : WrappingInterval T} {x : T}

def points (r : WrappingInterval T) : Set T := {x | r.containsPoint x = true}

/-- Every point of the first interval is less than every point of the second. -/
def Precedes (r o : WrappingInterval T) : Prop := ∀ x ∈ r.points, ∀ y ∈ o.points, x < y

theorem before_eq_false : r.before x = false ↔ x ∈ above r.start := by
  unfold before
  match r.start with
  | none => simp
  | some s =>
    change _ ↔ s.admitsAbove (compare x s.value) = true
    cases h : compare x s.value <;> simp [h]

theorem after_eq_false : r.after x = false ↔ x ∈ below r.endBound := by
  unfold after
  match r.endBound with
  | none => simp
  | some e =>
    change _ ↔ e.admitsBelow (compare x e.value) = true
    rcases lt_trichotomy x e.value with h | h | h
    · simp [compare_lt_iff_lt.mpr h, compare_gt_iff_gt.mpr h]
    · simp [h]
    · simp [compare_lt_iff_lt.mpr h, compare_gt_iff_gt.mpr h]

theorem isWrapAround_eq (r : WrappingInterval T) :
    r.isWrapAround = !stopReaches compare r.endBound r.start := by
  unfold isWrapAround endBound
  cases hsing : r.singular with
  | true =>
    obtain ⟨v, hv⟩ := r.singular_start hsing
    simp [hv, r.singular_stop hsing, stopReaches]
  | false =>
    obtain _ | s := r.start
    · simp [stopReaches]
    obtain _ | e := r.stop
    · simp [stopReaches]
    · cases h : compare e.value s.value <;> simp [stopReaches, h, Bool.or_comm]

theorem mem_points_iff (h : r.isWrapAround = false) :
    x ∈ r.points ↔ x ∈ above r.start ∧ x ∈ below r.endBound := by
  change r.containsPoint x = true ↔ _
  rw [containsPoint, h, ← before_eq_false, ← after_eq_false]
  simp

theorem mem_points_iff_of_wrap (h : r.isWrapAround = true) :
    x ∈ r.points ↔ x ∈ below r.endBound ∨ x ∈ above r.start := by
  change r.containsPoint x = true ↔ _
  rw [containsPoint, if_pos h, or_eq_true, and_eq_true, and_eq_true]
  simp only [not_eq_true', before_eq_false, after_eq_false]
  simp [unwrap]

variable {e s : Option (Bound T)}

theorem isWrapAround_ofBounds : (ofBounds s e).isWrapAround = !stopReaches compare e s := by
  rw [isWrapAround_eq, endBound_ofBounds, start_ofBounds]

theorem isWrapAround_ofBounds_of_lt (h : ∀ a, s = some a → ∀ b, e = some b → a.value < b.value) :
    (ofBounds s e).isWrapAround = false := by
  rw [isWrapAround_ofBounds]
  match s, e with
  | none, none | none, some _ | some _, none => rfl
  | some a, some b => simp [stopReaches, compare_gt_iff_gt.mpr (h a rfl b rfl)]

theorem bounds_of_wrap (h : r.isWrapAround = true) :
    (∃ s, r.start = some s) ∧ ∃ e, r.endBound = some e := by
  rw [isWrapAround_eq] at h
  match hs : r.start, he : r.endBound with
  | some s, some e => exact ⟨⟨s, rfl⟩, ⟨e, rfl⟩⟩
  | none, none | none, some _ | some _, none => simp [hs, he, stopReaches] at h

theorem parts_of_wrap (h : r.isWrapAround = true) :
    r.parts = [ofBounds none r.endBound, ofBounds r.start none] := by
  rw [parts, if_pos h, unwrap]

theorem parts_of_not_wrap (h : r.isWrapAround = false) : r.parts = [r] := by
  rw [parts, h]
  rfl

theorem not_wrap_of_mem_parts (h : o ∈ r.parts) : o.isWrapAround = false := by
  cases hwrap : r.isWrapAround with
  | true =>
    rw [parts_of_wrap hwrap] at h
    have hcases : o = ofBounds none r.endBound ∨ o = ofBounds r.start none := by simpa using h
    rcases hcases with rfl | rfl
    · simp [isWrapAround_ofBounds, stopReaches]
    · simp [isWrapAround_ofBounds, stopReaches]
  | false =>
    rw [parts_of_not_wrap hwrap, List.mem_singleton] at h
    exact h ▸ hwrap

@[simp] theorem mem_points_ofBounds_none_left : x ∈ (ofBounds none e).points ↔ x ∈ below e := by
  rw [mem_points_iff (by simp [isWrapAround_ofBounds, stopReaches])]
  simp

@[simp] theorem mem_points_ofBounds_none_right : x ∈ (ofBounds s none).points ↔ x ∈ above s := by
  rw [mem_points_iff (by simp [isWrapAround_ofBounds, stopReaches])]
  simp

theorem mem_points_iff_parts : x ∈ r.points ↔ ∃ p ∈ r.parts, x ∈ p.points := by
  cases hwrap : r.isWrapAround with
  | true => simp [parts_of_wrap hwrap, mem_points_iff_of_wrap hwrap]
  | false => simp [parts_of_not_wrap hwrap]

variable [DenselyOrdered T] [NoMinOrder T] [NoMaxOrder T] [Nonempty T]

theorem isWrapAround_eq_false :
    r.isWrapAround = false ↔ ∃ x, x ∈ below r.endBound ∧ x ∈ above r.start := by
  rw [isWrapAround_eq, not_eq_false', stopReaches_iff]

theorem exists_mem_points (h : r.isWrapAround = false) : ∃ x, x ∈ r.points := by
  obtain ⟨x, he, hs⟩ := isWrapAround_eq_false.mp h
  exact ⟨x, (mem_points_iff h).mpr ⟨hs, he⟩⟩

theorem not_mem_above_of_wrap (h : r.isWrapAround = true) (hx : x ∈ below r.endBound) :
    x ∉ above r.start := by
  intro hs
  rw [isWrapAround_eq_false.mpr ⟨x, hx, hs⟩] at h
  cases h

theorem pairwise_precedes_parts (r : WrappingInterval T) : r.parts.Pairwise Precedes := by
  cases hwrap : r.isWrapAround with
  | false => simp [parts_of_not_wrap hwrap]
  | true =>
    rw [parts_of_wrap hwrap, List.pairwise_pair]
    intro x hx y hy
    rw [mem_points_ofBounds_none_left] at hx
    rw [mem_points_ofBounds_none_right] at hy
    by_contra hle
    exact not_mem_above_of_wrap hwrap hx (isUpperSet_above (not_lt.mp hle) hy)

end Points

end WrappingInterval

end Scylla.Dht
