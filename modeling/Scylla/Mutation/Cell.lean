import Scylla.Core.Int64
import Scylla.Core.Merge

/-!
# Tombstones, atomic cells and row markers

The scalars of a mutation, each merged by keeping the greater of two values. Tombstones are ordered
by timestamp and deletion time; `compare_atomic_cell_for_merge` and `compare_row_marker_for_merge`
compare keys lexicographically. For cells the key determines the cell, for markers up to the fields
that `row_marker::operator==` ignores.
-/

namespace Scylla.Mutation

open Prod.Lex

/-- Serialized values and keys. -/
abbrev Bytes := List (Fin 256)

instance neZero_byte : NeZero 256 := ⟨by decide⟩

/-- Bytewise comparison; a proper prefix is smaller. -/
def compareUnsigned : Bytes → Bytes → Ordering
  | [], [] => .eq
  | [], _ :: _ => .lt
  | _ :: _, [] => .gt
  | a :: v, b :: w => if a < b then .lt else if b < a then .gt else compareUnsigned v w

theorem compareUnsigned_eq_lt {v w : Bytes} : compareUnsigned v w = .lt ↔ v < w := by
  induction v generalizing w with
  | nil => cases w <;> simp [compareUnsigned]
  | cons a v ih =>
    cases w with
    | nil => simp [compareUnsigned]
    | cons b w =>
      rw [compareUnsigned, List.cons_lt_cons_iff]
      rcases lt_trichotomy a b with h | rfl | h
      · simp [h]
      · simp [ih]
      · simp [h, h.not_gt, h.ne']

theorem compareUnsigned_swap (v w : Bytes) :
    compareUnsigned w v = .lt ↔ compareUnsigned v w = .gt := by
  fun_induction compareUnsigned v w <;> grind [compareUnsigned]

theorem compare_swap {α : Type*} [LinearOrder α] (x y : α) :
    compare y x = .lt ↔ compare x y = .gt := by
  rw [compare_lt_iff_lt, compare_gt_iff_gt]

def missingTimestamp : I64 := I64.lowest

theorem missingTimestamp_le (x : I64) : missingTimestamp ≤ x := I64.lowest_le x

/-! ## Tombstones -/

/-- A deletion; unset when its timestamp is missing. -/
structure Tombstone where
  timestamp : I64
  /-- When the deletion was made, on the garbage collection clock. -/
  deletionTime : I64
  /-- An unset tombstone is a default-constructed one. -/
  unset : timestamp = missingTimestamp → deletionTime = 0
  deriving DecidableEq

namespace Tombstone

def none : Tombstone := ⟨missingTimestamp, 0, fun _ => rfl⟩

def written (timestamp deletionTime : I64) (h : timestamp ≠ missingTimestamp) : Tombstone :=
  ⟨timestamp, deletionTime, fun hmissing => absurd hmissing h⟩

instance : Inhabited Tombstone := ⟨none⟩

/-- `operator bool`. -/
def isSet (t : Tombstone) : Bool := t.timestamp ≠ missingTimestamp

variable {s t : Tombstone}

@[ext] theorem ext (ht : s.timestamp = t.timestamp) (hd : s.deletionTime = t.deletionTime) :
    s = t := by
  cases s
  simp_all

/-- The defaulted comparison is lexicographic. -/
def orderKey (t : Tombstone) : I64 ×ₗ I64 := toLex (t.timestamp, t.deletionTime)

theorem orderKey_injective : Function.Injective orderKey := by
  intro s t h
  have h' : s.timestamp = t.timestamp ∧ s.deletionTime = t.deletionTime := by
    simpa [orderKey] using h
  exact ext h'.1 h'.2

instance : LinearOrder Tombstone := LinearOrder.lift' orderKey orderKey_injective

theorem lt_iff : s < t ↔ s.timestamp < t.timestamp ∨
    s.timestamp = t.timestamp ∧ s.deletionTime < t.deletionTime :=
  Prod.Lex.toLex_lt_toLex

theorem le_iff : s ≤ t ↔ s.timestamp < t.timestamp ∨
    s.timestamp = t.timestamp ∧ s.deletionTime ≤ t.deletionTime :=
  Prod.Lex.toLex_le_toLex

theorem none_le (t : Tombstone) : none ≤ t := by
  rcases (missingTimestamp_le t.timestamp).lt_or_eq with h | h
  · exact le_iff.mpr (.inl h)
  · exact le_iff.mpr (.inr ⟨h, (t.unset h.symm).ge⟩)

theorem timestamp_mono (h : s ≤ t) : s.timestamp ≤ t.timestamp := by
  rcases le_iff.mp h with h | h
  · exact h.le
  · exact h.1.le

theorem eq_none_of_not_isSet (h : t.isSet = false) : t = none := by
  unfold isSet at h
  obtain ⟨ts, dt, hunset⟩ := t
  obtain rfl : ts = missingTimestamp := by simpa using h
  obtain rfl : dt = 0 := hunset rfl
  rfl

theorem isSet_of_lt (h : s < t) : t.isSet = true := by
  by_contra hset
  rw [Bool.not_eq_true] at hset
  exact h.not_ge (eq_none_of_not_isSet hset ▸ none_le s)

theorem isSet_mono (h : s ≤ t) : s.isSet = true → t.isSet = true := by
  unfold isSet
  simp only [decide_eq_true_eq]
  intro hs ht
  refine hs (le_antisymm ?_ (missingTimestamp_le _))
  exact ht ▸ timestamp_mono h

def apply (s t : Tombstone) : Tombstone := if s < t then t else s

theorem apply_eq_max (s t : Tombstone) : s.apply t = max s t := by
  unfold apply
  split
  · next h => rw [max_eq_right h.le]
  · next h => rw [max_eq_left (not_lt.mp h)]

@[simp] theorem timestamp_max (s t : Tombstone) :
    (max s t).timestamp = max s.timestamp t.timestamp := by
  rcases le_total s t with h | h
  · rw [max_eq_right h, max_eq_right (timestamp_mono h)]
  · rw [max_eq_left h, max_eq_left (timestamp_mono h)]

@[simp] theorem timestamp_apply (s t : Tombstone) :
    (s.apply t).timestamp = max s.timestamp t.timestamp := by
  rw [apply_eq_max, timestamp_max]

@[simp] theorem none_apply (t : Tombstone) : none.apply t = t := by
  rw [apply_eq_max, max_eq_right (none_le t)]

@[simp] theorem apply_none (t : Tombstone) : t.apply none = t := by
  rw [apply_eq_max, max_eq_left (none_le t)]

theorem mergeLaws : MergeLaws (fun _ => True) Eq apply := by
  have h : apply = (· ⊔ ·) := funext fun s => funext fun t => apply_eq_max s t
  rw [h]
  exact MergeLaws.sup

end Tombstone

/-! ## Keeping the greater value -/

/-- Replace the destination by the source when it compares as smaller. -/
def keepGreater {α : Type*} (cmp : α → α → Ordering) (dst src : α) : α :=
  if cmp dst src = .lt then src else dst

variable {α : Type*}

theorem key_keepGreater {κ : Type*} [LinearOrder κ] {cmp : α → α → Ordering} {key : α → κ}
    (hcmp : ∀ a b, key a ≠ key b → (cmp a b = .lt ↔ key a < key b)) (a b : α) :
    key (keepGreater cmp a b) = max (key a) (key b) := by
  unfold keepGreater
  by_cases hne : key a = key b
  · split <;> simp [hne]
  · split
    · next h => exact (max_eq_right ((hcmp a b hne).mp h).le).symm
    · next h => exact (max_eq_left (not_lt.mp fun hlt => h ((hcmp a b hne).mpr hlt))).symm

/-! ## Atomic cells -/

inductive AtomicCell where
  | dead (timestamp deletionTime : I64)
  | live (timestamp : I64) (value : Bytes)
  | expiring (timestamp : I64) (value : Bytes) (expiry ttl : I64)
  deriving DecidableEq

namespace AtomicCell

def timestamp : AtomicCell → I64
  | dead t _ | live t _ | expiring t _ _ _ => t

/-- The live flag of the cell, whatever its expiry. -/
def isLive : AtomicCell → Bool
  | dead .. => false
  | live .. | expiring .. => true

def isLiveAndHasTtl : AtomicCell → Bool
  | expiring .. => true
  | dead .. | live .. => false

/-- The value; called on live cells only. -/
def value : AtomicCell → Bytes
  | live _ v | expiring _ v _ _ => v
  | dead .. => []

/-- The expiry; called on expiring cells only. -/
def expiry : AtomicCell → I64
  | expiring _ _ e _ => e
  | dead .. | live .. => 0

/-- The time to live; called on expiring cells only. -/
def ttl : AtomicCell → I64
  | expiring _ _ _ l => l
  | dead .. | live .. => 0

def deletionTime (c : AtomicCell) : I64 :=
  match c with
  | dead _ d => d
  | live .. | expiring .. => c.expiry - c.ttl

def hasExpired (c : AtomicCell) (now : I64) : Bool := c.isLiveAndHasTtl && c.expiry ≤ now

/-- Whether a tombstone deletes the cell. Any tombstone deletes a counter. -/
def isCoveredBy (c : AtomicCell) (t : Tombstone) (isCounter : Bool) : Bool :=
  c.timestamp ≤ t.timestamp || (isCounter && t.timestamp ≠ missingTimestamp)

end AtomicCell

def compareAtomicCellForMerge (left right : AtomicCell) : Ordering :=
  if left.timestamp ≠ right.timestamp then compare left.timestamp right.timestamp
  else if left.isLive ≠ right.isLive then
    if left.isLive then .lt else .gt
  else if left.isLive then
    if left.isLiveAndHasTtl ≠ right.isLiveAndHasTtl then
      if left.isLiveAndHasTtl then .gt else .lt
    else if left.isLiveAndHasTtl ∧ left.expiry ≠ right.expiry then
      compare left.expiry right.expiry
    else if left.isLiveAndHasTtl ∧ right.ttl ≠ left.ttl then compare right.ttl left.ttl
    else compareUnsigned left.value right.value
  else compare left.deletionTime.toUnsigned right.deletionTime.toUnsigned

namespace AtomicCell

/-- What decides between two cells, most significant first. -/
def mergeKey : AtomicCell → I64 ×ₗ Bool ×ₗ Bool ×ₗ I64 ×ₗ I64ᵒᵈ ×ₗ Bytes ×ₗ ℕ
  | dead t d => toLex (t, toLex (true, toLex (false, toLex (0, toLex (OrderDual.toDual 0,
      toLex ([], d.toUnsigned))))))
  | live t v => toLex (t, toLex (false, toLex (false, toLex (0, toLex (OrderDual.toDual 0,
      toLex (v, 0))))))
  | expiring t v e l => toLex (t, toLex (false, toLex (true, toLex (e, toLex (OrderDual.toDual l,
      toLex (v, 0))))))

theorem mergeKey_injective : Function.Injective mergeKey := by
  rintro (⟨t, d⟩ | ⟨t, v⟩ | ⟨t, v, e, l⟩) (⟨t', d'⟩ | ⟨t', v'⟩ | ⟨t', v', e', l'⟩) h <;>
    simp_all [mergeKey]

end AtomicCell

private theorem ite_compare_eq_lt [LinearOrder α] (a b : α) (o : Ordering) :
    (if a = b then o else compare a b) = .lt ↔ a < b ∨ a = b ∧ o = .lt := by
  split
  · next h => simp [h]
  · next h => simp [compare_lt_iff_lt, h]

section

variable (left right : AtomicCell)

theorem compareAtomicCellForMerge_eq_lt :
    compareAtomicCellForMerge left right = .lt ↔ left.mergeKey < right.mergeKey := by
  unfold compareAtomicCellForMerge
  rw [ite_not, ite_compare_eq_lt]
  cases left <;> cases right <;>
    simp [AtomicCell.mergeKey, AtomicCell.timestamp, AtomicCell.isLive,
      AtomicCell.isLiveAndHasTtl, AtomicCell.value, AtomicCell.expiry, AtomicCell.ttl,
      AtomicCell.deletionTime, Prod.Lex.toLex_lt_toLex, compare_lt_iff_lt, compareUnsigned_eq_lt]
  case expiring.expiring => grind

theorem compareAtomicCellForMerge_swap :
    compareAtomicCellForMerge right left = .lt ↔ compareAtomicCellForMerge left right = .gt := by
  unfold compareAtomicCellForMerge
  grind [compareUnsigned_swap, compare_swap]

theorem compareAtomicCellForMerge_eq_gt :
    compareAtomicCellForMerge left right = .gt ↔ right.mergeKey < left.mergeKey := by
  rw [← compareAtomicCellForMerge_swap, compareAtomicCellForMerge_eq_lt]

end

namespace AtomicCell

def apply (dst src : AtomicCell) : AtomicCell := keepGreater compareAtomicCellForMerge dst src

theorem mergeKey_apply (a b : AtomicCell) :
    (a.apply b).mergeKey = max a.mergeKey b.mergeKey :=
  key_keepGreater (fun a b _ => compareAtomicCellForMerge_eq_lt a b) a b

theorem mergeLaws : MergeLaws (fun _ => True) Eq apply :=
  (MergeLaws.sup.comap mergeKey (fun _ _ => trivial) (fun _ => trivial)
    fun _ _ => mergeKey_apply _ _).congr_rel eq_equivalence fun _ _ => mergeKey_injective.eq_iff

theorem apply_eq_or (a b : AtomicCell) : a.apply b = a ∨ a.apply b = b := by
  unfold apply keepGreater
  split
  · exact .inr rfl
  · exact .inl rfl

theorem apply_of_timestamp_lt {a b : AtomicCell} (h : a.timestamp < b.timestamp) :
    a.apply b = b := by
  rw [apply, keepGreater, if_pos]
  rw [compareAtomicCellForMerge, if_pos h.ne, compare_lt_iff_lt]
  exact h

theorem apply_of_timestamp_gt {a b : AtomicCell} (h : b.timestamp < a.timestamp) :
    a.apply b = a :=
  (mergeLaws.comm trivial trivial).trans (apply_of_timestamp_lt h)

theorem timestamp_apply (a b : AtomicCell) :
    (a.apply b).timestamp = max a.timestamp b.timestamp := by
  rcases lt_trichotomy a.timestamp b.timestamp with h | h | h
  · rw [apply_of_timestamp_lt h, max_eq_right h.le]
  · rcases apply_eq_or a b with he | he <;> rw [he, h, max_self]
  · rw [apply_of_timestamp_gt h, max_eq_left h.le]

def survivor (t : Tombstone) (c : AtomicCell) : Option AtomicCell :=
  if t.timestamp < c.timestamp then some c else none

theorem survivor_merge (t : Tombstone) (x y : Option AtomicCell) :
    (Option.merge apply x y).bind (survivor t) =
      Option.merge apply (x.bind (survivor t)) (y.bind (survivor t)) := by
  cases x with
  | none => simp
  | some c =>
    cases y with
    | none => simp
    | some d =>
      simp only [Option.merge_some_some, Option.bind_some, survivor, timestamp_apply]
      by_cases hc : t.timestamp < c.timestamp <;> by_cases hd : t.timestamp < d.timestamp
      · simp [hc, hd]
      · have hlt : d.timestamp < c.timestamp := (not_lt.mp hd).trans_lt hc
        simp [hc, hd, apply_of_timestamp_gt hlt]
      · have hlt : c.timestamp < d.timestamp := (not_lt.mp hc).trans_lt hd
        simp [hc, hd, apply_of_timestamp_lt hlt]
      · simp [hc, hd]

theorem survivor_survivor (s t : Tombstone) (x : Option AtomicCell) :
    (x.bind (survivor s)).bind (survivor t) = x.bind (survivor (s.apply t)) := by
  cases x with
  | none => rfl
  | some c =>
    by_cases h : s.timestamp < c.timestamp <;> simp [survivor, Tombstone.timestamp_apply, h]

end AtomicCell

/-! ## Row markers -/

/-- The row marker, which keeps a row alive without live cells. -/
structure RowMarker where
  timestamp : I64 := missingTimestamp
  /-- The time to live, `0` for none and `-1` for a dead marker. -/
  ttl : I64 := 0
  /-- The expiry of an expiring marker, the deletion time of a dead one. -/
  expiry : I64 := 0
  deriving DecidableEq

namespace RowMarker

def noTtl : I64 := 0

/-- `row_marker::dead`. -/
def deadTtl : I64 := -1

def isMissing (m : RowMarker) : Bool := m.timestamp = missingTimestamp

def isLive (m : RowMarker) : Bool := !m.isMissing && m.ttl ≠ deadTtl

def isExpiring (m : RowMarker) : Bool := m.ttl ≠ noTtl

/-- When the marker was deleted, or counts as deleted once it has expired. -/
def deletionTime (m : RowMarker) : I64 := if m.ttl = deadTtl then m.expiry else m.expiry - m.ttl

def equal (a b : RowMarker) : Bool :=
  if a.timestamp ≠ b.timestamp then false
  else if a.isMissing then true
  else if a.ttl ≠ b.ttl then false
  else a.ttl = noTtl || a.expiry = b.expiry

end RowMarker

def compareRowMarkerForMerge (left right : RowMarker) : Ordering :=
  if left.timestamp ≠ right.timestamp then compare left.timestamp right.timestamp
  else if left.isLive ≠ right.isLive then
    if left.isLive then .lt else .gt
  else if left.isLive then
    if left.isExpiring ≠ right.isExpiring then
      if left.isExpiring then .gt else .lt
    else if left.isExpiring ∧ left.expiry ≠ right.expiry then compare left.expiry right.expiry
    else if left.isExpiring ∧ right.ttl ≠ left.ttl then compare right.ttl left.ttl
    else .eq
  else if left.deletionTime ≠ right.deletionTime then
    compare left.deletionTime.toUnsigned right.deletionTime.toUnsigned
  else .eq

namespace RowMarker

/-- The marker as a cell with an empty value, if it is not missing. -/
def toCell (m : RowMarker) : Option AtomicCell :=
  if m.isMissing then none
  else if m.ttl = deadTtl then some (.dead m.timestamp m.expiry)
  else if m.ttl = noTtl then some (.live m.timestamp [])
  else some (.expiring m.timestamp [] m.expiry m.ttl)

variable {m : RowMarker} {c : AtomicCell}

theorem toCell_eq_none : m.toCell = none ↔ m.timestamp = missingTimestamp := by
  unfold toCell
  split_ifs with h <;> simp_all [isMissing]

theorem toCell_eq_some (h : m.toCell = some c) :
    m.timestamp ≠ missingTimestamp ∧
      (m.ttl = deadTtl ∧ c = .dead m.timestamp m.expiry ∨ m.ttl = noTtl ∧ c = .live m.timestamp [] ∨
        m.ttl ≠ deadTtl ∧ m.ttl ≠ noTtl ∧ c = .expiring m.timestamp [] m.expiry m.ttl) := by
  unfold toCell at h
  split_ifs at h with hm hd hn <;> cases h <;> simp_all [isMissing]

theorem timestamp_of_toCell (h : m.toCell = some c) : c.timestamp = m.timestamp := by
  obtain ⟨-, ⟨-, rfl⟩ | ⟨-, rfl⟩ | ⟨-, -, rfl⟩⟩ := toCell_eq_some h <;> rfl

theorem equal_iff_toCell {a b : RowMarker} : a.equal b ↔ a.toCell = b.toCell := by
  have hne : deadTtl ≠ noTtl := by decide
  unfold equal
  cases ha : a.toCell with
  | none =>
    have hta := toCell_eq_none.mp ha
    rw [hta, eq_comm (a := none), toCell_eq_none]
    simp [isMissing, hta, eq_comm]
  | some c =>
    obtain ⟨hta, hc⟩ := toCell_eq_some ha
    cases hb : b.toCell with
    | none =>
      have htb := toCell_eq_none.mp hb
      simp [htb, hta]
    | some d =>
      obtain ⟨htb, hd⟩ := toCell_eq_some hb
      rcases hc with ⟨hl, rfl⟩ | ⟨hl, rfl⟩ | ⟨hl, hl', rfl⟩ <;>
        rcases hd with ⟨hk, rfl⟩ | ⟨hk, rfl⟩ | ⟨hk, hk', rfl⟩ <;>
          simp [isMissing, hne.symm, *] <;> grind

theorem compareRowMarkerForMerge_eq_lt {a b : RowMarker} {d : AtomicCell} (ha : a.toCell = some c)
    (hb : b.toCell = some d) :
    compareRowMarkerForMerge a b = .lt ↔ compareAtomicCellForMerge c d = .lt := by
  have hne : deadTtl ≠ noTtl := by decide
  obtain ⟨hta, hc⟩ := toCell_eq_some ha
  obtain ⟨htb, hd⟩ := toCell_eq_some hb
  rw [compareRowMarkerForMerge, ite_not, ite_compare_eq_lt]
  rcases hc with ⟨hl, rfl⟩ | ⟨hl, rfl⟩ | ⟨hl, hl', rfl⟩ <;>
    rcases hd with ⟨hk, rfl⟩ | ⟨hk, rfl⟩ | ⟨hk, hk', rfl⟩ <;>
      simp [compareAtomicCellForMerge_eq_lt, isMissing, isLive, isExpiring, deletionTime,
        AtomicCell.mergeKey, Prod.Lex.toLex_lt_toLex, hne.symm, compare_lt_iff_lt, *]
  all_goals grind

def apply (dst src : RowMarker) : RowMarker := keepGreater compareRowMarkerForMerge dst src

theorem toCell_apply (a b : RowMarker) :
    (a.apply b).toCell = Option.merge AtomicCell.apply a.toCell b.toCell := by
  unfold apply keepGreater
  cases ha : a.toCell with
  | none =>
    have hta := toCell_eq_none.mp ha
    cases hb : b.toCell with
    | none => split <;> assumption
    | some d =>
      have htb := (toCell_eq_some hb).1
      have hlt : a.timestamp < b.timestamp := by
        rw [hta]
        exact lt_of_le_of_ne (missingTimestamp_le _) htb.symm
      rw [if_pos (by simp [compareRowMarkerForMerge, hlt.ne, compare_lt_iff_lt, hlt]), hb]
      rfl
  | some c =>
    have hta := (toCell_eq_some ha).1
    cases hb : b.toCell with
    | none =>
      have htb := toCell_eq_none.mp hb
      have hlt : b.timestamp < a.timestamp := by
        rw [htb]
        exact lt_of_le_of_ne (missingTimestamp_le _) hta.symm
      rw [if_neg (by simp [compareRowMarkerForMerge, hlt.ne', compare_lt_iff_lt, hlt.le]), ha]
      rfl
    | some d =>
      rw [Option.merge_some_some, AtomicCell.apply, keepGreater]
      by_cases h : compareAtomicCellForMerge c d = .lt
      · rw [if_pos ((compareRowMarkerForMerge_eq_lt ha hb).mpr h), if_pos h, hb]
      · rw [if_neg fun hlt => h ((compareRowMarkerForMerge_eq_lt ha hb).mp hlt), if_neg h, ha]

theorem mergeLaws : MergeLaws (fun _ => True) (fun a b : RowMarker => a.equal b) apply := by
  have h : MergeLaws (fun _ => True) (fun a b : RowMarker => Option.Rel Eq a.toCell b.toCell)
      apply := by
    refine AtomicCell.mergeLaws.option.comap toCell (fun _ _ => trivial) (fun _ _ _ => trivial) ?_
    intro a b _ _
    exact optionRel_eq.mpr (toCell_apply a b)
  simpa only [optionRel_eq, ← equal_iff_toCell] using h

end RowMarker

end Scylla.Mutation
