import Scylla.Core.SortedDifference
import Scylla.Mutation.Liveness

/-!
# Differences of rows

`a.difference b` is meant to hold what `b` lacks of `a`: applying it to `b` should do what applying
`a` does. Row tombstones are compared by their shadowable part alone, so a newer regular part can be
left out. Applying all of `a` also removes collection cells that their own tombstone had deleted,
and lets a marker shadow the tombstone of its own row; the difference need not.
-/

namespace Scylla.Mutation

open Option
open CounterShards
open RowMarker

def CounterCell.difference : CounterCell → CounterCell → Option CounterCell
  | dead t d, dead t' d' =>
    if compareAtomicCellForMerge (.dead t' d') (.dead t d) = .lt then some (dead t d) else none
  | dead t d, live .. => some (dead t d)
  | live .., dead .. => none
  | live t a, live t' b =>
    let newer : CounterShards :=
      ⟨a.val.filter fun x => (b.lookup x.id).all fun y => y.logicalClock < x.logicalClock,
        a.property.filter _⟩
    if newer.val ≠ [] then some (live (max t t') newer)
    else if t' < t then some (live t newer)
    else none

def CollectionMutation.difference {kt : KeyType} (a b : CollectionMutation kt) :
    CollectionMutation kt where
  tomb := if b.tomb < a.tomb then a.tomb else Tombstone.none
  cells := a.cells.filter fun e =>
    (b.lookup e.1).all fun c => compareAtomicCellForMerge e.2 c = .gt
  sorted := a.sorted.filter _

def CellOf.difference : {k : ColumnKind} → CellOf k → CellOf k → Option (CellOf k)
  | .atomic, a, b => if compareAtomicCellForMerge a b = .gt then some a else none
  | .counter, a, b => CounterCell.difference a b
  | .collection _, a, b =>
    let diff := CollectionMutation.difference a b
    if diff.cells.isEmpty && !diff.tomb.isSet then none else some diff

def Row.difference {columns : List ColumnKind} (a b : Row columns) : Row columns := fun i =>
  match a i, b i with
  | none, _ => none
  | some c, none => some c
  | some c, some c' => c.difference c'

/-! ## Cells -/

theorem AtomicCell.merge_newer (a b : AtomicCell) :
    Option.merge apply (some b) (if compareAtomicCellForMerge a b = .gt then some a else none) =
      some (b.apply a) := by
  split
  · rfl
  · next h =>
    rw [merge_none_right, apply, keepGreater,
      if_neg fun hlt => h ((compareAtomicCellForMerge_swap a b).mp hlt)]

namespace CounterShards

/-- The loop of `counter_cell_view::difference`. -/
def difference (a b : CounterShards) : CounterShards :=
  ⟨differenceBy compare CounterShard.id (keepNewer fun x y => y.logicalClock < x.logicalClock)
    a.val b.val, sortedBy_differenceBy key_of_keepNewer a.property⟩

theorem difference_eq (a b : CounterShards) : a.difference b =
    ⟨a.val.filter fun x => (b.lookup x.id).all fun y => y.logicalClock < x.logicalClock,
      a.property.filter _⟩ :=
  Subtype.ext (differenceBy_keepNewer a.property b.property)

theorem apply_difference (a b : CounterShards) : b.apply (a.difference b) = b.apply a := by
  refine ext_lookup fun k => ?_
  have hdiff : (a.difference b).lookup k = (a.lookup k).bind fun x =>
      keepNewer (fun x y => y.logicalClock < x.logicalClock) x (b.lookup k) :=
    lookupBy_differenceBy key_of_keepNewer k a.property b.property
  rw [lookup_apply, lookup_apply, hdiff]
  cases a.lookup k with
  | none => rfl
  | some x =>
    cases b.lookup k with
    | none => rfl
    | some y =>
      by_cases h : y.logicalClock < x.logicalClock <;> simp [CounterShard.merge, h]

theorem apply_of_eq_nil {a b : CounterShards} (h : b.val = []) : a.apply b = a := by
  refine ext_lookup fun k => ?_
  have hnone : b.lookup k = none := by rw [lookup, h, lookupBy_nil]
  rw [lookup_apply, hnone, merge_none_right]

/-- The node of some shard is unknown to the other list, or known with an older clock. -/
def AddsTo (a b : CounterShards) : Prop :=
  ∃ x ∈ a.val, ∀ y ∈ b.lookup x.id, y.logicalClock < x.logicalClock

theorem difference_ne_nil {a b : CounterShards} : (a.difference b).val ≠ [] ↔ a.AddsTo b := by
  rw [difference_eq, AddsTo]
  simp [List.filter_eq_nil_iff, all_eq_true]

end CounterShards

namespace CounterCell

theorem difference_live (t t' : I64) (a b : CounterShards) :
    difference (live t a) (live t' b) =
      if (a.difference b).val ≠ [] then some (live (max t t') (a.difference b))
      else if t' < t then some (live t (a.difference b))
      else none := by
  rw [difference_eq]
  rfl

theorem merge_difference (a b : CounterCell) :
    Option.merge apply (some b) (a.difference b) = some (b.apply a) := by
  cases a with
  | dead t d =>
    cases b with
    | dead t' d' =>
      rw [difference, apply]
      split <;> simp_all [apply]
    | live t' s' => rfl
  | live t s =>
    cases b with
    | dead t' d' => rfl
    | live t' s' =>
      have hshards := apply_difference s s'
      rw [difference_live, apply]
      split
      · rw [merge_some_some, apply, hshards, max_left_comm, max_self, max_comm t]
      · next hnil =>
        rw [apply_of_eq_nil (not_not.mp hnil)] at hshards
        rw [← hshards]
        split
        · rw [merge_some_some, apply, apply_of_eq_nil (not_not.mp hnil)]
        · next hlt => rw [merge_none_right, max_eq_left (not_lt.mp hlt)]

def AddsTo : CounterCell → CounterCell → Prop
  | dead .., live .. => True
  | live .., dead .. => False
  | dead t d, dead t' d' => compareAtomicCellForMerge (.dead t' d') (.dead t d) = .lt
  | live t s, live t' s' => t' < t ∨ s.AddsTo s'

theorem isSome_difference {a b : CounterCell} : (a.difference b).isSome ↔ a.AddsTo b := by
  cases a with
  | dead t d => cases b <;> simp [difference, AddsTo]
  | live t s =>
    cases b with
    | dead t' d' => simp [difference, AddsTo]
    | live t' s' =>
      rw [AddsTo, ← difference_ne_nil, difference_live]
      by_cases hnil : (s.difference s').val = [] <;> by_cases hlt : t' < t <;> simp [hnil, hlt]

end CounterCell

namespace CollectionMutation

variable {kt : KeyType}

/-- Whether a cell is greater than the other cell of its key. -/
def Newer (c e : Bytes × AtomicCell) : Prop := compareAtomicCellForMerge c.2 e.2 = .gt

instance : DecidableRel Newer := fun _ _ => inferInstanceAs (Decidable (_ = _))

def entry (c : CollectionMutation kt) (k : Bytes) : Option (Bytes × AtomicCell) :=
  lookupBy kt.cmp Prod.fst some k c.cells

variable {e c : Bytes × AtomicCell} {a b : CollectionMutation kt} {t : Tombstone}

section

variable {c : CollectionMutation kt}

theorem mem_of_entry {k : Bytes} (h : c.entry k = some e) :
    e ∈ c.cells ∧ kt.cmp k e.1 = .eq := by
  obtain ⟨e', he, hk, hee⟩ := exists_of_lookupBy_eq_some h
  cases hee
  exact ⟨he, hk⟩

theorem entry_of_mem (h : e ∈ c.cells) : c.entry e.1 = some e :=
  lookupBy_of_mem c.sorted h

theorem entry_congr {k k' : Bytes} (h : kt.cmp k k' = .eq) :
    c.entry k = c.entry k' :=
  lookupBy_congr h c.cells

end

theorem eq_iff_entry : a = b ↔ a.tomb = b.tomb ∧ ∀ k, a.entry k = b.entry k :=
  ⟨by rintro rfl; exact ⟨rfl, fun _ => rfl⟩,
    fun h => ext h.1 (eq_of_lookupBy_eq a.sorted b.sorted h.2)⟩

theorem cells_difference (a b : CollectionMutation kt) : (a.difference b).cells =
    differenceBy kt.cmp Prod.fst (keepNewer Newer) a.cells b.cells := by
  rw [differenceBy_keepNewer a.sorted b.sorted, difference]
  refine List.filter_congr fun c _ => ?_
  rw [lookup, lookupBy_eq_bind]
  cases lookupBy kt.cmp Prod.fst some c.1 b.cells with
  | none => rfl
  | some e => exact decide_eq_decide.mpr Iff.rfl

def isEmpty (c : CollectionMutation kt) : Bool := c.cells.isEmpty && !c.tomb.isSet

/-- The collection has a newer tombstone, or a cell that the other lacks or has older. -/
def AddsTo (a b : CollectionMutation kt) : Prop :=
  b.tomb < a.tomb ∨ ∃ c ∈ a.cells, ∀ e ∈ b.entry c.1, Newer c e

theorem isEmpty_difference : (a.difference b).isEmpty = false ↔ a.AddsTo b := by
  have hcells : (a.difference b).cells ≠ [] ↔ ∃ c ∈ a.cells, ∀ e ∈ b.entry c.1, Newer c e := by
    rw [cells_difference, differenceBy_keepNewer a.sorted b.sorted]
    simp [List.filter_eq_nil_iff, all_eq_true, entry]
  have htomb : (a.difference b).tomb.isSet = true ↔ b.tomb < a.tomb := by
    unfold difference
    split
    · next h => simp [h, Tombstone.isSet_of_lt h]
    · next h => simp [h, Tombstone.isSet, Tombstone.none]
  rw [AddsTo, ← hcells, ← htomb, isEmpty, Bool.and_eq_false_iff, Bool.not_eq_false',
    List.isEmpty_eq_false_iff, or_comm]

/-- What a tombstone leaves of an entry. -/
def unkilled (t : Tombstone) (e : Option (Bytes × AtomicCell)) : Option (Bytes × AtomicCell) :=
  e.filter fun e => !cellKilled t e

theorem entry_merge (a b : CollectionMutation kt) (k : Bytes) :
    (a.merge b).entry k =
      Option.merge mergeElement (unkilled b.tomb (a.entry k)) (unkilled a.tomb (b.entry k)) := by
  have hfilter : ∀ (c : CollectionMutation kt) (t : Tombstone),
      lookupBy kt.cmp Prod.fst some k (c.cells.filter fun e => !cellKilled t e) =
        unkilled t (c.entry k) := by
    intro c t
    rw [lookupBy_filter c.sorted, lookupBy_eq_bind, entry]
    cases lookupBy kt.cmp Prod.fst some k c.cells <;> simp [unkilled, Option.filter]
  rw [← hfilter, ← hfilter]
  exact lookupBy_combine (fun x y _ => mergeElement_fst x y) (fun _ _ _ => rfl) k
    (a.sorted.filter _) (b.sorted.filter _)

theorem entry_difference (a b : CollectionMutation kt) (k : Bytes) :
    (a.difference b).entry k = (a.entry k).bind fun c => keepNewer Newer c (b.entry k) := by
  rw [entry, cells_difference]
  exact lookupBy_differenceBy key_of_keepNewer k a.sorted b.sorted

theorem mergeElement_of_not_newer (h : ¬ Newer c e) : mergeElement e c = e := by
  have hmerge := AtomicCell.merge_newer c.2 e.2
  rw [if_neg (show ¬ compareAtomicCellForMerge c.2 e.2 = .gt from h), merge_none_right]
    at hmerge
  exact Prod.ext rfl ((mergeElement_snd e c).trans (Option.some.inj hmerge).symm)

theorem mergeElement_of_newer (h : Newer c e) : mergeElement e c = (e.1, c.2) := by
  have hlt : e.2.mergeKey < c.2.mergeKey := (compareAtomicCellForMerge_eq_gt c.2 e.2).mp h
  rw [mergeElement, if_neg]
  rw [compareAtomicCellForMerge_eq_gt]
  exact hlt.not_gt

theorem newer_of_timestamp_lt (h : e.2.timestamp < c.2.timestamp) : Newer c e := by
  rw [Newer, compareAtomicCellForMerge, if_pos h.ne', compare_gt_iff_gt]
  exact h

theorem cellKilled_of_not_newer (h : ¬ Newer c e) (he : cellKilled t e = true) :
    cellKilled t c = true := by
  have hle : c.2.timestamp ≤ e.2.timestamp := not_lt.mp fun hlt => h (newer_of_timestamp_lt hlt)
  simp only [cellKilled, Bool.not_eq_true', decide_eq_false_iff_not, not_lt] at he ⊢
  exact hle.trans he

theorem cellKilled_mono {s : Tombstone} (h : s ≤ t) (he : cellKilled s e = true) :
    cellKilled t e = true := by
  simp only [cellKilled, Bool.not_eq_true', decide_eq_false_iff_not, not_lt] at he ⊢
  exact he.trans (Tombstone.timestamp_mono h)

theorem unkilled_some (t : Tombstone) (e : Bytes × AtomicCell) :
    unkilled t (some e) = if cellKilled t e then none else some e := by
  cases h : cellKilled t e <;> simp [unkilled, h]

@[simp] theorem unkilled_none (t : Tombstone) : unkilled t none = none := rfl

theorem merge_unkilled_iff (t u : Tombstone) (x y : Option (Bytes × AtomicCell)) :
    Option.merge mergeElement (unkilled t y)
        (unkilled u (x.bind fun c => keepNewer Newer c y)) =
      Option.merge mergeElement (unkilled t y) (unkilled u x) ↔
    ∀ c ∈ x, ∀ e ∈ y, ¬ Newer c e → cellKilled u c = false → cellKilled t e = false := by
  cases x with
  | none => simp
  | some c =>
    cases y with
    | none => simp
    | some e =>
      by_cases hnewer : Newer c e
      · simp [hnewer]
      · have hmerge := mergeElement_of_not_newer hnewer
        cases hc : cellKilled u c <;> cases he : cellKilled t e <;>
          simp [unkilled_some, hnewer, hc, he, hmerge]

theorem merge_unkilled_none_iff {u : Tombstone} (htu : t ≤ u) (x y : Option (Bytes × AtomicCell)) :
    Option.merge mergeElement (unkilled Tombstone.none y)
        (unkilled u (x.bind fun c => keepNewer Newer c y)) =
      Option.merge mergeElement (unkilled t y) (unkilled u x) ↔
    ∀ e ∈ y, cellKilled t e = true → cellKilled Tombstone.none e = true ∨
      ∃ c ∈ x, c.1 = e.1 ∧ cellKilled u c = false := by
  cases y with
  | none => cases x <;> simp
  | some e =>
    by_cases het : cellKilled t e = true
    · have heu := cellKilled_mono htu het
      cases x with
      | none => cases hen : cellKilled Tombstone.none e <;> simp [unkilled_some, het, hen]
      | some c =>
        by_cases hnewer : Newer c e
        · have hmerge : mergeElement e c = c ↔ c.1 = e.1 := by
            rw [mergeElement_of_newer hnewer, Prod.ext_iff]
            simp [eq_comm]
          cases hen : cellKilled Tombstone.none e <;> cases hcu : cellKilled u c <;>
            simp [unkilled_some, het, hen, hnewer, hcu, hmerge]
        · have hcu := cellKilled_of_not_newer hnewer heu
          cases hen : cellKilled Tombstone.none e <;>
            simp [unkilled_some, het, hen, hnewer, hcu]
    · have hen : ¬ cellKilled Tombstone.none e = true := fun h =>
        het (cellKilled_mono (Tombstone.none_le t) h)
      have hsame := (merge_unkilled_iff t u x (some e)).mpr fun c _ e' he' _ _ => by
        cases he'
        exact Bool.eq_false_iff.mpr het
      simpa [unkilled_some, het, hen] using hsame

theorem eq_merge_unkilled_iff {u : Tombstone} (htu : t ≤ u) {x y : Option (Bytes × AtomicCell)}
    (hnone : ∀ c ∈ x, ∃ e ∈ y, ¬ Newer c e) :
    y = Option.merge mergeElement (unkilled t y) (unkilled u x) ↔
      ∀ e ∈ y, cellKilled t e = false := by
  cases y with
  | none =>
    cases x with
    | none => simp
    | some c =>
      obtain ⟨e, he, -⟩ := hnone c rfl
      cases he
  | some e =>
    cases x with
    | none => cases het : cellKilled t e <;> simp [unkilled_some, het]
    | some c =>
      obtain ⟨e', he', hnewer⟩ := hnone c rfl
      cases he'
      cases het : cellKilled t e with
      | false =>
        cases hcu : cellKilled u c <;>
          simp [unkilled_some, het, hcu, mergeElement_of_not_newer hnewer]
      | true =>
        have hcu := cellKilled_of_not_newer hnewer (cellKilled_mono htu het)
        simp [unkilled_some, het, hcu]

structure Recoverable (a b : CollectionMutation kt) : Prop where
  /-- A cell of `a` that outlives the tombstone of `b` and is not newer than that of `b` is not
  needed in its place. -/
  newerTomb : b.tomb < a.tomb → ∀ c ∈ a.cells, ∀ e ∈ b.cells, kt.cmp c.1 e.1 = .eq →
    ¬ Newer c e → cellKilled b.tomb c = false → cellKilled a.tomb e = false
  /-- A tombstone of `a` that is not newer deletes a cell of `b` only if the difference does or a
  cell of `a` takes its place. -/
  olderTomb : ¬ b.tomb < a.tomb → ∀ e ∈ b.cells, cellKilled a.tomb e = true →
    (cellKilled Tombstone.none e = true ∧ a.AddsTo b) ∨
      ∃ c ∈ a.cells, c.1 = e.1 ∧ cellKilled b.tomb c = false

theorem tomb_merge_difference (a b : CollectionMutation kt) :
    (b.merge (a.difference b)).tomb = (b.merge a).tomb := by
  change b.tomb.apply (if b.tomb < a.tomb then a.tomb else Tombstone.none) = b.tomb.apply a.tomb
  split
  · rfl
  · next h =>
    rw [Tombstone.apply_none, Tombstone.apply_eq_max, max_eq_left (not_lt.mp h)]

theorem merge_difference_newerTomb (hlt : b.tomb < a.tomb) :
    b.merge (a.difference b) = b.merge a ↔
      ∀ c ∈ a.cells, ∀ e ∈ b.cells, kt.cmp c.1 e.1 = .eq → ¬ Newer c e →
        cellKilled b.tomb c = false → cellKilled a.tomb e = false := by
  have htomb : (a.difference b).tomb = a.tomb := if_pos hlt
  rw [eq_iff_entry, and_iff_right (tomb_merge_difference a b)]
  simp only [entry_merge, entry_difference, htomb, merge_unkilled_iff]
  constructor
  · intro h c hc e he hk
    exact h c.1 c (entry_of_mem hc) e ((entry_congr hk).trans (entry_of_mem he))
  · intro h k c hc e he
    obtain ⟨hc, hkc⟩ := mem_of_entry hc
    obtain ⟨he, hke⟩ := mem_of_entry he
    exact h c hc e he (Std.TransCmp.eq_trans (Std.OrientedCmp.eq_symm hkc) hke)

theorem merge_difference_olderTomb (hle : ¬ b.tomb < a.tomb) :
    b.merge (a.difference b) = b.merge a ↔
      ∀ e ∈ b.cells, cellKilled a.tomb e = true → cellKilled Tombstone.none e = true ∨
        ∃ c ∈ a.cells, c.1 = e.1 ∧ cellKilled b.tomb c = false := by
  have htomb : (a.difference b).tomb = Tombstone.none := if_neg hle
  rw [eq_iff_entry, and_iff_right (tomb_merge_difference a b)]
  simp only [entry_merge, entry_difference, htomb, merge_unkilled_none_iff (not_lt.mp hle)]
  constructor
  · intro h e he hkilled
    refine (h e.1 e (entry_of_mem he) hkilled).imp_right ?_
    rintro ⟨c, hc, hce⟩
    exact ⟨c, (mem_of_entry hc).1, hce⟩
  · intro h k e he hkilled
    obtain ⟨he, hke⟩ := mem_of_entry he
    refine (h e he hkilled).imp_right ?_
    rintro ⟨c, hc, hce, hcu⟩
    exact ⟨c, (entry_congr (hce ▸ hke)).trans (entry_of_mem hc), hce, hcu⟩

theorem eq_merge_of_not_addsTo (hadds : ¬ a.AddsTo b) :
    b = b.merge a ↔ ∀ e ∈ b.cells, cellKilled a.tomb e = false := by
  obtain ⟨hle, hcells⟩ := not_or.mp hadds
  have htomb : b.tomb = (b.merge a).tomb :=
    ((Tombstone.apply_eq_max _ _).trans (max_eq_left (not_lt.mp hle))).symm
  have hnone : ∀ k, ∀ c ∈ a.entry k, ∃ e ∈ b.entry k, ¬ Newer c e := by
    intro k c hc
    obtain ⟨hc, hkc⟩ := mem_of_entry hc
    by_contra hall
    refine hcells ⟨c, hc, fun e he => ?_⟩
    by_contra hnewer
    exact hall ⟨e, (entry_congr hkc).trans he, hnewer⟩
  rw [eq_iff_entry, and_iff_right htomb]
  simp only [entry_merge, eq_merge_unkilled_iff (not_lt.mp hle) (hnone _)]
  constructor
  · intro h e he
    exact h e.1 e (entry_of_mem he)
  · intro h k e he
    exact h e (mem_of_entry he).1

theorem merge_difference_iff :
    Option.merge merge (some b)
      (if (a.difference b).isEmpty then none else some (a.difference b)) = some (b.merge a) ↔
        a.Recoverable b := by
  by_cases hlt : b.tomb < a.tomb
  · rw [isEmpty_difference.mpr (.inl hlt), if_neg Bool.false_ne_true, merge_some_some,
      Option.some.injEq, merge_difference_newerTomb hlt]
    exact ⟨fun h => ⟨fun _ => h, fun hnot => absurd hlt hnot⟩, fun h => h.newerTomb hlt⟩
  · by_cases hadds : a.AddsTo b
    · rw [isEmpty_difference.mpr hadds, if_neg Bool.false_ne_true, merge_some_some,
        Option.some.injEq, merge_difference_olderTomb hlt]
      refine ⟨fun h => ⟨fun hnot => absurd hnot hlt, fun _ => ?_⟩, fun h e he hkilled => ?_⟩
      · exact fun e he hkilled => (h e he hkilled).imp_left fun hnone => ⟨hnone, hadds⟩
      · exact (h.olderTomb hlt e he hkilled).imp_left And.left
    · have hempty : (a.difference b).isEmpty = true :=
        Bool.not_eq_false _ ▸ fun h => hadds (isEmpty_difference.mp h)
      rw [if_pos hempty, merge_none_right, Option.some.injEq, eq_merge_of_not_addsTo hadds]
      refine ⟨fun h => ⟨fun hnot => absurd hnot hlt, fun _ e he hkilled => ?_⟩, fun h e he => ?_⟩
      · rw [h e he] at hkilled
        cases hkilled
      · by_contra hkilled
        rw [Bool.not_eq_false] at hkilled
        rcases h.olderTomb hlt e he hkilled with ⟨-, h'⟩ | ⟨c, hc, hce, hcu⟩
        · exact hadds h'
        · -- a cell of `a` in its place is newer
          refine hadds (.inr ⟨c, hc, fun e' he' => ?_⟩)
          rw [hce, entry_of_mem he] at he'
          cases he'
          by_contra hnewer
          have heu := cellKilled_mono (not_lt.mp hlt) hkilled
          rw [cellKilled_of_not_newer hnewer heu] at hcu
          cases hcu

end CollectionMutation

/-! ## Rows -/

namespace CellOf

/-- Whether a value of a column adds something to another one. -/
def AddsTo : {k : ColumnKind} → CellOf k → CellOf k → Prop
  | .atomic, a, b => compareAtomicCellForMerge a b = .gt
  | .counter, a, b => CounterCell.AddsTo a b
  | .collection _, a, b => CollectionMutation.AddsTo a b

/-- Whether the difference brings a value to where applying all of `a` leaves it. -/
def Recoverable : {k : ColumnKind} → CellOf k → CellOf k → Prop
  | .atomic, _, _ => True
  | .counter, _, _ => True
  | .collection _, a, b => CollectionMutation.Recoverable a b

theorem isSome_difference : {k : ColumnKind} → {a b : CellOf k} →
    ((a.difference b).isSome ↔ a.AddsTo b)
  | .atomic, a, b => by
    rw [difference, AddsTo]
    split <;> simp_all
  | .counter, a, b => CounterCell.isSome_difference
  | .collection _, a, b => by
    refine Iff.trans ?_ CollectionMutation.isEmpty_difference
    change (if (CollectionMutation.difference a b).isEmpty then none
      else some (CollectionMutation.difference a b)).isSome = true ↔ _
    cases (CollectionMutation.difference a b).isEmpty <;> simp

theorem merge_difference_iff : {k : ColumnKind} → {a b : CellOf k} →
    (Option.merge apply (some b) (a.difference b) = some (b.apply a) ↔ a.Recoverable b)
  | .atomic, a, b => iff_of_true (AtomicCell.merge_newer a b) trivial
  | .counter, a, b => iff_of_true (CounterCell.merge_difference a b) trivial
  | .collection _, _, _ => CollectionMutation.merge_difference_iff

end CellOf

namespace Row

variable {columns : List ColumnKind}

/-- Some cell is missing in the other row or adds something to it. -/
def AddsTo (a b : Row columns) : Prop := ∃ i, ∃ c ∈ a i, ∀ e ∈ b i, c.AddsTo e

/-- The difference brings every cell to the state in which applying the row leaves it. -/
def Recoverable (a b : Row columns) : Prop := ∀ i, ∀ c ∈ a i, ∀ e ∈ b i, c.Recoverable e

theorem isSome_difference (a b : Row columns) (i : Fin columns.length) :
    (a.difference b i).isSome ↔ ∃ c ∈ a i, ∀ e ∈ b i, c.AddsTo e := by
  unfold difference
  cases a i with
  | none => simp
  | some c =>
    cases b i with
    | none => simp
    | some e => simp [CellOf.isSome_difference]

variable {a b : Row columns}

theorem isEmpty_difference : (a.difference b).isEmpty = false ↔ a.AddsTo b := by
  simp only [isEmpty, AddsTo, ← isSome_difference]
  simp [isSome_iff_ne_none]

theorem apply_of_isEmpty (h : b.isEmpty = true) : a.apply b = a := by
  rw [isEmpty, decide_eq_true_iff] at h
  funext i
  rw [apply, isNone_iff_eq_none.mp (h i), merge_none_right]

theorem apply_difference_iff : b.apply (a.difference b) = b.apply a ↔ a.Recoverable b := by
  have hcells : b.apply (a.difference b) = b.apply a ↔
      ∀ i, b.apply (a.difference b) i = b.apply a i := funext_iff
  refine hcells.trans (forall_congr' fun i => ?_)
  simp only [apply, difference]
  cases a i with
  | none => simp
  | some c =>
    cases b i with
    | none => simp
    | some e => simpa using CellOf.merge_difference_iff

end Row

/-! ## Markers and row tombstones -/

namespace RowMarker

theorem compareRowMarkerForMerge_swap (a b : RowMarker) :
    compareRowMarkerForMerge b a = .lt ↔ compareRowMarkerForMerge a b = .gt := by
  unfold compareRowMarkerForMerge
  grind [compare_swap]

/-- What `deletable_row::difference` keeps of a marker. -/
def difference (a b : RowMarker) : RowMarker :=
  if compareRowMarkerForMerge a b = .gt then ({} : RowMarker).apply a else {}

theorem toCell_empty : ({} : RowMarker).toCell = none := rfl

variable {a b : RowMarker}

theorem apply_of_not_newer (h : compareRowMarkerForMerge a b ≠ .gt) : b.apply a = b := by
  rw [apply, keepGreater, if_neg fun hlt => h ((compareRowMarkerForMerge_swap a b).mp hlt)]

theorem toCell_difference (a b : RowMarker) :
    (a.difference b).toCell = if compareRowMarkerForMerge a b = .gt then a.toCell else none := by
  unfold difference
  split
  · rw [toCell_apply, toCell_empty, merge_none_left]
  · rfl

theorem equal_apply_difference (a b : RowMarker) :
    (b.apply (a.difference b)).equal (b.apply a) := by
  rw [equal_iff_toCell, toCell_apply, toCell_apply, toCell_difference]
  split
  · rfl
  · next h => rw [← toCell_apply, apply_of_not_newer h, merge_none_right]

theorem isLive_of_equal (h : a.equal b) : a.timestamp = b.timestamp ∧ a.isLive = b.isLive := by
  unfold equal at h
  split_ifs at h <;> simp_all [isLive, isMissing]

theorem isLive_of_live_difference (hlive : (a.difference b).isLive = true) :
    (b.apply a).isLive = true ∧ (b.apply a).timestamp = (a.difference b).timestamp := by
  by_cases hgt : compareRowMarkerForMerge a b = .gt
  · have hkept : b.apply a = a := if_pos ((compareRowMarkerForMerge_swap a b).mpr hgt)
    have hequal : (b.apply a).equal (a.difference b) := by
      rw [equal_iff_toCell, hkept, toCell_difference, if_pos hgt]
    obtain ⟨ht, hl⟩ := isLive_of_equal hequal
    exact ⟨hl.trans hlive, ht⟩
  · rw [difference, if_neg hgt] at hlive
    exact absurd hlive (by decide)

/-- The marker is newer than the other one. -/
def AddsTo (a b : RowMarker) : Prop := a.isMissing = false ∧ compareRowMarkerForMerge a b = .gt

theorem isMissing_iff_toCell {m : RowMarker} : m.isMissing = true ↔ m.toCell = none := by
  rw [toCell_eq_none, isMissing, decide_eq_true_iff]

theorem isMissing_difference : (a.difference b).isMissing = false ↔ a.AddsTo b := by
  rw [AddsTo, ← Bool.not_eq_true, ← Bool.not_eq_true, isMissing_iff_toCell, isMissing_iff_toCell,
    toCell_difference]
  split <;> simp_all

theorem equal_of_not_addsTo (h : ¬ a.AddsTo b) : b.equal (b.apply a) := by
  have hmissing : (a.difference b).toCell = none := by
    rw [← isMissing_iff_toCell, ← Bool.not_eq_false, isMissing_difference]
    exact h
  have hequal := equal_apply_difference a b
  rw [equal_iff_toCell, toCell_apply, hmissing, merge_none_right] at hequal
  rw [equal_iff_toCell]
  exact hequal

end RowMarker

namespace RowTombstone

variable {t u : RowTombstone} {m m' : RowMarker}

theorem eq_iff : t = u ↔ t.regular = u.regular ∧ t.shadowable = u.shadowable := by
  cases t
  cases u
  simp

theorem regular_maybeShadow (t : RowTombstone) (m : RowMarker) :
    (t.maybeShadow m).regular = t.regular := by
  unfold maybeShadow
  split <;> rfl

theorem regular_apply (t u : RowTombstone) (m : RowMarker) :
    (t.apply u m).regular = max t.regular u.regular :=
  (regular_maybeShadow _ m).trans (Tombstone.apply_eq_max _ _)

theorem maybeShadow_congr (t : RowTombstone) (h : m.equal m') :
    t.maybeShadow m = t.maybeShadow m' := by
  obtain ⟨ht, hl⟩ := isLive_of_equal h
  rw [maybeShadow, maybeShadow, ht, hl]

theorem apply_congr (t u : RowTombstone) (h : m.equal m') : t.apply u m = t.apply u m' :=
  maybeShadow_congr _ h

theorem apply_of_le (hr : u.regular ≤ t.regular) (hs : u.shadowable ≤ t.shadowable)
    (m : RowMarker) : t.apply u m = t.maybeShadow m := by
  unfold apply
  congr 1
  rw [eq_iff]
  simp only [Tombstone.apply_eq_max, max_eq_left hr, max_eq_left hs, and_self]

theorem apply_maybeShadow (hlt : t.shadowable < u.shadowable)
    (hm : m'.isLive = true → m.isLive = true ∧ m.timestamp = m'.timestamp) :
    t.apply (u.maybeShadow m') m = t.apply u m := by
  by_cases hshadow : m'.isLive = true ∧ u.shadowable.timestamp < m'.timestamp
  · obtain ⟨hlive, hts⟩ := hm hshadow.1
    have hu : u.maybeShadow m' = ofRegular u.regular := if_pos hshadow
    have hut : u.shadowable.timestamp < m.timestamp := hts ▸ hshadow.2
    have htt : t.shadowable.timestamp < m.timestamp :=
      (Tombstone.timestamp_mono hlt.le).trans_lt hut
    have hrt : u.regular.timestamp < m.timestamp :=
      (Tombstone.timestamp_mono u.regular_le).trans_lt hut
    rw [hu, apply, apply, maybeShadow, maybeShadow, if_pos, if_pos]
    · rfl
    · exact ⟨hlive, by rw [Tombstone.timestamp_apply]; exact max_lt htt hut⟩
    · exact ⟨hlive, by rw [Tombstone.timestamp_apply]; exact max_lt htt hrt⟩
  · rw [show u.maybeShadow m' = u from if_neg hshadow]

end RowTombstone

namespace DeletableRow

variable {columns : List ColumnKind}

/-- `deletable_row::difference`. Row tombstones are compared by their shadowable part. -/
def difference (a b : DeletableRow columns) : DeletableRow columns :=
  let dr : DeletableRow columns := empty
  let dr := if b.deletedAt.shadowable < a.deletedAt.shadowable then dr.applyTombstone a.deletedAt
    else dr
  let dr := if compareRowMarkerForMerge a.marker b.marker = .gt then dr.applyMarker a.marker else dr
  { dr with cells := a.cells.difference b.cells }

theorem isEmpty_eq (r : DeletableRow columns) : r.isEmpty =
    (!r.deletedAt.shadowable.isSet && r.marker.isMissing && r.cells.isEmpty) := rfl

@[simp] theorem marker_difference (a b : DeletableRow columns) :
    (a.difference b).marker = a.marker.difference b.marker := by
  unfold difference RowMarker.difference
  split_ifs <;> rfl

@[simp] theorem cells_difference (a b : DeletableRow columns) :
    (a.difference b).cells = a.cells.difference b.cells := rfl

variable {a b : DeletableRow columns}

theorem deletedAt_difference_of_lt (hlt : b.deletedAt.shadowable < a.deletedAt.shadowable) :
    (a.difference b).deletedAt = a.deletedAt.maybeShadow (a.difference b).marker := by
  have hnone : ∀ t : RowTombstone, RowTombstone.none.apply t {} = t := by
    intro t
    rw [RowTombstone.apply, RowTombstone.maybeShadow, if_neg (by simp [RowMarker.isLive,
      RowMarker.isMissing]), RowTombstone.eq_iff]
    exact ⟨Tombstone.none_apply _, Tombstone.none_apply _⟩
  have hempty : a.deletedAt.maybeShadow {} = a.deletedAt :=
    if_neg (by simp [RowMarker.isLive, RowMarker.isMissing])
  rw [marker_difference, RowMarker.difference]
  simp only [difference, if_pos hlt]
  split_ifs
  · change (RowTombstone.none.apply a.deletedAt {}).maybeShadow _ = _
    rw [hnone]
    rfl
  · change RowTombstone.none.apply a.deletedAt {} = _
    rw [hnone, hempty]

theorem deletedAt_difference_of_le (hle : ¬ b.deletedAt.shadowable < a.deletedAt.shadowable) :
    (a.difference b).deletedAt = RowTombstone.none := by
  simp only [difference, if_neg hle]
  split_ifs
  · change RowTombstone.none.maybeShadow _ = _
    unfold RowTombstone.maybeShadow
    split <;> rfl
  · rfl

def AddsTo (a b : DeletableRow columns) : Prop :=
  b.deletedAt.shadowable < a.deletedAt.shadowable ∨ a.marker.AddsTo b.marker ∨
    a.cells.AddsTo b.cells

theorem isEmpty_difference : (a.difference b).isEmpty = false ↔ a.AddsTo b := by
  by_cases hlt : b.deletedAt.shadowable < a.deletedAt.shadowable
  · refine iff_of_true ?_ (.inl hlt)
    have hset := Tombstone.isSet_of_lt hlt
    rw [isEmpty_eq, deletedAt_difference_of_lt hlt, RowTombstone.maybeShadow]
    split
    · next hshadow =>
      have hmissing : (a.difference b).marker.isMissing = false := by
        have hlive := hshadow.1
        rw [RowMarker.isLive, Bool.and_eq_true, Bool.not_eq_true'] at hlive
        exact hlive.1
      rw [hmissing, Bool.and_false, Bool.false_and]
    · simp [hset]
  · have hunset : RowTombstone.none.shadowable.isSet = false := rfl
    rw [AddsTo, or_iff_right hlt, isEmpty_eq, deletedAt_difference_of_le hlt, hunset,
      marker_difference, cells_difference, ← isMissing_difference,
      ← Row.isEmpty_difference, Bool.not_false, Bool.true_and, Bool.and_eq_false_iff]

theorem isEmpty_empty_difference (b : DeletableRow columns) :
    (empty.difference b).isEmpty = true := by
  rw [← Bool.not_eq_false, isEmpty_difference]
  rintro (hlt | hmarker | ⟨i, c, hc, -⟩)
  · exact (Tombstone.none_le b.deletedAt.shadowable).not_gt hlt
  · cases hmarker.1
  · cases hc

/-- The state of a row, with both parts of its tombstone. -/
structure SameState (a b : DeletableRow columns) : Prop where
  deletedAt : a.deletedAt = b.deletedAt
  marker : a.marker.equal b.marker
  cells : a.cells = b.cells

/-- The difference of two rows has the effect of the whole row. -/
structure Recoverable (a b : DeletableRow columns) : Prop where
  /-- No regular tombstone is newer unless the shadowable one is. -/
  regular : ¬ b.deletedAt.shadowable < a.deletedAt.shadowable →
    a.deletedAt.regular ≤ b.deletedAt.regular
  /-- A tombstone that is not shadowed by the marker of its own row is not left alone. -/
  shadowed : b.deletedAt.maybeShadow b.marker = b.deletedAt ∨ a.AddsTo b
  cells : a.cells.Recoverable b.cells

theorem deletedAt_apply_difference_iff :
    (b.apply (a.difference b)).deletedAt = (b.apply a).deletedAt ↔
      (¬ b.deletedAt.shadowable < a.deletedAt.shadowable →
        a.deletedAt.regular ≤ b.deletedAt.regular) := by
  have hmarker : (b.marker.apply (a.difference b).marker).equal (b.marker.apply a.marker) := by
    rw [marker_difference]
    exact equal_apply_difference a.marker b.marker
  change b.deletedAt.apply (a.difference b).deletedAt (b.marker.apply (a.difference b).marker) =
    b.deletedAt.apply a.deletedAt (b.marker.apply a.marker) ↔ _
  rw [RowTombstone.apply_congr _ _ hmarker]
  by_cases hlt : b.deletedAt.shadowable < a.deletedAt.shadowable
  · refine iff_of_true ?_ fun hnot => absurd hlt hnot
    rw [deletedAt_difference_of_lt hlt]
    refine RowTombstone.apply_maybeShadow hlt fun hlive => ?_
    rw [marker_difference] at hlive ⊢
    exact isLive_of_live_difference hlive
  · rw [deletedAt_difference_of_le hlt, RowTombstone.apply_of_le (Tombstone.none_le _)
      (Tombstone.none_le _)]
    constructor
    · intro h _
      have hregular := congrArg RowTombstone.regular h
      rw [RowTombstone.regular_maybeShadow, RowTombstone.regular_apply] at hregular
      exact max_eq_left_iff.mp hregular.symm
    · intro h
      rw [RowTombstone.apply_of_le (h hlt) (not_lt.mp hlt)]

theorem deletedAt_eq_apply_iff (hadds : ¬ a.AddsTo b) :
    b.deletedAt = (b.apply a).deletedAt ↔ a.deletedAt.regular ≤ b.deletedAt.regular ∧
      b.deletedAt.maybeShadow b.marker = b.deletedAt := by
  obtain ⟨hle, hrest⟩ := not_or.mp hadds
  obtain ⟨hmarker, -⟩ := not_or.mp hrest
  change b.deletedAt = b.deletedAt.apply a.deletedAt (b.marker.apply a.marker) ↔ _
  rw [← RowTombstone.apply_congr _ _ (equal_of_not_addsTo hmarker)]
  constructor
  · intro h
    have hregular := congrArg RowTombstone.regular h
    rw [RowTombstone.regular_apply] at hregular
    have hr := max_eq_left_iff.mp hregular.symm
    rw [RowTombstone.apply_of_le hr (not_lt.mp hle)] at h
    exact ⟨hr, h.symm⟩
  · rintro ⟨hr, hshadow⟩
    rw [RowTombstone.apply_of_le hr (not_lt.mp hle), hshadow]

theorem sameState_difference_iff :
    SameState (if (a.difference b).isEmpty then b else b.apply (a.difference b)) (b.apply a) ↔
      a.Recoverable b := by
  by_cases hadds : a.AddsTo b
  · rw [isEmpty_difference.mpr hadds, if_neg Bool.false_ne_true]
    have hmarker : (b.apply (a.difference b)).marker.equal (b.apply a).marker := by
      change (b.marker.apply (a.difference b).marker).equal (b.marker.apply a.marker)
      rw [marker_difference]
      exact equal_apply_difference a.marker b.marker
    exact ⟨fun h => ⟨deletedAt_apply_difference_iff.mp h.deletedAt, .inr hadds,
        Row.apply_difference_iff.mp h.cells⟩,
      fun h => ⟨deletedAt_apply_difference_iff.mpr h.regular, hmarker,
        Row.apply_difference_iff.mpr h.cells⟩⟩
  · have hempty : (a.difference b).isEmpty = true :=
      Bool.not_eq_false _ ▸ fun h => hadds (isEmpty_difference.mp h)
    obtain ⟨hle, hrest⟩ := not_or.mp hadds
    obtain ⟨hmarker, hcells⟩ := not_or.mp hrest
    have hsame : b.cells.apply (a.cells.difference b.cells) = b.cells :=
      Row.apply_of_isEmpty (Bool.not_eq_false _ ▸ fun h => hcells (Row.isEmpty_difference.mp h))
    have hcells_iff : b.cells = b.cells.apply a.cells ↔ a.cells.Recoverable b.cells := by
      rw [← Row.apply_difference_iff, hsame]
    rw [if_pos hempty]
    constructor
    · intro h
      obtain ⟨hregular, hshadow⟩ := (deletedAt_eq_apply_iff hadds).mp h.deletedAt
      exact ⟨fun _ => hregular, .inl hshadow, hcells_iff.mp h.cells⟩
    · intro h
      have hshadow := h.shadowed.resolve_right hadds
      exact ⟨(deletedAt_eq_apply_iff hadds).mpr ⟨h.regular hle, hshadow⟩,
        equal_of_not_addsTo hmarker, hcells_iff.mpr h.cells⟩

end DeletableRow

end Scylla.Mutation
