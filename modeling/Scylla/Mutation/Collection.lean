import Scylla.Core.SortedMerge
import Scylla.Mutation.Cell

/-!
# Collection mutations

The value of a multi-cell column: a tombstone and cells sorted by the comparator of the key type,
which may identify keys with different bytes. Merging removes the cells that the other tombstone
deletes. On collections without cells deleted by their own tombstone it is lawful when keys are
compared by their type.
-/

namespace Scylla.Mutation

open AtomicCell

structure KeyType where
  cmp : Bytes → Bytes → Ordering
  trans : Std.TransCmp cmp

namespace KeyType

instance (kt : KeyType) : Std.TransCmp kt.cmp := kt.trans

/-- Keys that compare as equal have the same bytes. -/
def IsInjective (kt : KeyType) : Prop := ∀ k k', kt.cmp k k' = .eq → k = k'

end KeyType

structure CollectionMutation (kt : KeyType) where
  tomb : Tombstone
  cells : List (Bytes × AtomicCell)
  sorted : SortedBy kt.cmp Prod.fst cells

namespace CollectionMutation

variable {kt : KeyType}

variable {a b : CollectionMutation kt}

@[ext] theorem ext (ht : a.tomb = b.tomb) (hc : a.cells = b.cells) : a = b := by
  cases a
  simp_all

instance : DecidableEq (CollectionMutation kt) := fun a b =>
  decidable_of_iff (a.tomb = b.tomb ∧ a.cells = b.cells)
    ⟨fun h => ext h.1 h.2, by rintro rfl; exact ⟨rfl, rfl⟩⟩

/-- `cell_killed`: at equal timestamps the tombstone wins. -/
def cellKilled (t : Tombstone) (e : Bytes × AtomicCell) : Bool := !(t.timestamp < e.2.timestamp)

/-- Merge two cells of one key; the key is the left one. -/
def mergeElement (e₁ e₂ : Bytes × AtomicCell) : Bytes × AtomicCell :=
  (e₁.1, if compareAtomicCellForMerge e₁.2 e₂.2 = .gt then e₁.2 else e₂.2)

theorem mergeElement_fst (e₁ e₂ : Bytes × AtomicCell) : (mergeElement e₁ e₂).1 = e₁.1 := rfl

theorem mergeElement_snd (e₁ e₂ : Bytes × AtomicCell) :
    (mergeElement e₁ e₂).2 = e₁.2.apply e₂.2 := by
  simp only [mergeElement, apply, keepGreater]
  rcases lt_trichotomy e₁.2.mergeKey e₂.2.mergeKey with h | h | h
  · rw [if_neg (by rw [compareAtomicCellForMerge_eq_gt]; exact h.not_gt),
      if_pos ((compareAtomicCellForMerge_eq_lt _ _).mpr h)]
  · rw [mergeKey_injective h, ite_self, ite_self]
  · rw [if_pos ((compareAtomicCellForMerge_eq_gt _ _).mpr h),
      if_neg (by rw [compareAtomicCellForMerge_eq_lt]; exact h.not_gt)]

def merge (a b : CollectionMutation kt) : CollectionMutation kt where
  tomb := a.tomb.apply b.tomb
  cells := combine kt.cmp Prod.fst mergeElement
    (a.cells.filter fun e => !cellKilled b.tomb e) (b.cells.filter fun e => !cellKilled a.tomb e)
  sorted := sortedBy_combine (fun x y _ => mergeElement_fst x y) (a.sorted.filter _)
    (b.sorted.filter _)

def lookup (c : CollectionMutation kt) (k : Bytes) : Option AtomicCell :=
  lookupBy kt.cmp Prod.fst (fun e => some e.2) k c.cells

theorem lookup_filter_cellKilled (c : CollectionMutation kt) (t : Tombstone) (k : Bytes) :
    lookupBy kt.cmp Prod.fst (fun e => some e.2) k (c.cells.filter fun e => !cellKilled t e) =
      (c.lookup k).bind (survivor t) := by
  rw [lookupBy_filter c.sorted, lookup, ← lookupBy_bind]
  congr 1
  funext e
  simp [cellKilled, survivor]

theorem lookup_merge (a b : CollectionMutation kt) (k : Bytes) :
    (a.merge b).lookup k = Option.merge apply
      ((a.lookup k).bind (survivor b.tomb))
      ((b.lookup k).bind (survivor a.tomb)) := by
  rw [← lookup_filter_cellKilled, ← lookup_filter_cellKilled]
  refine lookupBy_combine (fun x y _ => mergeElement_fst x y) ?_ k (a.sorted.filter _)
    (b.sorted.filter _)
  intro x y _
  rw [mergeElement_snd, Option.merge_some_some]

/-! ## Equality -/

/-- Equality with keys compared by their type. -/
def EqualByKey (a b : CollectionMutation kt) : Prop :=
  a.tomb = b.tomb ∧
    List.Forall₂ (fun e e' => kt.cmp e.1 e'.1 = .eq ∧ e.2 = e'.2) a.cells b.cells

theorem equalByKey_iff : a.EqualByKey b ↔ a.tomb = b.tomb ∧ ∀ k, a.lookup k = b.lookup k := by
  have hview : ∀ (c : CollectionMutation kt) k,
      c.lookup k = (lookupBy kt.cmp Prod.fst some k c.cells).bind fun e => some e.2 := by
    intro c k
    rw [← lookupBy_bind]
    rfl
  unfold EqualByKey
  rw [forall₂_iff_lookupBy (r := fun e e' => e.2 = e'.2) a.sorted b.sorted]
  refine and_congr_right fun _ => forall_congr' fun k => ?_
  rw [hview, hview]
  cases lookupBy kt.cmp Prod.fst some k a.cells <;>
    cases lookupBy kt.cmp Prod.fst some k b.cells <;> simp

theorem equalByKey_eq (hkt : kt.IsInjective) : a.EqualByKey b ↔ a = b := by
  constructor
  · rintro ⟨ht, hc⟩
    refine ext ht (List.forall₂_eq_eq_eq ▸ hc.imp ?_)
    rintro ⟨k, c⟩ ⟨k', c'⟩ ⟨hk, rfl⟩
    rw [hkt k k' hk]
  · rintro rfl
    exact equalByKey_iff.mpr ⟨rfl, fun _ => rfl⟩

/-- No cell is deleted by the collection's own tombstone. -/
def Uncovered (c : CollectionMutation kt) : Prop :=
  ∀ e ∈ c.cells, c.tomb.timestamp < e.2.timestamp

/-- The contents of a collection: its tombstone, and the cell under each key. -/
abbrev Contents := Tombstone × (Bytes → Option AtomicCell)

namespace Contents

/-- Merge tombstones and cells independently. -/
def merge (a b : Contents) : Contents :=
  (a.1.apply b.1, fun k => Option.merge apply (a.2 k) (b.2 k))

def compact (a : Contents) : Contents := (a.1, fun k => (a.2 k).bind (survivor a.1))

theorem merge_mergeLaws : MergeLaws (fun _ => True) Eq merge := by
  have h := Tombstone.mergeLaws.prod (MergeLaws.pi fun _ : Bytes => AtomicCell.mergeLaws.option)
  refine (h.comap id (fun _ _ => trivial) (fun _ => ⟨trivial, fun _ _ _ => trivial⟩)
    (fun _ _ => h.refl _)).congr_rel eq_equivalence ?_
  intro a b _ _
  simp only [id, optionRel_eq]
  rw [← funext_iff, Prod.ext_iff]

theorem compact_merge_compact (a b : Contents) :
    compact (merge (compact a) b) = compact (merge a b) := by
  have habsorb : a.1.apply (a.1.apply b.1) = a.1.apply b.1 := by
    simp only [Tombstone.apply_eq_max, ← max_assoc, max_self]
  simp only [compact, merge, survivor_merge, survivor_survivor, habsorb]

end Contents

/-- Forget the representation of a collection. -/
def contents (c : CollectionMutation kt) : Contents := (c.tomb, c.lookup)

theorem uncovered_iff {c : CollectionMutation kt} :
    c.Uncovered ↔ Contents.compact c.contents = c.contents := by
  have hkey : ∀ e ∈ c.cells, c.lookup e.1 = some e.2 := fun e he => lookupBy_of_mem c.sorted he
  rw [Contents.compact, Prod.ext_iff, funext_iff]
  simp only [contents, true_and]
  constructor
  · intro h k
    cases hk : c.lookup k with
    | none => rfl
    | some d =>
      obtain ⟨e, he, -, hed⟩ := exists_of_lookupBy_eq_some hk
      cases hed
      simp [survivor, h e he]
  · intro h e he
    have hk := h e.1
    rw [hkey e he, Option.bind_some, survivor] at hk
    by_contra hlt
    rw [if_neg hlt] at hk
    cases hk

theorem contents_merge (ha : a.Uncovered) (hb : b.Uncovered) :
    (a.merge b).contents = Contents.compact (Contents.merge a.contents b.contents) := by
  have hcomm : a.tomb.apply b.tomb = b.tomb.apply a.tomb := Tombstone.mergeLaws.comm trivial trivial
  refine Prod.ext rfl (funext fun k => ?_)
  have hak : (a.lookup k).bind (survivor a.tomb) = a.lookup k :=
    congrFun (congrArg Prod.snd (uncovered_iff.mp ha)) k
  have hbk : (b.lookup k).bind (survivor b.tomb) = b.lookup k :=
    congrFun (congrArg Prod.snd (uncovered_iff.mp hb)) k
  have ha' : (a.lookup k).bind (survivor b.tomb) =
      (a.lookup k).bind (survivor (a.tomb.apply b.tomb)) := by
    rw [← survivor_survivor, hak]
  have hb' : (b.lookup k).bind (survivor a.tomb) =
      (b.lookup k).bind (survivor (a.tomb.apply b.tomb)) := by
    rw [hcomm, ← survivor_survivor, hbk]
  change (a.merge b).lookup k = _
  rw [lookup_merge, ha', hb', ← survivor_merge]
  rfl

theorem mergeLaws (kt : KeyType) :
    MergeLaws (α := CollectionMutation kt) Uncovered EqualByKey merge := by
  have hnorm := Contents.merge_mergeLaws.normalize Contents.compact_merge_compact
  have hclosed : ∀ {a b : CollectionMutation kt}, a.Uncovered → b.Uncovered →
      (a.merge b).Uncovered := by
    intro a b ha hb
    rw [uncovered_iff, contents_merge ha hb]
    exact hnorm.closed (uncovered_iff.mp ha) (uncovered_iff.mp hb)
  have h := hnorm.comap contents hclosed uncovered_iff.mp contents_merge
  have hrel : ∀ {a b : CollectionMutation kt}, a.contents = b.contents ↔ a.EqualByKey b := by
    intro a b
    rw [equalByKey_iff, ← funext_iff, contents, contents, Prod.ext_iff]
  simpa only [hrel] using h

end CollectionMutation

end Scylla.Mutation
