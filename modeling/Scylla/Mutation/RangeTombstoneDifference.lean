import Scylla.Mutation.RangeTombstoneList

/-!
# Differences of range tombstone lists

`difference` sweeps over two lists at once and inserts into a new list the parts of the ranges of
the first one that are not covered by a tombstone of the second at least as new. Inserting the
difference into the second list therefore gives what inserting the first list gives.
-/

namespace Scylla.Mutation

open Option

variable {P : Type*} [LinearOrder P]

namespace RangeTombstoneList

/-- Insert what is kept of the current range before `o`, and inside it up to `stop`. -/
def applyKept (diff : RangeTombstoneList P) (cur o : RangeTombstone P) (stop : P) :
    RangeTombstoneList P :=
  let before := if cur.position < o.position then
      diff.applyOne ⟨cur.position, o.position, cur.tomb⟩ else diff
  let curStart := if cur.position < o.position then o.position else cur.position
  if o.tomb < cur.tomb then before.applyOne ⟨curStart, stop, cur.tomb⟩ else before

def differenceLoop (diff : RangeTombstoneList P) :
    List (RangeTombstone P) → List (RangeTombstone P) → RangeTombstoneList P
  | [], _ => diff
  | cur :: this, [] => (cur :: this).foldl applyOne diff
  | cur :: this, o :: other =>
    if cur.endPosition ≤ o.position then differenceLoop (diff.applyOne cur) this (o :: other)
    else if o.endPosition ≤ cur.position then differenceLoop diff (cur :: this) other
    else if cur.endPosition < o.endPosition then
      differenceLoop (diff.applyKept cur o cur.endPosition) this (o :: other)
    else
      let inside := diff.applyKept cur o o.endPosition
      if cur.endPosition ≤ o.endPosition then differenceLoop inside this other
      else differenceLoop inside (⟨o.endPosition, cur.endPosition, cur.tomb⟩ :: this) other
termination_by this other => this.length + other.length

def difference (a b : RangeTombstoneList P) : RangeTombstoneList P :=
  differenceLoop .empty a.tombstones b.tombstones

end RangeTombstoneList

namespace RangeTombstone

/-- The first tombstone, unless the second is at least as new. -/
def newer : Option Tombstone → Option Tombstone → Option Tombstone
  | none, _ => none
  | some t, none => some t
  | some t, some u => if u < t then some t else none

@[simp] theorem newer_none_left (u : Option Tombstone) : newer none u = none := rfl

@[simp] theorem newer_none_right (t : Option Tombstone) : newer t none = t := by
  cases t <;> rfl

@[simp] theorem newer_some_some (t u : Tombstone) :
    newer (some t) (some u) = if u < t then some t else none := rfl

theorem merge_max_assoc (t u v : Option Tombstone) :
    merge max (merge max t u) v = merge max t (merge max u v) :=
  Std.Associative.assoc t u v

theorem merge_newer (t u : Option Tombstone) :
    merge max u (newer t u) = merge max u t := by
  cases t with
  | none => rfl
  | some t =>
    cases u with
    | none => rfl
    | some u =>
      rw [newer_some_some]
      split
      · rfl
      · next h => simp [max_eq_left (not_lt.mp h)]

namespace Sorted

variable {cur : RangeTombstone P} {l : List (RangeTombstone P)} (h : Sorted (cur :: l))

include h

theorem advance {start : P} (hstart : start < cur.endPosition) :
    Sorted (⟨start, cur.endPosition, cur.tomb⟩ :: l) :=
  ⟨List.forall_mem_cons.mpr ⟨hstart, h.of_cons.nonempty⟩,
    List.pairwise_cons.mpr (List.pairwise_cons.mp h.disjoint)⟩

theorem cover_cons_of_lt {p : P} (hp : p < cur.position) : cover p (cur :: l) = none := by
  have hcur := h.nonempty cur List.mem_cons_self
  rw [cover_cons, if_neg fun hc => hp.not_ge hc.1, h.cover_tail (hp.trans hcur)]

end Sorted

variable {cur o : RangeTombstone P} {this other : List (RangeTombstone P)}

theorem newer_cover_before (hthis : Sorted (cur :: this)) (hother : Sorted (o :: other))
    (hle : cur.endPosition ≤ o.position) (p : P) :
    newer (cover p (cur :: this)) (cover p (o :: other)) =
      merge max (inRange cur.position cur.endPosition cur.tomb p)
        (newer (cover p this) (cover p (o :: other))) := by
  rw [cover_cons, inRange]
  split
  · next hp =>
    rw [hthis.cover_tail hp.2, hother.cover_cons_of_lt (hp.2.trans_le hle)]
    rfl
  · rw [merge_none_left]

theorem newer_cover_skip (hthis : Sorted (cur :: this)) (hle : o.endPosition ≤ cur.position)
    (p : P) : newer (cover p (cur :: this)) (cover p (o :: other)) =
      newer (cover p (cur :: this)) (cover p other) := by
  rcases lt_or_ge p cur.position with hp | hp
  · rw [hthis.cover_cons_of_lt hp, newer_none_left, newer_none_left]
  · rw [cover_cons p o, if_neg fun hc => (hle.trans hp).not_gt hc.2]

/-- The parts of the current range before and inside `o` that are kept, up to `stop`. -/
def kept (cur o : RangeTombstone P) (stop : P) (p : P) : Option Tombstone :=
  merge max (inRange cur.position o.position cur.tomb p)
    (if o.tomb < cur.tomb then inRange (max cur.position o.position) stop cur.tomb p else none)

variable {p stop : P}

theorem kept_of_lt (hp : p < cur.position) : kept cur o stop p = none := by
  simp [kept, inRange, hp.not_ge]

theorem kept_before (hp : cur.position ≤ p) (hpo : p < o.position) :
    kept cur o stop p = some cur.tomb := by
  simp [kept, inRange, hp, hpo, hpo.not_ge]

theorem kept_inside (hp : cur.position ≤ p) (hpo : o.position ≤ p) (hps : p < stop) :
    kept cur o stop p = if o.tomb < cur.tomb then some cur.tomb else none := by
  simp [kept, inRange, hp, hpo, hps, hpo.not_gt]

theorem kept_of_ge (hpo : o.position ≤ p) (hps : stop ≤ p) : kept cur o stop p = none := by
  simp [kept, inRange, hpo.not_gt, hps.not_gt]

section

variable (hthis : Sorted (cur :: this)) (hother : Sorted (o :: other))

include hthis hother

theorem newer_cover_eq_kept (hcur : stop ≤ cur.endPosition) (ho : stop ≤ o.endPosition)
    (hp : p < stop) : newer (cover p (cur :: this)) (cover p (o :: other)) = kept cur o stop p := by
  rcases lt_or_ge p cur.position with hpc | hpc
  · rw [hthis.cover_cons_of_lt hpc, kept_of_lt hpc, newer_none_left]
  · rw [cover_cons p cur, if_pos ⟨hpc, hp.trans_le hcur⟩]
    rcases lt_or_ge p o.position with hpo | hpo
    · rw [hother.cover_cons_of_lt hpo, kept_before hpc hpo, newer_none_right]
    · rw [cover_cons, if_pos ⟨hpo, hp.trans_le ho⟩, kept_inside hpc hpo hp, newer_some_some]

theorem newer_cover_within (ho : o.position ≤ cur.endPosition)
    (hlt : cur.endPosition < o.endPosition) (p : P) :
    newer (cover p (cur :: this)) (cover p (o :: other)) =
      merge max (kept cur o cur.endPosition p)
        (newer (cover p this) (cover p (o :: other))) := by
  rcases lt_or_ge p cur.endPosition with hp | hp
  · rw [hthis.cover_tail hp, newer_none_left, merge_none_right,
      newer_cover_eq_kept hthis hother le_rfl hlt.le hp]
  · rw [cover_cons, if_neg fun hc => hp.not_gt hc.2, kept_of_ge (ho.trans hp) hp,
      merge_none_left]

theorem newer_cover_at_end (hle : o.position ≤ cur.endPosition)
    (heq : cur.endPosition = o.endPosition) (p : P) :
    newer (cover p (cur :: this)) (cover p (o :: other)) =
      merge max (kept cur o o.endPosition p) (newer (cover p this) (cover p other)) := by
  rcases lt_or_ge p o.endPosition with hp | hp
  · rw [hthis.cover_tail (heq ▸ hp), newer_none_left, merge_none_right,
      newer_cover_eq_kept hthis hother heq.ge le_rfl hp]
  · rw [kept_of_ge ((hle.trans heq.le).trans hp) hp, merge_none_left, cover_cons, cover_cons,
      if_neg fun hc => (heq ▸ hp).not_gt hc.2, if_neg fun hc => hp.not_gt hc.2]

theorem newer_cover_beyond (hle : cur.position ≤ o.endPosition)
    (hgt : o.endPosition < cur.endPosition) (p : P) :
    newer (cover p (cur :: this)) (cover p (o :: other)) =
      merge max (kept cur o o.endPosition p)
        (newer (cover p (⟨o.endPosition, cur.endPosition, cur.tomb⟩ :: this)) (cover p other)) := by
  have ho := hother.nonempty o List.mem_cons_self
  rcases lt_or_ge p o.endPosition with hp | hp
  · rw [(hthis.advance hgt).cover_cons_of_lt hp, newer_none_left, merge_none_right,
      newer_cover_eq_kept hthis hother hgt.le le_rfl hp]
  · have hpo : ¬ (o.position ≤ p ∧ p < o.endPosition) := fun hc => hp.not_gt hc.2
    have hpc : cur.position ≤ p := hle.trans hp
    rw [kept_of_ge (ho.le.trans hp) hp, merge_none_left, cover_cons p o, if_neg hpo]
    simp only [cover_cons, hpc, hp, true_and]

end

end RangeTombstone

namespace RangeTombstoneList

open RangeTombstone

theorem cover_applyKept (diff : RangeTombstoneList P) (cur o : RangeTombstone P) (stop p : P) :
    (diff.applyKept cur o stop).cover p =
      merge max (diff.cover p) (kept cur o stop p) := by
  have hbefore : (if cur.position < o.position then
      diff.applyOne ⟨cur.position, o.position, cur.tomb⟩ else diff).cover p =
        merge max (diff.cover p) (inRange cur.position o.position cur.tomb p) := by
    split
    · exact cover_applyOne _ _ _
    · next h => rw [inRange, if_neg fun hc => h (hc.1.trans_lt hc.2), merge_none_right]
  have hstart : (if cur.position < o.position then o.position else cur.position) =
      max cur.position o.position := by
    split
    · next h => exact (max_eq_right h.le).symm
    · next h => exact (max_eq_left (not_lt.mp h)).symm
  rw [applyKept, kept]
  split
  · rw [cover_applyOne, hbefore, hstart, merge_max_assoc]
  · rw [hbefore, merge_none_right]

theorem cover_differenceLoop (diff : RangeTombstoneList P) {this other : List (RangeTombstone P)}
    (hthis : Sorted this) (hother : Sorted other) (p : P) :
    (differenceLoop diff this other).cover p = merge max (diff.cover p)
      (newer (RangeTombstone.cover p this) (RangeTombstone.cover p other)) := by
  fun_induction differenceLoop diff this other with
  | case1 diff other => simp
  | case2 diff cur this =>
    rw [cover_foldl_applyOne diff hthis.disjoint, cover_nil, newer_none_right]
  | case3 diff cur this o other hle ih =>
    rw [ih hthis.of_cons hother, cover_applyOne, newer_cover_before hthis hother hle,
      merge_max_assoc]
  | case4 diff cur this o other hnot hle ih =>
    rw [ih hthis hother.of_cons, newer_cover_skip hthis hle]
  | case5 diff cur this o other ho hcur hlt ih =>
    rw [ih hthis.of_cons hother, cover_applyKept,
      newer_cover_within hthis hother (not_le.mp ho).le hlt, merge_max_assoc]
  | case6 diff cur this o other ho hcur hge inside hle ih =>
    rw [ih hthis.of_cons hother.of_cons, cover_applyKept, newer_cover_at_end hthis hother
      (not_le.mp ho).le (hle.antisymm (not_lt.mp hge)), merge_max_assoc]
  | case7 diff cur this o other ho hcur hge inside hgt ih =>
    rw [ih (hthis.advance (not_le.mp hgt)) hother.of_cons, cover_applyKept,
      newer_cover_beyond hthis hother (not_le.mp hcur).le (not_le.mp hgt), merge_max_assoc]

theorem apply_difference (a b : RangeTombstoneList P) : b.apply (a.difference b) = b.apply a := by
  refine ext_cover fun p => ?_
  have hnone : (empty : RangeTombstoneList P).cover p = none := rfl
  have hdiff : (a.difference b).cover p = newer (a.cover p) (b.cover p) := by
    rw [difference, cover_differenceLoop _ a.canonical.sorted b.canonical.sorted, hnone,
      merge_none_left]
    rfl
  rw [cover_apply, cover_apply, hdiff, merge_newer]

end RangeTombstoneList

end Scylla.Mutation
