import Scylla.Dht.WrappingInterval

/-!
# Overlap and containment of wrapping intervals

The two tests against the sets of points. Overlap is exact. Containment compares a wrap-around by
its bounds only, and misses that two equal bounds can leave nothing out.
-/

namespace Scylla.Dht.WrappingInterval

open Cql (Bound)
open Cql.Interval (startLess stopReaches stopGe)
open Option
open List

variable {T : Type*} [LinearOrder T]

/-! ### Overlap -/

section Overlaps

variable [DenselyOrdered T] [NoMinOrder T] [NoMaxOrder T] [Nonempty T] {r o : WrappingInterval T}

omit [DenselyOrdered T] [NoMinOrder T] [NoMaxOrder T] [Nonempty T] in
theorem overlapsUnwrapped_eq (r o : WrappingInterval T) :
    r.overlapsUnwrapped o =
      (stopReaches compare r.endBound o.start && stopReaches compare o.endBound r.start) := by
  unfold overlapsUnwrapped
  split
  next h =>
    rw [Bool.and_eq_true, isNone_iff_eq_none, isNone_iff_eq_none] at h
    have hnone (e : Option (Bound T)) : stopReaches compare e none = true := by cases e <;> rfl
    rw [h.1, h.2, hnone, hnone]
    rfl
  next => rfl

theorem overlapsUnwrapped_iff (hr : r.isWrapAround = false) (ho : o.isWrapAround = false) :
    r.overlapsUnwrapped o = true ↔ ∃ x, x ∈ r.points ∧ x ∈ o.points := by
  rw [overlapsUnwrapped_eq, Bool.and_eq_true, stopReaches_iff, stopReaches_iff]
  simp only [mem_points_iff hr, mem_points_iff ho]
  refine ⟨fun ⟨⟨p, hpr, hpo⟩, ⟨q, hqo, hqr⟩⟩ => ?_, fun ⟨x, ⟨hrs, hre⟩, ⟨hos, hoe⟩⟩ =>
    ⟨⟨x, hre, hos⟩, ⟨x, hoe, hrs⟩⟩⟩
  obtain ⟨u, hue, hus⟩ := isWrapAround_eq_false.mp hr
  obtain ⟨v, hve, hvs⟩ := isWrapAround_eq_false.mp ho
  -- both minima lie below both ends, so that their maximum is above both starts
  have hu : min u q ∈ above r.start := by rcases min_choice u q with h | h <;> simpa only [h]
  have hv : min v p ∈ above o.start := by rcases min_choice v p with h | h <;> simpa only [h]
  have hure : min u q ∈ below r.endBound := isLowerSet_below (min_le_left _ _) hue
  have huoe : min u q ∈ below o.endBound := isLowerSet_below (min_le_right _ _) hqo
  have hvre : min v p ∈ below r.endBound := isLowerSet_below (min_le_right _ _) hpr
  have hvoe : min v p ∈ below o.endBound := isLowerSet_below (min_le_left _ _) hve
  refine ⟨max (min u q) (min v p), ⟨isUpperSet_above (le_max_left _ _) hu, ?_⟩,
    ⟨isUpperSet_above (le_max_right _ _) hv, ?_⟩⟩
  · rcases max_choice (min u q) (min v p) with h | h <;> simpa only [h]
  · rcases max_choice (min u q) (min v p) with h | h <;> simpa only [h]

theorem overlapsUnwrapped_parts_iff (hr : r.isWrapAround = false) (ho : o.isWrapAround = true) :
    (r.overlapsUnwrapped o.unwrap.1 || r.overlapsUnwrapped o.unwrap.2) = true ↔
      ∃ x, x ∈ r.points ∧ x ∈ o.points := by
  have hparts : o.parts = [o.unwrap.1, o.unwrap.2] := by rw [parts, if_pos ho]
  have hfirst : o.unwrap.1.isWrapAround = false :=
    not_wrap_of_mem_parts (r := o) (hparts ▸ mem_cons_self)
  have hsecond : o.unwrap.2.isWrapAround = false :=
    not_wrap_of_mem_parts (r := o) (hparts ▸ mem_cons_of_mem _ mem_cons_self)
  rw [Bool.or_eq_true, overlapsUnwrapped_iff hr hfirst, overlapsUnwrapped_iff hr hsecond]
  simp only [mem_points_iff_parts (r := o), hparts, mem_cons, not_mem_nil, or_false,
    exists_eq_or_imp, exists_eq_left, and_or_left, exists_or]

theorem overlaps_iff (r o : WrappingInterval T) :
    r.overlaps o = true ↔ ∃ x, x ∈ r.points ∧ x ∈ o.points := by
  unfold overlaps
  cases hr : r.isWrapAround with
  | true =>
    cases ho : o.isWrapAround with
    | true =>
      obtain ⟨-, e, he⟩ := bounds_of_wrap hr
      obtain ⟨-, e', he'⟩ := bounds_of_wrap ho
      obtain ⟨x, hx⟩ := exists_lt (min e.value e'.value)
      refine iff_of_true rfl ⟨x, (mem_points_iff_of_wrap hr).mpr (.inl ?_),
        (mem_points_iff_of_wrap ho).mpr (.inl ?_)⟩
      · exact he ▸ mem_below_some.mpr (.inl (lt_min_iff.mp hx).1)
      · exact he' ▸ mem_below_some.mpr (.inl (lt_min_iff.mp hx).2)
    | false =>
      simp only [Bool.and_false, Bool.false_eq_true, if_false, if_true]
      rw [overlapsUnwrapped_parts_iff ho hr]
      simp only [and_comm]
  | false =>
    cases ho : o.isWrapAround with
    | true => simpa using overlapsUnwrapped_parts_iff hr ho
    | false => simpa using overlapsUnwrapped_iff hr ho

end Overlaps

/-! ### Containment -/

section Contains

variable [DenselyOrdered T] [NoMinOrder T] [NoMaxOrder T] [Nonempty T] {r o : WrappingInterval T}

theorem points_subset_above_iff (ho : o.isWrapAround = false) {s : Option (Bound T)} :
    o.points ⊆ above s ↔ above o.start ⊆ above s := by
  refine ⟨fun hsub x hx => ?_, fun hsub x hx => hsub ((mem_points_iff ho).mp hx).1⟩
  obtain ⟨p, hp⟩ := exists_mem_points ho
  rcases le_total p x with hle | hle
  · exact isUpperSet_above hle (hsub hp)
  · have hpe := ((mem_points_iff ho).mp hp).2
    exact hsub ((mem_points_iff ho).mpr ⟨hx, isLowerSet_below hle hpe⟩)

theorem points_subset_below_iff (ho : o.isWrapAround = false) {e : Option (Bound T)} :
    o.points ⊆ below e ↔ below o.endBound ⊆ below e := by
  refine ⟨fun hsub x hx => ?_, fun hsub x hx => hsub ((mem_points_iff ho).mp hx).2⟩
  obtain ⟨p, hp⟩ := exists_mem_points ho
  rcases le_total x p with hle | hle
  · exact isLowerSet_below hle (hsub hp)
  · have hps := ((mem_points_iff ho).mp hp).1
    exact hsub ((mem_points_iff ho).mpr ⟨isUpperSet_above hle hps, hx⟩)

theorem contains_iff_of_not_wrap (hr : r.isWrapAround = false) :
    r.contains o = true ↔ o.points ⊆ r.points := by
  have hpoints : r.points = above r.start ∩ below r.endBound :=
    Set.ext fun x => mem_points_iff hr
  cases ho : o.isWrapAround with
  | false =>
    rw [hpoints, Set.subset_inter_iff, points_subset_above_iff ho, points_subset_below_iff ho]
    simp [contains, hr, ho, startLe_iff, stopGe_iff]
  | true =>
    have hdef : r.contains o = (r.start.isNone && r.endBound.isNone) := by
      simp [contains, hr, ho]
    rw [hdef, Bool.and_eq_true, isNone_iff_eq_none, isNone_iff_eq_none]
    refine ⟨fun ⟨hs, he⟩ x _ => by simp [hpoints, hs, he], fun hsub => ?_⟩
    obtain ⟨⟨s, hs⟩, e, he⟩ := bounds_of_wrap ho
    -- the points of `o` go down and up without a bound
    constructor
    · by_contra hsome
      obtain ⟨s', hs'⟩ := ne_none_iff_exists'.mp hsome
      obtain ⟨x, hx⟩ := exists_lt (min e.value s'.value)
      have hmem : x ∈ o.points :=
        (mem_points_iff_of_wrap ho).mpr (.inl (he ▸ mem_below_some.mpr (.inl (lt_min_iff.mp hx).1)))
      have habove := (hpoints ▸ hsub hmem).1
      rw [hs', mem_above_some] at habove
      grind
    · by_contra hsome
      obtain ⟨e', he'⟩ := ne_none_iff_exists'.mp hsome
      obtain ⟨x, hx⟩ := exists_gt (max s.value e'.value)
      have hmem : x ∈ o.points :=
        (mem_points_iff_of_wrap ho).mpr (.inr (hs ▸ mem_above_some.mpr (.inl (max_lt_iff.mp hx).1)))
      have hbelow := (hpoints ▸ hsub hmem).2
      rw [he', mem_below_some] at hbelow
      grind

theorem contains_iff_of_wrap (hr : r.isWrapAround = true) :
    r.contains o = true ↔
      ∀ p ∈ o.parts, p.points ⊆ below r.endBound ∨ p.points ⊆ above r.start := by
  obtain ⟨⟨s, hs⟩, e, he⟩ := bounds_of_wrap hr
  cases ho : o.isWrapAround with
  | false =>
    have hstart : startLe compare r.start o.start = true → o.start.isSome = true := by
      cases h : o.start <;> simp [hs, startLe]
    have hend : stopGe compare r.endBound o.endBound = true → o.endBound.isSome = true := by
      cases h : o.endBound <;> simp [he, stopGe]
    have hdef : r.contains o = true ↔
        startLe compare r.start o.start = true ∨ stopGe compare r.endBound o.endBound = true := by
      simp only [contains, hr, ho, Bool.and_false, Bool.not_true, Bool.false_and,
        Bool.false_eq_true, if_false, Bool.or_eq_true, Bool.and_eq_true]
      grind
    rw [hdef, startLe_iff, stopGe_iff, parts_of_not_wrap ho, forall_mem_singleton,
      points_subset_above_iff ho, points_subset_below_iff ho, or_comm]
  | true =>
    obtain ⟨⟨s', hs'⟩, e', he'⟩ := bounds_of_wrap ho
    have hdef : r.contains o = true ↔
        above o.start ⊆ above r.start ∧ below o.endBound ⊆ below r.endBound := by
      simp [contains, hr, ho, startLe_iff, stopGe_iff]
    have hlow : ¬below o.endBound ⊆ above r.start := by
      intro hsub
      obtain ⟨x, hx⟩ := exists_lt (min e'.value s.value)
      have hmem : x ∈ above r.start :=
        hsub (he' ▸ mem_below_some.mpr (.inl (lt_min_iff.mp hx).1))
      rw [hs, mem_above_some] at hmem
      grind
    have hhigh : ¬above o.start ⊆ below r.endBound := by
      intro hsub
      obtain ⟨x, hx⟩ := exists_gt (max s'.value e.value)
      have hmem : x ∈ below r.endBound :=
        hsub (hs' ▸ mem_above_some.mpr (.inl (max_lt_iff.mp hx).1))
      rw [he, mem_below_some] at hmem
      grind
    have hfirst : (ofBounds none o.endBound).points = below o.endBound :=
      Set.ext fun x => mem_points_ofBounds_none_left
    have hsecond : (ofBounds o.start none).points = above o.start :=
      Set.ext fun x => mem_points_ofBounds_none_right
    rw [hdef, parts_of_wrap ho, forall_mem_cons, forall_mem_singleton, hfirst, hsecond]
    simp only [hlow, hhigh, or_false, false_or, and_comm]

/-- `r` is a wrap-around that covers every point: its two equal bounds leave nothing out. -/
def CoversRing (r : WrappingInterval T) : Prop := r.isWrapAround = true ∧ ∀ x, x ∈ r.points

/-- A part of `o` has points on both sides of the place where `r` starts and ends. -/
def Straddles (o r : WrappingInterval T) : Prop :=
  ∃ p ∈ o.parts, ∃ x ∈ p.points, ∃ y ∈ p.points, x ∈ r.unwrap.1.points ∧ y ∉ r.unwrap.1.points

section

omit [DenselyOrdered T] [NoMinOrder T] [NoMaxOrder T] [Nonempty T]

theorem points_subset_iff_parts {A : Set T} : o.points ⊆ A ↔ ∀ p ∈ o.parts, p.points ⊆ A := by
  simp only [Set.subset_def, mem_points_iff_parts (r := o)]
  grind

theorem subset_ray_of_gap (hr : r.isWrapAround = true) {g : T} (hg : g ∉ r.points)
    {p : WrappingInterval T} (hp : p.isWrapAround = false) (hsub : p.points ⊆ r.points) :
    p.points ⊆ below r.endBound ∨ p.points ⊆ above r.start := by
  have hgap := mt (mem_points_iff_of_wrap hr).mpr hg
  rw [not_or] at hgap
  by_contra hboth
  rw [not_or, Set.not_subset, Set.not_subset] at hboth
  obtain ⟨⟨x, hx, hxe⟩, ⟨y, hy, hys⟩⟩ := hboth
  have hxs : x ∈ above r.start := ((mem_points_iff_of_wrap hr).mp (hsub hx)).resolve_left hxe
  have hye : y ∈ below r.endBound := ((mem_points_iff_of_wrap hr).mp (hsub hy)).resolve_right hys
  have hyg : y ≤ g := (le_total y g).resolve_right fun hle => hgap.1 (isLowerSet_below hle hye)
  have hgx : g ≤ x := (le_total g x).resolve_right fun hle => hgap.2 (isUpperSet_above hle hxs)
  rw [mem_points_iff hp] at hx hy
  exact hg (hsub ((mem_points_iff hp).mpr ⟨isUpperSet_above hyg hy.1, isLowerSet_below hgx hx.2⟩))

end

theorem contains_exact_iff (r o : WrappingInterval T) :
    (r.contains o = true ↔ o.points ⊆ r.points) ↔ ¬(r.CoversRing ∧ o.Straddles r) := by
  cases hr : r.isWrapAround with
  | false => exact iff_of_true (contains_iff_of_not_wrap hr) fun h => by simp [h.1.1] at hr
  | true =>
    by_cases hall : ∀ x, x ∈ r.points
    · have hsides (x : T) : x ∈ above r.start ↔ x ∉ below r.endBound :=
        ⟨fun hs he => not_mem_above_of_wrap hr he hs,
          ((mem_points_iff_of_wrap hr).mp (hall x)).resolve_left⟩
      have hsub : o.points ⊆ r.points := fun x _ => hall x
      rw [iff_true_right hsub, contains_iff_of_wrap hr]
      have hcovers : r.CoversRing := ⟨hr, hall⟩
      simp only [hcovers, true_and, Straddles, unwrap, mem_points_ofBounds_none_left,
        Set.subset_def, hsides]
      grind
    · obtain ⟨g, hg⟩ := not_forall.mp hall
      refine iff_of_true ?_ fun h => hall h.1.2
      rw [contains_iff_of_wrap hr, points_subset_iff_parts]
      refine forall₂_congr fun p hp => ⟨fun hsides x hx => ?_,
        subset_ray_of_gap hr hg (not_wrap_of_mem_parts hp)⟩
      rw [mem_points_iff_of_wrap hr]
      exact hsides.imp (fun h => h hx) fun h => h hx

end Contains

end Scylla.Dht.WrappingInterval
