import Scylla.Dht.IntervalAlgebra

/-!
# Lists of intervals

Subtraction cuts the parts of one interval by those of another and collects what is left;
`deoverlap` sweeps over a list sorted by the starts and merges what meets; `intersection` keeps the
later start and the earlier end. All three are compared with the sets of points, and with the two
tests they make up the interval algebra.
-/

namespace Scylla.Dht.WrappingInterval

open Cql (Bound)
open Cql.Interval (startLess stopReaches stopGe)

variable {T : Type*} [LinearOrder T]

/-! ### The operations -/

def rounds (o r : WrappingInterval T) : ℕ :=
  if !stopReaches compare o.endBound r.start then 0
  else if !stopReaches compare r.endBound o.start then 1
  else 2

theorem rounds_pieces_lt (r o : WrappingInterval T)
    (hafter : stopReaches compare o.endBound r.start = true)
    (hbefore : stopReaches compare r.endBound o.start = true) :
    ((r.pieceBefore o ++ r.pieceAfter o).map (rounds o)).sum < rounds o r := by
  have hflip (b : Bound T) : stopReaches compare (some (flip b)) (some b) = false := by
    simp [stopReaches, flip]
  have hflip' (b : Bound T) : stopReaches compare (some b) (some (flip b)) = false := by
    simp [stopReaches, flip]
  have hr : rounds o r = 2 := by simp [rounds, hafter, hbefore]
  have hfirst : ((r.pieceBefore o).map (rounds o)).sum ≤ 1 := by
    unfold pieceBefore
    split
    next => simp
    next h =>
      cases hs : o.start with
      | none => simp [hs, startLe] at h
      | some s => simp [rounds, hafter, hs, hflip]
  have hsecond : ((r.pieceAfter o).map (rounds o)).sum = 0 := by
    unfold pieceAfter
    split
    next => simp
    next h =>
      cases he : o.endBound with
      | none => simp [he, stopGe] at h
      | some e => simp [rounds, he, hflip']
  rw [List.map_append, List.sum_append, hr]
  omega

/-- How many rounds the loop takes until it drops the first interval on the right, at most. -/
def roundsLeft (left right : List (WrappingInterval T)) : ℕ :=
  match right with
  | [] => 0
  | o :: _ => (left.map (rounds o)).sum

def subtractLoop (left right result : List (WrappingInterval T)) : List (WrappingInterval T) :=
  match left, right with
  | [], _ => result
  | r₁ :: left, [] => result ++ r₁ :: left
  | r₁ :: left, r₂ :: right =>
    if !stopReaches compare r₂.endBound r₁.start then subtractLoop (r₁ :: left) right result
    else if !stopReaches compare r₁.endBound r₂.start then
      subtractLoop left (r₂ :: right) (result ++ [r₁])
    else subtractLoop (r₁.pieceBefore r₂ ++ r₁.pieceAfter r₂ ++ left) (r₂ :: right) result
termination_by (right.length, roundsLeft left right)
decreasing_by
  · exact Prod.Lex.left _ _ (Nat.lt_succ_self _)
  next hafter hbefore =>
    have hone : rounds r₂ r₁ = 1 := by simp_all [rounds]
    refine Prod.Lex.right _ ?_
    rw [roundsLeft, roundsLeft, List.map_cons, List.sum_cons, hone]
    omega
  next hafter hbefore =>
    have hpieces := rounds_pieces_lt r₁ r₂ (by simpa using hafter) (by simpa using hbefore)
    refine Prod.Lex.right _ ?_
    rw [roundsLeft, roundsLeft, List.map_append, List.sum_append, List.map_cons, List.sum_cons]
    omega

def subtract (r o : WrappingInterval T) : List (WrappingInterval T) :=
  subtractLoop r.parts o.parts []

def intersection (r o : WrappingInterval T) : Option (WrappingInterval T) :=
  (Cql.Interval.intersection compare ⟨r.start, r.endBound⟩ ⟨o.start, o.endBound⟩).map
    fun i => ofBounds i.start i.stop

def deoverlapLoop (current : WrappingInterval T) : List (WrappingInterval T) →
    List (WrappingInterval T)
  | [] => [current]
  | r :: rest =>
    if stopReaches compare r.endBound current.start && stopGe compare current.endBound r.endBound
    then deoverlapLoop current rest
    else if stopReaches compare current.endBound r.start then
      deoverlapLoop (ofBounds current.start r.endBound) rest
    else current :: deoverlapLoop r rest

/-- `deoverlap`, with the sorting algorithm it calls. -/
def deoverlap (sort : List (WrappingInterval T) → List (WrappingInterval T))
    (intervals : List (WrappingInterval T)) : List (WrappingInterval T) :=
  if intervals.length ≤ 1 then intervals
  else
    match sort intervals with
    | [] => []
    | current :: rest => deoverlapLoop current rest

def SortsByStart (sort : List (WrappingInterval T) → List (WrappingInterval T)) : Prop :=
  ∀ l, (sort l).Perm l ∧ (sort l).Pairwise fun a b => startLess compare b.start a.start = false

/-! ### Ordered lists -/

def union (l : List (WrappingInterval T)) : Set T := {x | ∃ r ∈ l, x ∈ r.points}

/-- A list of intervals that do not wrap, in order and apart from each other. -/
structure Ordered (l : List (WrappingInterval T)) : Prop where
  not_wrap : ∀ r ∈ l, r.isWrapAround = false
  pairwise : l.Pairwise Precedes

section

variable {x : T} {r o : WrappingInterval T} {l left right : List (WrappingInterval T)}

@[simp] theorem mem_union_nil : ¬x ∈ union ([] : List (WrappingInterval T)) := by simp [union]

@[simp] theorem mem_union_cons : x ∈ union (r :: l) ↔ x ∈ r.points ∨ x ∈ union l := by
  simp [union]

@[simp] theorem mem_union_append :
    x ∈ union (left ++ right) ↔ x ∈ union left ∨ x ∈ union right := by
  simp [union, or_and_right, exists_or]

theorem ordered_nil : Ordered ([] : List (WrappingInterval T)) := ⟨nofun, .nil⟩

theorem ordered_cons :
    Ordered (r :: l) ↔
      r.isWrapAround = false ∧ (∀ x ∈ r.points, ∀ y ∈ union l, x < y) ∧ Ordered l := by
  constructor
  · intro h
    obtain ⟨hfirst, hrest⟩ := List.pairwise_cons.mp h.pairwise
    exact ⟨h.not_wrap r List.mem_cons_self, fun x hx y ⟨p, hp, hy⟩ => hfirst p hp x hx y hy,
      fun p hp => h.not_wrap p (List.mem_cons_of_mem _ hp), hrest⟩
  · intro ⟨hwrap, hfirst, hrest⟩
    exact ⟨List.forall_mem_cons.mpr ⟨hwrap, hrest.not_wrap⟩,
      List.pairwise_cons.mpr ⟨fun p hp x hx y hy => hfirst x hx y ⟨p, hp, hy⟩, hrest.pairwise⟩⟩

theorem ordered_append :
    Ordered (left ++ right) ↔
      Ordered left ∧ Ordered right ∧ ∀ x ∈ union left, ∀ y ∈ union right, x < y := by
  induction left with
  | nil => simp [ordered_nil]
  | cons r left ih =>
    rw [List.cons_append, ordered_cons, ordered_cons, ih]
    simp only [mem_union_append, mem_union_cons]
    grind

theorem Ordered.disjoint (h : Ordered l) : l.Pairwise fun a b => Disjoint a.points b.points :=
  h.pairwise.imp fun hab => Set.disjoint_left.mpr fun x ha hb => lt_irrefl x (hab x ha x hb)

variable [DenselyOrdered T] [NoMinOrder T] [NoMaxOrder T] [Nonempty T]

theorem ordered_parts (r : WrappingInterval T) : Ordered r.parts :=
  ⟨fun _ => not_wrap_of_mem_parts, pairwise_precedes_parts r⟩

/-! ### Subtraction -/

theorem pieceBefore_spec (hr : r.isWrapAround = false)
    (hreach : stopReaches compare r.endBound o.start = true) :
    Ordered (r.pieceBefore o) ∧
      ∀ x, x ∈ union (r.pieceBefore o) ↔ x ∈ r.points ∧ x ∉ above o.start := by
  obtain ⟨z, hze, hzs⟩ := stopReaches_iff.mp hreach
  unfold pieceBefore
  split
  next hle =>
    have hsub := startLe_iff.mp hle
    refine ⟨ordered_nil, fun x => iff_of_false mem_union_nil fun hx => hx.2 (hsub ?_)⟩
    exact ((mem_points_iff hr).mp hx.1).1
  next hle =>
    obtain ⟨s, hs⟩ : ∃ s, o.start = some s := by
      refine Option.ne_none_iff_exists'.mp fun hs => ?_
      simp [hs, startLe] at hle
    rw [startLe_iff, Set.not_subset] at hle
    obtain ⟨y, hyr, hyo⟩ := hle
    have hwrap : (ofBounds r.start (o.start.map flip)).isWrapAround = false :=
      isWrapAround_eq_false.mpr ⟨y, by simpa [hs, mem_below_flip] using hs ▸ hyo, hyr⟩
    refine ⟨ordered_cons.mpr ⟨hwrap, by simp, ordered_nil⟩, fun x => ?_⟩
    rw [mem_union_cons, mem_points_iff hwrap, mem_points_iff hr]
    simp only [start_ofBounds, endBound_ofBounds, hs, Option.map_some, mem_below_flip,
      mem_union_nil, or_false]
    refine ⟨fun hx => ⟨⟨hx.1, ?_⟩, hx.2⟩, fun hx => ⟨hx.1.1, hx.2⟩⟩
    -- what is not above the other start lies before a point that both have
    refine isLowerSet_below (le_of_not_ge fun hzx => hx.2 ?_) hze
    exact isUpperSet_above hzx (hs ▸ hzs)

theorem pieceAfter_spec (hr : r.isWrapAround = false)
    (hreach : stopReaches compare o.endBound r.start = true) :
    Ordered (r.pieceAfter o) ∧
      ∀ x, x ∈ union (r.pieceAfter o) ↔ x ∈ r.points ∧ x ∉ below o.endBound := by
  obtain ⟨z, hze, hzs⟩ := stopReaches_iff.mp hreach
  unfold pieceAfter
  split
  next hge =>
    have hsub := stopGe_iff.mp hge
    refine ⟨ordered_nil, fun x => iff_of_false mem_union_nil fun hx => hx.2 (hsub ?_)⟩
    exact ((mem_points_iff hr).mp hx.1).2
  next hge =>
    obtain ⟨e, he⟩ : ∃ e, o.endBound = some e := by
      refine Option.ne_none_iff_exists'.mp fun he => ?_
      simp [he, stopGe] at hge
    rw [stopGe_iff, Set.not_subset] at hge
    obtain ⟨y, hyr, hyo⟩ := hge
    have hwrap : (ofBounds (o.endBound.map flip) r.endBound).isWrapAround = false :=
      isWrapAround_eq_false.mpr ⟨y, hyr, by simpa [he, mem_above_flip] using he ▸ hyo⟩
    refine ⟨ordered_cons.mpr ⟨hwrap, by simp, ordered_nil⟩, fun x => ?_⟩
    rw [mem_union_cons, mem_points_iff hwrap, mem_points_iff hr]
    simp only [start_ofBounds, endBound_ofBounds, he, Option.map_some, mem_above_flip,
      mem_union_nil, or_false]
    refine ⟨fun hx => ⟨⟨?_, hx.2⟩, hx.1⟩, fun hx => ⟨hx.2, hx.1.2⟩⟩
    refine isUpperSet_above (le_of_not_ge fun hxz => hx.1 ?_) hzs
    exact isLowerSet_below hxz (he ▸ hze)

theorem ordered_pieces (hleft : Ordered (r :: left)) (ho : o.isWrapAround = false)
    (hafter : stopReaches compare o.endBound r.start = true)
    (hbefore : stopReaches compare r.endBound o.start = true) :
    Ordered (r.pieceBefore o ++ r.pieceAfter o ++ left) ∧
      ∀ x, x ∈ union (r.pieceBefore o ++ r.pieceAfter o ++ left) ↔
        x ∈ r.points ∧ x ∉ o.points ∨ x ∈ union left := by
  obtain ⟨hr, hfirst, hrest⟩ := ordered_cons.mp hleft
  obtain ⟨hob, hmb⟩ := pieceBefore_spec hr hbefore
  obtain ⟨hoa, hma⟩ := pieceAfter_spec hr hafter
  obtain ⟨z, hz⟩ := exists_mem_points ho
  rw [mem_points_iff ho] at hz
  constructor
  · rw [ordered_append, ordered_append]
    refine ⟨⟨hob, hoa, fun x hx y hy => ?_⟩, hrest, fun x hx y hy => hfirst x ?_ y hy⟩
    · have hxz : x < z := not_le.mp fun hle =>
        ((hmb x).mp hx).2 (isUpperSet_above hle hz.1)
      have hzy : z < y := not_le.mp fun hle =>
        ((hma y).mp hy).2 (isLowerSet_below hle hz.2)
      exact hxz.trans hzy
    · rw [mem_union_append] at hx
      exact hx.elim (fun hx => ((hmb x).mp hx).1) fun hx => ((hma x).mp hx).1
  · intro x
    rw [mem_union_append, mem_union_append, hmb, hma, mem_points_iff ho]
    grind

theorem not_mem_union_of_not_reaches (hl : Ordered (r :: l)) (ho : o.isWrapAround = false)
    (h : stopReaches compare o.endBound r.start = false) (hx : x ∈ o.points) :
    x ∉ union (r :: l) := by
  obtain ⟨hr, hfirst, -⟩ := ordered_cons.mp hl
  obtain ⟨z, hz⟩ := exists_mem_points hr
  have hnone (y : T) : y ∈ below o.endBound → y ∉ above r.start := fun hye hys => by
    rw [stopReaches_iff.mpr ⟨y, hye, hys⟩] at h
    cases h
  have hxe := ((mem_points_iff ho).mp hx).2
  rw [mem_union_cons]
  rintro (hxr | hxl)
  · exact hnone x hxe ((mem_points_iff hr).mp hxr).1
  · have hze := isLowerSet_below (hfirst z hz x hxl).le hxe
    exact hnone z hze ((mem_points_iff hr).mp hz).1

theorem subtractLoop_spec (result : List (WrappingInterval T)) (hleft : Ordered left)
    (hright : Ordered right) :
    ∃ pieces, subtractLoop left right result = result ++ pieces ∧ Ordered pieces ∧
      ∀ x, x ∈ union pieces ↔ x ∈ union left ∧ x ∉ union right := by
  fun_induction subtractLoop left right result with
  | case1 right result => exact ⟨[], by simp, ordered_nil, by simp⟩
  | case2 result r₁ left => exact ⟨r₁ :: left, rfl, hleft, by simp⟩
  | case3 result r₁ left r₂ right hskip ih =>
    obtain ⟨ho, -, hrest⟩ := ordered_cons.mp hright
    obtain ⟨pieces, hout, hord, hmem⟩ := ih hleft hrest
    have hapart (y : T) (hy : y ∈ r₂.points) : y ∉ union (r₁ :: left) :=
      not_mem_union_of_not_reaches hleft ho (by simpa using hskip) hy
    refine ⟨pieces, hout, hord, fun x => ?_⟩
    rw [hmem, mem_union_cons (l := right)]
    grind
  | case4 result r₁ left r₂ right hafter hskip ih =>
    obtain ⟨hr, hfirst, hrest⟩ := ordered_cons.mp hleft
    obtain ⟨pieces, hout, hord, hmem⟩ := ih hrest hright
    have hapart (y : T) (hy : y ∈ r₁.points) : y ∉ union (r₂ :: right) :=
      not_mem_union_of_not_reaches hright hr (by simpa using hskip) hy
    refine ⟨r₁ :: pieces, by simpa using hout,
      ordered_cons.mpr ⟨hr, fun x hx y hy => hfirst x hx y ((hmem y).mp hy).1, hord⟩, fun x => ?_⟩
    rw [mem_union_cons, mem_union_cons (l := left), hmem]
    grind
  | case5 result r₁ left r₂ right hafter hbefore ih =>
    have ho := (ordered_cons.mp hright).1
    obtain ⟨hpieces, hcut⟩ := ordered_pieces hleft ho (by simpa using hafter)
      (by simpa using hbefore)
    obtain ⟨pieces, hout, hord, hmem⟩ := ih hpieces hright
    refine ⟨pieces, hout, hord, fun x => ?_⟩
    rw [hmem, hcut, mem_union_cons, mem_union_cons]
    grind

theorem subtract_spec (r o : WrappingInterval T) :
    Ordered (r.subtract o) ∧ union (r.subtract o) = r.points \ o.points := by
  obtain ⟨pieces, hout, hord, hmem⟩ := subtractLoop_spec [] (ordered_parts r) (ordered_parts o)
  rw [subtract, hout, List.nil_append]
  refine ⟨hord, Set.ext fun x => ?_⟩
  rw [hmem, Set.mem_sdiff, mem_points_iff_parts, mem_points_iff_parts]
  rfl

/-! ### Intersection -/

omit [DenselyOrdered T] [NoMinOrder T] [NoMaxOrder T] [Nonempty T] in
theorem intersection_spec (hr : r.isWrapAround = false) (ho : o.isWrapAround = false) :
    (∀ i, r.intersection o = some i → i.isWrapAround = false) ∧
      ∀ x, (∃ i, r.intersection o = some i ∧ x ∈ i.points) ↔ x ∈ r.points ∧ x ∈ o.points := by
  have hstep {a b i : Cql.Interval T} (hb : stopReaches compare b.stop b.start = true)
      (h : Cql.Interval.intersectOrdered compare a b = some i) :
      stopReaches compare i.stop i.start = true := by
    unfold Cql.Interval.intersectOrdered at h
    split at h
    next hreach =>
      cases h
      split
      · exact hreach
      · exact hb
    next => cases h
  have hwrap (i : WrappingInterval T) (h : r.intersection o = some i) : i.isWrapAround = false := by
    obtain ⟨j, hj, rfl⟩ := Option.map_eq_some_iff.mp h
    rw [isWrapAround_ofBounds]
    rw [isWrapAround_eq, Bool.not_eq_false'] at hr ho
    unfold Cql.Interval.intersection at hj
    split at hj
    · rw [hstep hr hj]
      rfl
    · rw [hstep ho hj]
      rfl
  refine ⟨hwrap, fun x => ?_⟩
  have hcontains (i : Cql.Interval T) :
      i.contains compare x = true ↔ x ∈ above i.start ∧ x ∈ below i.stop := Bool.and_eq_true_iff
  have hexact : (Cql.Interval.intersection compare ⟨r.start, r.endBound⟩
      ⟨o.start, o.endBound⟩).any (fun i => i.contains compare x) = true ↔
      x ∈ r.points ∧ x ∈ o.points := by
    rw [Cql.Interval.contains_intersection, Bool.and_eq_true, hcontains, hcontains,
      mem_points_iff hr, mem_points_iff ho]
  rw [← hexact]
  match hi : Cql.Interval.intersection compare ⟨r.start, r.endBound⟩ ⟨o.start, o.endBound⟩ with
  | none => simp [intersection, hi]
  | some i =>
    have hsome : r.intersection o = some (ofBounds i.start i.stop) := by simp [intersection, hi]
    rw [Option.any_some, hcontains, hsome]
    simp [mem_points_iff (hwrap _ hsome)]

/-! ### Removing overlaps -/

omit [DenselyOrdered T] [NoMinOrder T] [NoMaxOrder T] [Nonempty T] in
theorem startLess_eq (a b : Option (Bound T)) :
    startLess compare b a = !startLe compare a b := by
  match a, b with
  | none, _ => simp [startLess, startLe]
  | some _, none => rfl
  | some a, some b =>
    rcases lt_trichotomy a.value b.value with h | h | h
    · simp [startLess, startLe, compare_lt_iff_lt.mpr h, compare_gt_iff_gt.mpr h]
    · simp [startLess, startLe, h, Bool.and_comm]
    · simp [startLess, startLe, compare_lt_iff_lt.mpr h, compare_gt_iff_gt.mpr h]

section

omit [NoMaxOrder T] [Nonempty T]

theorem startLess_eq_false_iff {a b : Option (Bound T)} :
    startLess compare b a = false ↔ above b ⊆ above a := by
  rw [startLess_eq, Bool.not_eq_false', startLe_iff]

theorem sortsByStart_mergeSort :
    SortsByStart fun l : List (WrappingInterval T) =>
      l.mergeSort fun a b => !startLess compare b.start a.start := by
  refine fun l => ⟨List.mergeSort_perm _ _, (List.pairwise_mergeSort ?_ ?_ l).imp ?_⟩
  · intro a b c hab hbc
    rw [Bool.not_eq_true', startLess_eq_false_iff] at hab hbc ⊢
    exact hbc.trans hab
  · intro a b
    rw [Bool.or_eq_true, Bool.not_eq_true', Bool.not_eq_true']
    cases h : startLess compare b.start a.start with
    | false => exact .inl rfl
    | true => exact .inr (Cql.Interval.startLess_asymm h)
  · intro a b h
    exact Bool.not_eq_true' _ ▸ h

end

theorem deoverlapLoop_spec {current : WrappingInterval T} (hcurrent : current.isWrapAround = false)
    (hl : ∀ r ∈ l, r.isWrapAround = false) (hstart : ∀ r ∈ l, above r.start ⊆ above current.start)
    (hsorted : l.Pairwise fun a b => above b.start ⊆ above a.start) :
    Ordered (deoverlapLoop current l) ∧
      ∀ x, x ∈ union (deoverlapLoop current l) ↔ x ∈ current.points ∨ x ∈ union l := by
  induction l generalizing current with
  | nil => exact ⟨ordered_cons.mpr ⟨hcurrent, by simp, ordered_nil⟩, by simp [deoverlapLoop]⟩
  | cons r l ih =>
    obtain ⟨hr, hl⟩ := List.forall_mem_cons.mp hl
    obtain ⟨hrstart, hlstart⟩ := List.forall_mem_cons.mp hstart
    obtain ⟨hrsorted, hlsorted⟩ := List.pairwise_cons.mp hsorted
    obtain ⟨y, hye, hys⟩ := isWrapAround_eq_false.mp hr
    have hreach : stopReaches compare r.endBound current.start = true :=
      stopReaches_iff.mpr ⟨y, hye, hrstart hys⟩
    rw [deoverlapLoop, hreach, Bool.true_and]
    split
    next hge =>
      -- `r` ends within the current interval
      obtain ⟨hord, hmem⟩ := ih hcurrent hl hlstart hlsorted
      have hsub : r.points ⊆ current.points := fun x hx => by
        rw [mem_points_iff hr] at hx
        exact (mem_points_iff hcurrent).mpr
          ⟨hrstart hx.1, stopGe_iff.mp hge hx.2⟩
      refine ⟨hord, fun x => ?_⟩
      rw [hmem, mem_union_cons]
      grind
    next hge =>
      split
      next hmeets =>
        -- the two meet and are merged
        obtain ⟨z, hze, hzs⟩ := stopReaches_iff.mp hmeets
        have hle : below current.endBound ⊆ below r.endBound :=
          stopGe_iff.mp (Cql.Interval.stopGe_of_not_stopGe (Bool.eq_false_iff.mpr hge))
        have hmerged : (ofBounds current.start r.endBound).isWrapAround = false := by
          rw [isWrapAround_ofBounds, hreach]
          rfl
        obtain ⟨hord, hmem⟩ := ih hmerged hl hlstart hlsorted
        refine ⟨hord, fun x => ?_⟩
        rw [hmem, mem_union_cons, ← or_assoc, mem_points_iff hmerged,
          mem_points_iff hcurrent, mem_points_iff hr]
        refine or_congr_left ⟨fun ⟨hxs, hxe⟩ => ?_, ?_⟩
        · by_cases hx : x ∈ below current.endBound
          · exact .inl ⟨hxs, hx⟩
          · have hzx : z ≤ x := le_of_not_ge fun hxz => hx (isLowerSet_below hxz hze)
            exact .inr ⟨isUpperSet_above hzx hzs, hxe⟩
        · rintro (⟨hxs, hxe⟩ | ⟨hxs, hxe⟩)
          · exact ⟨hxs, hle hxe⟩
          · exact ⟨hrstart hxs, hxe⟩
      next hmeets =>
        obtain ⟨hord, hmem⟩ := ih hr hl hrsorted hlsorted
        refine ⟨ordered_cons.mpr ⟨hcurrent, fun x hx z hz => ?_, hord⟩, fun x => ?_⟩
        · have hzs : z ∈ above r.start := by
            rcases (hmem z).mp hz with hz | ⟨p, hp, hz⟩
            · exact ((mem_points_iff hr).mp hz).1
            · exact hrsorted p hp ((mem_points_iff (hl p hp)).mp hz).1
          have hxe := ((mem_points_iff hcurrent).mp hx).2
          by_contra hzx
          exact hmeets (stopReaches_iff.mpr ⟨z, isLowerSet_below (not_lt.mp hzx) hxe, hzs⟩)
        · rw [mem_union_cons, hmem, mem_union_cons]

theorem deoverlap_spec {sort : List (WrappingInterval T) → List (WrappingInterval T)}
    (hsort : SortsByStart sort) (hl : ∀ r ∈ l, r.isWrapAround = false) :
    Ordered (deoverlap sort l) ∧ union (deoverlap sort l) = union l := by
  unfold deoverlap
  split
  next hlen =>
    refine ⟨⟨hl, ?_⟩, rfl⟩
    match l with
    | [] => exact .nil
    | [r] => exact List.pairwise_singleton _ _
  next hlen =>
    obtain ⟨hperm, hsorted⟩ := hsort l
    have hunion : union (sort l) = union l :=
      Set.ext fun x => exists_congr fun r => and_congr_left' hperm.mem_iff
    have hwrap (r : WrappingInterval T) (h : r ∈ sort l) := hl r (hperm.mem_iff.mp h)
    rw [← hunion]
    match hs : sort l with
    | [] => exact ⟨ordered_nil, rfl⟩
    | current :: rest =>
      rw [hs] at hsorted hwrap
      obtain ⟨hfirst, hrest⟩ := List.pairwise_cons.mp hsorted
      obtain ⟨hcurrent, hwrap⟩ := List.forall_mem_cons.mp hwrap
      obtain ⟨hord, hmem⟩ := deoverlapLoop_spec hcurrent hwrap
        (fun r hr => startLess_eq_false_iff.mp (hfirst r hr))
        (hrest.imp startLess_eq_false_iff.mp)
      exact ⟨hord, Set.ext fun x => (hmem x).trans mem_union_cons.symm⟩

end

/-! ### The algebra -/

structure AlgebraExact (sort : List (WrappingInterval T) → List (WrappingInterval T))
    (a b : WrappingInterval T) : Prop where
  overlaps : a.overlaps b = true ↔ (a.points ∩ b.points).Nonempty
  contains : a.contains b = true ↔ b.points ⊆ a.points
  subtract : union (a.subtract b) = a.points \ b.points
  subtract_disjoint : (a.subtract b).Pairwise fun p q => Disjoint p.points q.points
  intersection : a.isWrapAround = false → b.isWrapAround = false →
    ∀ x, (∃ i, a.intersection b = some i ∧ x ∈ i.points) ↔ x ∈ a.points ∩ b.points
  deoverlap : ∀ l, (∀ r ∈ l, r.isWrapAround = false) →
    union (deoverlap sort l) = union l ∧
      (deoverlap sort l).Pairwise (fun p q => Disjoint p.points q.points) ∧
      (deoverlap sort l).Pairwise Precedes

/-- The algebra of two intervals is exact unless the first covers the whole ring and a part of the
second has points on both sides of its seam. -/
theorem algebraExact_iff [DenselyOrdered T] [NoMinOrder T] [NoMaxOrder T] [Nonempty T]
    {sort : List (WrappingInterval T) → List (WrappingInterval T)} (hsort : SortsByStart sort)
    (a b : WrappingInterval T) :
    AlgebraExact sort a b ↔ ¬(a.CoversRing ∧ b.Straddles a) := by
  rw [← contains_exact_iff a b]
  refine ⟨fun h => h.contains, fun hcontains => ⟨overlaps_iff a b, hcontains,
    (subtract_spec a b).2, (subtract_spec a b).1.disjoint,
    fun ha hb => (intersection_spec ha hb).2, fun l hl => ?_⟩⟩
  obtain ⟨hord, hunion⟩ := deoverlap_spec hsort hl
  exact ⟨hunion, hord.disjoint, hord.pairwise⟩

/-- A wrap-around with a gap, and an interval within its upper ray. -/
theorem algebraExact_gap :
    AlgebraExact (T := ℚ) (fun l => l.mergeSort fun a b => !startLess compare b.start a.start)
      (ofBounds (some ⟨1, true⟩) (some ⟨0, true⟩))
      (ofBounds (some ⟨2, true⟩) (some ⟨3, false⟩)) := by
  refine (algebraExact_iff sortsByStart_mergeSort _ _).mpr fun ⟨⟨hwrap, hall⟩, _⟩ => ?_
  have hhalf := (mem_points_iff_of_wrap hwrap).mp (hall (1 / 2))
  simp only [endBound_ofBounds, start_ofBounds, mem_below_some, mem_above_some] at hhalf
  norm_num at hhalf

/-- From zero round to zero is everything, but it is not found to contain what lies around zero. -/
theorem not_algebraExact_aroundZero :
    ¬AlgebraExact (T := ℚ) (fun l => l.mergeSort fun a b => !startLess compare b.start a.start)
      (ofBounds (some ⟨0, true⟩) (some ⟨0, false⟩))
      (ofBounds (some ⟨-1, true⟩) (some ⟨1, true⟩)) := by
  intro h
  have hwrap : (ofBounds (some ⟨(0 : ℚ), true⟩) (some ⟨0, false⟩)).isWrapAround = true := by decide
  have hcontains := h.contains.mpr fun x _ => by
    rw [mem_points_iff_of_wrap hwrap]
    simp only [endBound_ofBounds, start_ofBounds, mem_below_some, mem_above_some]
    grind
  exact absurd hcontains (by decide)

end Scylla.Dht.WrappingInterval
