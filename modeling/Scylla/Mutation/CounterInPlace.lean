import Scylla.Mutation.Counter

/-!
# Merging counter cells in place

`counter_cell_view::apply` exchanges values between the shard lists of two cells; at the first
source shard without a counterpart it walks back, undoes the exchanges and combines the lists in a
new buffer instead. What it leaves in the destination is the same. An iterator is the list of the
shards before it, the nearest first, and the list of those from it on.
-/

namespace Scylla.Mutation

open List
open CounterShard
open CounterShards

namespace CounterShard

/-- `set_value_and_clock`; `swap_value_and_clock` sets both shards from each other. -/
def setValueAndClock (x y : CounterShard) : CounterShard :=
  { x with value := y.value, logicalClock := y.logicalClock }

theorem setValueAndClock_of_id_eq {x y : CounterShard} (h : x.id = y.id) :
    x.setValueAndClock y = y := by
  rw [setValueAndClock, h]

end CounterShard

namespace CounterShards

/-- The walk back of `apply_in_place`; it fails where it would leave the destination. -/
def revertInPlace : (dstBefore dst srcBefore src : List CounterShard) →
    Option (List CounterShard × List CounterShard)
  | dstBefore, dst, [], src => some (dstBefore.reverse ++ dst, src)
  | _, [], _ :: _, _ => none
  | dstBefore, d :: dst, s :: srcBefore, src =>
    if d.id ≠ s.id then
      match dstBefore with
      | [] => none
      | d' :: dstBefore => revertInPlace dstBefore (d' :: d :: dst) (s :: srcBefore) src
    else
      revertInPlace dstBefore (d.setValueAndClock s :: dst) srcBefore
        (s.setValueAndClock d :: src)
termination_by dstBefore _ srcBefore => dstBefore.length + srcBefore.length

/-- The loop of `apply_in_place`: whether it succeeds, and both shard lists after it. -/
def inPlaceLoop : (dstBefore dst srcBefore src : List CounterShard) →
    Option (Bool × List CounterShard × List CounterShard)
  | dstBefore, dst, srcBefore, [] => some (true, dstBefore.reverse ++ dst, srcBefore.reverse)
  | [], [], _, _ :: _ => none
  | d :: dstBefore, [], srcBefore, s :: src =>
    (revertInPlace dstBefore [d] srcBefore (s :: src)).map (false, ·)
  | dstBefore, d :: dst, srcBefore, s :: src =>
    if d.id < s.id then inPlaceLoop (d :: dstBefore) dst srcBefore (s :: src)
    else if d.id ≠ s.id then
      (revertInPlace dstBefore (d :: dst) srcBefore (s :: src)).map (false, ·)
    else if d.logicalClock < s.logicalClock then
      inPlaceLoop dstBefore (d.setValueAndClock s :: dst) (s.setValueAndClock d :: srcBefore) src
    else inPlaceLoop dstBefore (d :: dst) (s.setValueAndClock d :: srcBefore) src
termination_by _ dst _ src => dst.length + src.length

section Revert

variable {dstBefore dst srcBefore src : List CounterShard} {d d' s : CounterShard}

theorem revertInPlace_done :
    revertInPlace dstBefore dst [] src = some (dstBefore.reverse ++ dst, src) := by
  rw [revertInPlace]

theorem revertInPlace_pass (h : d.id ≠ s.id) :
    revertInPlace (d' :: dstBefore) (d :: dst) (s :: srcBefore) src =
      revertInPlace dstBefore (d' :: d :: dst) (s :: srcBefore) src := by
  rw [revertInPlace, if_pos h]

theorem revertInPlace_undo (h : d.id = s.id) :
    revertInPlace dstBefore (d :: dst) (s :: srcBefore) src =
      revertInPlace dstBefore (s :: dst) srcBefore (d :: src) := by
  rw [revertInPlace.eq_def]
  simp only [h, ne_eq, not_true_eq_false, if_false, setValueAndClock_of_id_eq h,
    setValueAndClock_of_id_eq h.symm]

end Revert

/-! ## What the walk has passed -/

/-- A destination shard behind the walk, with the source shard of its id if there is one. -/
inductive Passed where
  | alone (d : CounterShard)
  | paired (d s : CounterShard) (h : d.id = s.id)

namespace Passed

def old : Passed → CounterShard
  | alone d | paired d _ _ => d

def new : Passed → CounterShard
  | alone d => d
  | paired d s _ => d.merge s

def source : Passed → Option CounterShard
  | alone _ => none
  | paired _ s _ => some s

/-- The source shard after the walk: it always holds what the destination held. -/
def taken : Passed → Option CounterShard
  | alone _ => none
  | paired d _ _ => some d

def givenBack : Passed → Option CounterShard
  | alone _ => none
  | paired d s _ => some (d.merge s)

theorem id_new (i : Passed) : i.new.id = i.old.id := by
  cases i with
  | alone d => rfl
  | paired d s h => exact merge_id (compare_eq_iff_eq.mpr h)

theorem mem_taken {l : List Passed} {x : CounterShard} (h : x ∈ l.filterMap taken) :
    ∃ i ∈ l, x = i.old := by
  obtain ⟨i, hi, hx⟩ := mem_filterMap.mp h
  cases i with
  | alone d => cases hx
  | paired d s hid => exact ⟨_, hi, (Option.some.inj hx).symm⟩

end Passed

/-- The ids of the destination shards behind the walk, from the nearest one on. -/
def Descending (l : List Passed) : Prop := l.Pairwise fun i j => j.old.id < i.old.id

open Passed

variable {l : List Passed} {src dst : List CounterShard}

theorem revertInPlace_eq (hl : Descending l) {c : CounterShard} (hc : ∀ i ∈ l, i.old.id < c.id)
    (dst src : List CounterShard) :
    revertInPlace (l.map new) (c :: dst) (l.filterMap taken) src =
      some ((l.map old).reverse ++ c :: dst, (l.filterMap givenBack).reverse ++ src) := by
  induction l generalizing c dst src with
  | nil => exact revertInPlace_done
  | cons i l ih =>
    obtain ⟨hi, hl'⟩ := pairwise_cons.mp hl
    cases i with
    | alone d =>
      -- nothing to undo at this shard: the walk passes it unless it is done
      have hskip : revertInPlace (d :: l.map new) (c :: dst) (l.filterMap taken) src =
          revertInPlace (l.map new) (d :: c :: dst) (l.filterMap taken) src := by
        cases hs : l.filterMap taken with
        | nil => simp [revertInPlace_done]
        | cons s sl =>
          obtain ⟨j, hj, rfl⟩ := mem_taken (hs ▸ mem_cons_self : s ∈ l.filterMap taken)
          exact revertInPlace_pass (hc j (mem_cons_of_mem _ hj)).ne'
      exact hskip.trans ((ih hl' hi (c :: dst) src).trans
        (by simp [old, givenBack, filterMap_cons]))
    | paired d s h =>
      have hne : c.id ≠ d.id := (hc _ mem_cons_self).ne'
      have hundo : revertInPlace (d.merge s :: l.map new) (c :: dst) (d :: l.filterMap taken) src =
          revertInPlace (l.map new) (d :: c :: dst) (l.filterMap taken) (d.merge s :: src) :=
        (revertInPlace_pass hne).trans (revertInPlace_undo (id_new (paired d s h)))
      exact hundo.trans ((ih hl' hi (c :: dst) (d.merge s :: src)).trans (by simp [old, givenBack]))

theorem revertInPlace_eq_of_end {i : Passed} (hl : Descending (i :: l)) (src : List CounterShard) :
    revertInPlace (l.map new) [i.new] ((i :: l).filterMap taken) src =
      some (((i :: l).map old).reverse, ((i :: l).filterMap givenBack).reverse ++ src) := by
  obtain ⟨hi, hl'⟩ := pairwise_cons.mp hl
  cases i with
  | alone d =>
    exact (revertInPlace_eq hl' hi [] src).trans (by simp [old, givenBack, filterMap_cons])
  | paired d s h =>
    have hundo : revertInPlace (l.map new) [d.merge s] (d :: l.filterMap taken) src =
        revertInPlace (l.map new) [d] (l.filterMap taken) (d.merge s :: src) :=
      revertInPlace_undo (id_new (paired d s h))
    exact hundo.trans ((revertInPlace_eq hl' hi [] (d.merge s :: src)).trans
      (by simp [old, givenBack]))

/-! ## The walk -/

theorem inPlaceLoop_paired {d s : CounterShard} (h : d.id = s.id) (hs : ∀ x ∈ src, s.id < x.id)
    (dstBefore dst srcBefore : List CounterShard) :
    inPlaceLoop dstBefore (d :: dst) srcBefore (s :: src) =
      inPlaceLoop (d.merge s :: dstBefore) dst (d :: srcBefore) src := by
  have hmerge : inPlaceLoop dstBefore (d :: dst) srcBefore (s :: src) =
      inPlaceLoop dstBefore (d.merge s :: dst) (d :: srcBefore) src := by
    rw [inPlaceLoop, if_neg h.not_lt, if_neg (not_not.mpr h),
      setValueAndClock_of_id_eq h, setValueAndClock_of_id_eq h.symm]
    unfold CounterShard.merge
    split <;> rfl
  rw [hmerge]
  cases src with
  | nil => simp [inPlaceLoop]
  | cons s' src =>
    have hid : (d.merge s).id = d.id := merge_id (compare_eq_iff_eq.mpr h)
    rw [inPlaceLoop, if_pos ((hid.trans h).trans_lt (hs s' mem_cons_self))]

inductive InPlace (l : List Passed) (dst src : List CounterShard) :
    Bool × List CounterShard × List CounterShard → Prop
  | done (src' : List CounterShard) : InPlace l dst src
      (true, (l.map new).reverse ++ combine compare CounterShard.id CounterShard.merge dst src,
        src')
  | reverted (l' : List Passed) (rest : List CounterShard)
      (hl : ∀ i ∈ l', i.old ∈ (l.map old).reverse ++ dst)
      (hsrc : (l.filterMap source).reverse ++ src = (l'.filterMap source).reverse ++ rest) :
      InPlace l dst src
        (false, (l.map old).reverse ++ dst, (l'.filterMap givenBack).reverse ++ rest)

theorem InPlace.of_cons {i : Passed} {out : Bool × List CounterShard × List CounterShard}
    (h : InPlace (i :: l) dst src out)
    (hcombine : combine compare CounterShard.id CounterShard.merge (i.old :: dst)
      (i.source.toList ++ src) = i.new :: combine compare CounterShard.id CounterShard.merge dst
      src) :
    InPlace l (i.old :: dst) (i.source.toList ++ src) out := by
  have hsource : ((i :: l).filterMap source).reverse ++ src =
      (l.filterMap source).reverse ++ (i.source.toList ++ src) := by
    cases hi : i.source <;> simp [hi]
  have hold : ((i :: l).map old).reverse ++ dst = (l.map old).reverse ++ i.old :: dst := by simp
  cases h with
  | done src' =>
    have hnew : ((i :: l).map new).reverse ++
        combine compare CounterShard.id CounterShard.merge dst src = (l.map new).reverse ++
          combine compare CounterShard.id CounterShard.merge (i.old :: dst)
            (i.source.toList ++ src) := by
      rw [hcombine]
      simp
    rw [hnew]
    exact .done src'
  | reverted l' rest hl hsrc =>
    rw [hold] at hl ⊢
    exact .reverted l' rest hl (hsource ▸ hsrc)

theorem exists_inPlaceLoop (hl : Descending l) (hdst : SortedBy compare CounterShard.id dst)
    (hsrc : SortedBy compare CounterShard.id src) (hld : ∀ i ∈ l, ∀ d ∈ dst, i.old.id < d.id)
    (hne : src ≠ [] → l ≠ [] ∨ dst ≠ []) :
    ∃ out, inPlaceLoop (l.map new) dst (l.filterMap taken) src = some out ∧
      InPlace l dst src out := by
  have hpassed : ∀ {l : List Passed} {dst : List CounterShard}, ∀ i ∈ l,
      i.old ∈ (l.map old).reverse ++ dst := fun i hi =>
    mem_append_left _ (mem_reverse.mpr (mem_map_of_mem hi))
  induction dst, src using mergeInto_induct compare CounterShard.id generalizing l with
  | nil_left src =>
    cases src with
    | nil =>
      refine ⟨_, ?_, .done (l.filterMap taken).reverse⟩
      rw [inPlaceLoop, combine, mergeInto_nil_right]
    | cons s src =>
      cases l with
      | nil => simp at hne
      | cons i l =>
        refine ⟨_, ?_, .reverted (i :: l) (s :: src) hpassed rfl⟩
        rw [map_cons, inPlaceLoop, revertInPlace_eq_of_end hl, append_nil]
        rfl
  | nil_right d dst =>
    refine ⟨_, ?_, .done (l.filterMap taken).reverse⟩
    rw [inPlaceLoop, combine, mergeInto_nil_right]
  | lt d s dst src hc ih =>
    obtain ⟨hd, hdst'⟩ := pairwise_cons.mp hdst
    obtain ⟨out, hout, hleft⟩ := ih (l := alone d :: l)
      (pairwise_cons.mpr ⟨fun i hi => hld i hi d mem_cons_self, hl⟩) hdst' hsrc
      (forall_mem_cons.mpr ⟨fun x hx => compare_lt_iff_lt.mp (hd x hx),
        fun i hi x hx => hld i hi x (mem_cons_of_mem _ hx)⟩)
      fun _ => .inl (cons_ne_nil _ _)
    refine ⟨out, ?_, hleft.of_cons ?_⟩
    · rw [inPlaceLoop, if_pos (compare_lt_iff_lt.mp hc)]
      exact hout
    · simp only [combine, old, new, source, Option.toList_none, nil_append, mergeInto_cons_cons, hc]
  | eq d s dst src hc ih =>
    obtain ⟨hd, hdst'⟩ := pairwise_cons.mp hdst
    obtain ⟨hs, hsrc'⟩ := pairwise_cons.mp hsrc
    have hid : d.id = s.id := compare_eq_iff_eq.mp hc
    obtain ⟨out, hout, hleft⟩ := ih (l := paired d s hid :: l)
      (pairwise_cons.mpr ⟨fun i hi => hld i hi d mem_cons_self, hl⟩) hdst' hsrc'
      (forall_mem_cons.mpr ⟨fun x hx => compare_lt_iff_lt.mp (hd x hx),
        fun i hi x hx => hld i hi x (mem_cons_of_mem _ hx)⟩)
      fun _ => .inl (cons_ne_nil _ _)
    refine ⟨out, ?_, hleft.of_cons ?_⟩
    · rw [inPlaceLoop_paired hid fun x hx => compare_lt_iff_lt.mp (hs x hx)]
      exact hout
    · simp only [combine, old, new, source, Option.toList_some, singleton_append,
        mergeInto_cons_cons, hc]
  | gt d s dst src hc ih =>
    have hlt : s.id < d.id := compare_gt_iff_gt.mp hc
    refine ⟨_, ?_, .reverted l (s :: src) hpassed rfl⟩
    rw [inPlaceLoop, if_neg hlt.not_gt, if_pos hlt.ne',
      revertInPlace_eq hl fun i hi => hld i hi d mem_cons_self]
    rfl

/-! ## The cells after it -/

theorem lookupBy_givenBack (hdst : SortedBy compare CounterShard.id dst) (k : ℕ)
    (hl : ∀ i ∈ l, i.old ∈ dst) (rest : List CounterShard) :
    Option.merge CounterShard.merge (lookupBy compare CounterShard.id some k dst)
        (lookupBy compare CounterShard.id some k ((l.filterMap givenBack) ++ rest)) =
      Option.merge CounterShard.merge (lookupBy compare CounterShard.id some k dst)
        (lookupBy compare CounterShard.id some k ((l.filterMap source) ++ rest)) := by
  induction l with
  | nil => rfl
  | cons i l ih =>
    have hrest := ih fun j hj => hl j (mem_cons_of_mem _ hj)
    cases i with
    | alone d => exact hrest
    | paired d s h =>
      have hid : (d.merge s).id = s.id := (id_new (paired d s h)).trans h
      have hd : lookupBy compare CounterShard.id some d.id dst = some d :=
        lookupBy_of_mem hdst (hl _ mem_cons_self)
      simp only [filterMap_cons, givenBack, source, cons_append, lookupBy_cons, hid]
      split
      · next hk =>
        rw [compare_eq_iff_eq.mp hk, ← h, hd]
        simp only [Option.merge_some_some, CounterShard.merge]
        grind
      · exact hrest

theorem InPlace.combine_reverted {dst' src' : List CounterShard}
    (hdst : SortedBy compare CounterShard.id dst) (hsrc : SortedBy compare CounterShard.id src)
    (h : InPlace [] dst src (false, dst', src')) :
    dst' = dst ∧ combine compare CounterShard.id CounterShard.merge dst' src' =
      combine compare CounterShard.id CounterShard.merge dst src := by
  cases h with
  | reverted l rest hl hmerged =>
    have hmerged : src = l.reverse.filterMap source ++ rest := by
      simpa [filterMap_reverse] using hmerged
    have hids : (l.reverse.filterMap givenBack).map CounterShard.id =
        (l.reverse.filterMap source).map CounterShard.id := by
      rw [map_filterMap, map_filterMap]
      refine filterMap_congr fun i _ => ?_
      cases i with
      | alone d => rfl
      | paired d s h => exact congrArg some ((id_new (paired d s h)).trans h)
    have hsrc' : SortedBy compare CounterShard.id (l.reverse.filterMap givenBack ++ rest) := by
      have hkeys (l : List CounterShard) : SortedBy compare CounterShard.id l ↔
          (l.map CounterShard.id).Pairwise fun a b => compare a b = .lt := by
        rw [pairwise_map]
        rfl
      rw [hkeys, map_append, hids, ← map_append, ← hmerged]
      exact (hkeys src).mp hsrc
    rw [map_nil, reverse_nil, nil_append, ← filterMap_reverse]
    refine ⟨rfl, eq_of_lookupBy_eq (sortedBy_combine (fun _ _ => merge_id) hdst hsrc')
      (sortedBy_combine (fun _ _ => merge_id) hdst hsrc) fun k => ?_⟩
    rw [lookupBy_combine (fun _ _ => merge_id) (fun _ _ _ => rfl) k hdst hsrc',
      lookupBy_combine (fun _ _ => merge_id) (fun _ _ _ => rfl) k hdst hsrc, hmerged]
    exact lookupBy_givenBack hdst k (fun i hi => by simpa using hl i (mem_reverse.mp hi)) rest

end CounterShards

inductive CounterCellData where
  | dead (timestamp deletionTime : I64)
  | live (timestamp : I64) (shards : List CounterShard)
  deriving DecidableEq

def CounterCell.data : CounterCell → CounterCellData
  | dead t d => .dead t d
  | live t s => .live t s.val

namespace CounterCellData

def combined (t : I64) (dst : List CounterShard) (t' : I64) (src : List CounterShard) :
    CounterCellData × CounterCellData :=
  (live (max t t') (combine compare CounterShard.id CounterShard.merge dst src), live t dst)

def apply : CounterCellData → CounterCellData → Option (CounterCellData × CounterCellData)
  | live t dst, live t' src =>
    if src.length ≤ dst.length then
      (CounterShards.inPlaceLoop [] dst [] src).map fun
        | (true, dst', src') => (live (max t t') dst', live t src')
        | (false, dst', src') => combined t dst' t' src'
    else some (combined t dst t' src)
  | live t s, dead t' d => some (dead t' d, live t s)
  | dead t d, live t' s => some (dead t d, live t' s)
  | dead t d, dead t' d' =>
    if compareAtomicCellForMerge (.dead t d) (.dead t' d') = .lt then
      some (dead t' d', dead t d)
    else some (dead t d, dead t' d')

def applyAll (dst : CounterCellData) (srcs : List CounterCellData) : Option CounterCellData :=
  srcs.foldlM (fun dst src => (dst.apply src).map Prod.fst) dst

theorem exists_apply_data (a b : CounterCell) :
    ∃ src, a.data.apply b.data = some ((a.apply b).data, src) := by
  match a, b with
  | .live t dst, .live t' src =>
    change ∃ s, _ = some (live (max t t') (dst.apply src).val, s)
    change ∃ s, (if src.val.length ≤ dst.val.length then _ else _) = _
    split
    · next hle =>
      have hne : src.val ≠ [] → ([] : List CounterShards.Passed) ≠ [] ∨ dst.val ≠ [] := by
        intro hsrc
        refine .inr fun hdst => hsrc ?_
        rw [hdst] at hle
        exact eq_nil_of_length_eq_zero (Nat.le_zero.mp hle)
      obtain ⟨⟨ok, dst', src'⟩, hout, hleft⟩ :=
        exists_inPlaceLoop List.Pairwise.nil dst.property src.property
          (fun i hi => absurd hi not_mem_nil) hne
      rw [map_nil, filterMap_nil] at hout
      rw [hout]
      cases ok with
      | true =>
        cases hleft with
        | done => exact ⟨_, rfl⟩
      | false =>
        obtain ⟨rfl, hcombine⟩ := hleft.combine_reverted dst.property src.property
        exact ⟨live t dst.val, congrArg (fun l => some (live (max t t') l, live t dst.val))
          hcombine⟩
    · exact ⟨_, rfl⟩
  | .live .., .dead .. | .dead .., .live .. => exact ⟨_, rfl⟩
  | .dead t d, .dead t' d' =>
    by_cases hlt : compareAtomicCellForMerge (.dead t d) (.dead t' d') = .lt
    · exact ⟨dead t d, by simp [CounterCell.data, CounterCell.apply, apply, hlt]⟩
    · exact ⟨dead t' d', by simp [CounterCell.data, CounterCell.apply, apply, hlt]⟩

theorem applyAll_data (c : CounterCell) (l : List CounterCell) :
    applyAll c.data (l.map CounterCell.data) = some (l.foldl CounterCell.apply c).data := by
  induction l generalizing c with
  | nil => rfl
  | cons b l ih =>
    obtain ⟨src, hsrc⟩ := exists_apply_data c b
    rw [applyAll, map_cons, foldlM_cons, hsrc]
    exact ih _

end CounterCellData

namespace CounterCell

def shards : CounterCell → List CounterShard
  | dead .. => []
  | live _ s => s.val

/-- Shards of one node and one logical clock have one value, across the cells. -/
def ShardsAgree (cells : List CounterCell) : Prop :=
  ∀ c ∈ cells, ∀ c' ∈ cells, ∀ x ∈ c.shards, ∀ y ∈ c'.shards, x.id = y.id →
    x.logicalClock = y.logicalClock → x.value = y.value

/-- Of the shards of its node in the list, the shard has the latest clock. -/
def IsLatest (l : List CounterShard) (x : CounterShard) : Prop :=
  x ∈ l ∧ ∀ y ∈ l, y.id = x.id → y.logicalClock ≤ x.logicalClock

structure MergeExact (cells : List CounterCell) : Prop where
  latest : ∀ t dst t' src, live t dst ∈ cells → live t' src ∈ cells →
    ∃ (r : CounterShards) (left : CounterCellData),
      (live t dst).data.apply (live t' src).data = some ((live (max t t') r).data, left) ∧
        ∀ x, x ∈ r.val ↔ IsLatest (dst.val ++ src.val) x
  order : ∃ r : CounterCell, ∀ c l, (∀ x, x ∈ c :: l ↔ x ∈ cells) →
    c.data.applyAll (l.map data) = some r.data

variable {x : CounterShard}

theorem mem_iff_lookup {l : CounterShards} : x ∈ l.val ↔ l.lookup x.id = some x :=
  ⟨CounterShards.lookup_of_mem, fun h => (lookup_spec h).1⟩

variable {dst src : CounterShards}

theorem isLatest_iff :
    IsLatest (dst.val ++ src.val) x ↔
      (dst.lookup x.id = some x ∨ src.lookup x.id = some x) ∧
        ∀ y, dst.lookup x.id = some y ∨ src.lookup x.id = some y →
          y.logicalClock ≤ x.logicalClock := by
  unfold IsLatest
  rw [mem_append, mem_iff_lookup, mem_iff_lookup]
  refine and_congr_right fun _ => forall_congr' fun y => ?_
  constructor
  · rintro h (hy | hy)
    · obtain ⟨hmem, hid⟩ := lookup_spec hy
      exact h (mem_append_left _ hmem) hid
    · obtain ⟨hmem, hid⟩ := lookup_spec hy
      exact h (mem_append_right _ hmem) hid
  · intro h hy hid
    rw [mem_append, mem_iff_lookup, mem_iff_lookup, hid] at hy
    exact h hy

theorem mem_apply_iff
    (h : ∀ x ∈ dst.val, ∀ y ∈ src.val, x.id = y.id → x.logicalClock = y.logicalClock →
      x.value = y.value) :
    x ∈ (dst.apply src).val ↔ IsLatest (dst.val ++ src.val) x := by
  rw [mem_iff_lookup, lookup_apply, isLatest_iff]
  cases hd : dst.lookup x.id with
  | none => cases hs : src.lookup x.id <;> simp +contextual
  | some d =>
    cases hs : src.lookup x.id with
    | none => simp +contextual
    | some s =>
      obtain ⟨hdmem, hdid⟩ := lookup_spec hd
      obtain ⟨hsmem, hsid⟩ := lookup_spec hs
      have heq : d.logicalClock = s.logicalClock → d = s := by
        intro hclock
        have hvalue := h d hdmem s hsmem (hdid.trans hsid.symm) hclock
        rcases d with ⟨i, v, c⟩
        rcases s with ⟨i', v', c'⟩
        simp_all
      simp only [Option.merge_some_some, Option.some.injEq, CounterShard.merge]
      grind

/-- Cells whose shards agree merge exactly, whichever paths the merges take. -/
theorem ShardsAgree.mergeExact {cells : List CounterCell} (h : ShardsAgree cells) :
    MergeExact cells where
  latest t dst t' src hdst hsrc := by
    obtain ⟨left, hleft⟩ := CounterCellData.exists_apply_data (live t dst) (live t' src)
    exact ⟨dst.apply src, left, hleft, fun x => mem_apply_iff (h _ hdst _ hsrc)⟩
  order := by
    obtain ⟨history, hfrom⟩ := exists_history
      (q := fun x => ∃ c ∈ cells, x ∈ c.shards)
      fun x y ⟨c, hc, hx⟩ ⟨c', hc', hy⟩ => h c hc c' hc' x hx y hy
    have hvalid : ∀ c ∈ cells, c.IsFrom history := by
      intro c hc
      cases c with
      | dead t d => trivial
      | live t s => exact fun x hx => hfrom x ⟨_, hc, hx⟩
    cases cells with
    | nil => exact ⟨dead 0 0, fun c l hl => absurd ((hl c).mp mem_cons_self) not_mem_nil⟩
    | cons a cells =>
      refine ⟨cells.foldl apply a, fun c l hl => ?_⟩
      rw [CounterCellData.applyAll_data,
        (mergeLaws history).foldl_eq_of_mem_iff (fun x hx => hvalid x ((hl x).mp hx)) hl]

/-- A source with a shard that the destination has no counterpart for, behind one it has. -/
theorem mergeExact_reverted :
    MergeExact [live 1 ⟨[⟨1, 5, 1⟩, ⟨3, 2, 1⟩], by decide⟩,
      live 2 ⟨[⟨1, 8, 2⟩, ⟨2, 4, 1⟩], by decide⟩] :=
  ShardsAgree.mergeExact (by unfold ShardsAgree; decide)

end CounterCell

end Scylla.Mutation
