import Scylla.Sstables.RingPosition

/-!
# Incremental selection of sstables

An sstable set keeps the sstables of level zero in a list and the others in an interval map, whose
segments its incremental selector walks. The public selector caches the last answer, and a compound
set asks the selectors of all its sets. `Selection` says what an answer is worth: which sstables it
has at the position asked for, and that no other sstable begins before the next position.
-/

namespace Scylla.Sstables

open RingPosition
open List

variable {T K : Type*} [LinearOrder T] [LinearOrder K]

structure Sstable (T K : Type*) [LinearOrder T] [LinearOrder K] where
  generation : ℕ
  first : DecoratedKey T K
  last : DecoratedKey T K
  first_le_last : first ≤ last
  deriving DecidableEq

/-- The position is between the first and the last key. -/
def Sstable.Covers (x : Sstable T K) (p : RingPosition T K) : Prop :=
  .ofKey x.first false ≤ p ∧ p ≤ .ofKey x.last false

/-! ## Intervals -/

structure Bound (T K : Type*) where
  value : RingPosition T K
  inclusive : Bool

structure PartitionRange (T K : Type*) where
  start : Option (Bound T K)
  stop : Option (Bound T K)

namespace PartitionRange

def contains (r : PartitionRange T K) (p : RingPosition T K) : Bool :=
  (r.start.all fun b => if b.inclusive then b.value ≤ p else b.value < p) &&
    r.stop.all fun b => if b.inclusive then p ≤ b.value else p < b.value

/-- `ring_position_view::for_range_start`. -/
def startPosition (r : PartitionRange T K) : RingPosition T K :=
  match r.start with
  | some b => b.value.withAfterKey !b.inclusive
  | none => .min

/-- The range and the span of the sstable have a key in common. -/
def Intersects (r : PartitionRange T K) (x : Sstable T K) : Prop :=
  ∃ k, r.contains (.ofKey k false) = true ∧ x.Covers (.ofKey k false)

theorem startPosition_le {r : PartitionRange T K} {p : RingPosition T K}
    (h : r.contains p = true) : r.startPosition ≤ p := by
  have hlower := (Bool.and_eq_true_iff.mp h).1
  unfold startPosition
  cases hs : r.start with
  | none => exact min_le p
  | some b =>
    rw [hs, Option.all_some] at hlower
    change b.value.withAfterKey (!b.inclusive) ≤ p
    cases hb : b.inclusive with
    | true =>
      rw [hb, if_pos rfl, decide_eq_true_iff] at hlower
      exact (withAfterKey_false_le _).trans hlower
    | false =>
      rw [hb, if_neg Bool.false_ne_true, decide_eq_true_iff] at hlower
      exact withAfterKey_true_le hlower

end PartitionRange

/-- A segment of the interval map: an interval of keys and the sstables of all of it. -/
structure Segment (T K : Type*) [LinearOrder T] [LinearOrder K] where
  lower : DecoratedKey T K
  upper : DecoratedKey T K
  leftClosed : Bool
  rightClosed : Bool
  sstables : List (Sstable T K)

namespace Segment

def contains (seg : Segment T K) (p : RingPosition T K) : Bool :=
  (if seg.leftClosed then ofKey seg.lower false ≤ p
    else ofKey seg.lower false < p) &&
  if seg.rightClosed then p ≤ ofKey seg.upper false
    else p < ofKey seg.upper false

/-- `is_before_interval`. -/
def isAfter (seg : Segment T K) (p : RingPosition T K) : Bool :=
  if seg.leftClosed then p < ofKey seg.lower false
  else p ≤ ofKey seg.lower false

def begin (seg : Segment T K) : RingPosition T K := .ofKey seg.lower !seg.leftClosed

def stop (seg : Segment T K) : RingPosition T K := .ofKey seg.upper seg.rightClosed

def toPartitionRange (seg : Segment T K) : PartitionRange T K where
  start := some ⟨.ofKey seg.lower false, seg.leftClosed⟩
  stop := some ⟨.ofKey seg.upper false, seg.rightClosed⟩

/-- `to_partition_range` from a position up to an interval. -/
def toPartitionRangeFrom (seg : Segment T K) (pos : RingPosition T K) : PartitionRange T K where
  start := some ⟨pos.withAfterKey false, pos.withAfterKey false = pos⟩
  stop := some ⟨.ofKey seg.lower false, !seg.leftClosed⟩

variable {seg : Segment T K} {p : RingPosition T K}

theorem contains_iff : seg.contains p = true ↔ seg.begin ≤ p ∧ p < seg.stop := by
  unfold contains begin stop
  cases seg.leftClosed <;> cases seg.rightClosed <;>
    simp [ofKey_lt_iff, le_ofKey_iff]

theorem isAfter_iff : seg.isAfter p = true ↔ p < seg.begin := by
  unfold isAfter begin
  cases seg.leftClosed <;> simp [le_ofKey_iff]

theorem contains_toPartitionRange : seg.toPartitionRange.contains p = seg.contains p := by
  simp [PartitionRange.contains, toPartitionRange, contains]

theorem lt_begin_of_contains {pos : RingPosition T K}
    (h : (seg.toPartitionRangeFrom pos).contains p = true) : p < seg.begin := by
  have hupper := (Bool.and_eq_true_iff.mp h).2
  simp only [toPartitionRangeFrom, Option.all_some] at hupper
  unfold begin
  cases hc : seg.leftClosed <;> simp_all [le_ofKey_iff]

end Segment

/-! ## Sets -/

structure PartitionedSstableSet (T K : Type*) [LinearOrder T] [LinearOrder K] where
  unleveled : List (Sstable T K)
  leveled : List (Sstable T K)
  segments : List (Segment T K)
  sorted : segments.Pairwise fun a b => a.stop ≤ b.begin
  nonempty : ∀ seg ∈ segments, seg.begin < seg.stop
  /-- The map has at each position the sstables that were added over it. -/
  represents : ∀ p x, x ∈ leveled ∧ x.Covers p ↔
    ∃ seg ∈ segments, seg.contains p = true ∧ x ∈ seg.sstables

/-- A set of sstables: a partitioned one, or a compound of at least one. -/
inductive SstableSet (T K : Type*) [LinearOrder T] [LinearOrder K] where
  | partitioned (s : PartitionedSstableSet T K)
  | compound (s : PartitionedSstableSet T K) (sets : List (PartitionedSstableSet T K))

namespace SstableSet

def parts : SstableSet T K → List (PartitionedSstableSet T K)
  | partitioned s => [s]
  | compound s sets => s :: sets

end SstableSet

/-! ## Selectors -/

structure Selected (T K : Type*) [LinearOrder T] [LinearOrder K] where
  range : PartitionRange T K
  sstables : List (Sstable T K)
  nextPosition : RingPosition T K

/-- `partitioned_sstable_set::incremental_selector`: the segments from its iterator on. -/
structure PartitionedSelector (T K : Type*) [LinearOrder T] [LinearOrder K] where
  unleveled : List (Sstable T K)
  segments : List (Segment T K)

def nextPosition : List (Segment T K) → RingPosition T K
  | [] => .max
  | seg :: _ => .ofKey seg.lower !seg.leftClosed

/-- The loop of `partitioned_sstable_set::incremental_selector::select`. -/
def selectSegment (unleveled : List (Sstable T K)) (pos : RingPosition T K) :
    List (Segment T K) → List (Segment T K) × Selected T K
  | [] => ([], ⟨⟨none, none⟩, unleveled, .max⟩)
  | seg :: segs =>
    if seg.contains pos then
      (seg :: segs, ⟨seg.toPartitionRange, unleveled ++ seg.sstables, nextPosition segs⟩)
    else if seg.isAfter pos then
      (seg :: segs, ⟨seg.toPartitionRangeFrom pos, unleveled, nextPosition (seg :: segs)⟩)
    else selectSegment unleveled pos segs

def PartitionedSelector.select (σ : PartitionedSelector T K) (pos : RingPosition T K) :
    PartitionedSelector T K × Selected T K :=
  let r := selectSegment σ.unleveled pos σ.segments
  (⟨σ.unleveled, r.1⟩, r.2)

/-- `sstable_set::incremental_selector`: an implementation and its last answer. -/
structure Cached (T K : Type*) [LinearOrder T] [LinearOrder K] (σ : Type*) where
  impl : σ
  current : Option (Selected T K) := none

def Cached.select {σ : Type*} (implSelect : σ → RingPosition T K → σ × Selected T K)
    (c : Cached T K σ) (pos : RingPosition T K) : Cached T K σ × Selected T K :=
  match c.current.filter fun r => r.range.contains pos with
  | some r => (c, r)
  | none =>
    let r := implSelect c.impl pos
    (⟨r.1, some r.2⟩, r.2)

/-- The loop of `compound_sstable_set::incremental_selector::select`. -/
def selectAll (pos : RingPosition T K) : List (Cached T K (PartitionedSelector T K)) →
    List (Cached T K (PartitionedSelector T K)) × List (Sstable T K) × RingPosition T K
  | [] => ([], [], .max)
  | c :: cs =>
    let r := c.select PartitionedSelector.select pos
    let rs := selectAll pos cs
    (r.1 :: rs.1, r.2.sstables ++ rs.2.1, min r.2.nextPosition rs.2.2)

inductive Selector (T K : Type*) [LinearOrder T] [LinearOrder K] where
  | partitioned (σ : PartitionedSelector T K)
  | compound (selectors : List (Cached T K (PartitionedSelector T K)))

def Selector.select (σ : Selector T K) (pos : RingPosition T K) : Selector T K × Selected T K :=
  match σ with
  | partitioned σ =>
    let r := σ.select pos
    (partitioned r.1, r.2)
  | compound selectors =>
    let r := selectAll pos selectors
    -- the range makes the selector around it ask again
    (compound r.1, ⟨⟨some ⟨.min, true⟩, some ⟨.min, true⟩⟩, r.2.1, r.2.2⟩)

def PartitionedSstableSet.makeIncrementalSelector (s : PartitionedSstableSet T K) :
    PartitionedSelector T K :=
  ⟨s.unleveled, s.segments⟩

def PartitionedSstableSet.size (s : PartitionedSstableSet T K) : ℕ :=
  s.unleveled.length + s.leveled.length

def SstableSet.makeSelector : SstableSet T K → Selector T K
  | partitioned s => .partitioned s.makeIncrementalSelector
  | compound s sets =>
    match (s :: sets).filter fun s => 0 < s.size with
    | [] => .partitioned s.makeIncrementalSelector
    | [s'] => .partitioned s'.makeIncrementalSelector
    | _ => .compound ((s :: sets).map fun s => { impl := s.makeIncrementalSelector })

def SstableSet.makeIncrementalSelector (s : SstableSet T K) : Cached T K (Selector T K) where
  impl := s.makeSelector

/-! ## What the answers are worth -/

/-- What an answer at a position is worth for the given sstables. -/
structure Selection (unleveled leveled : List (Sstable T K)) (stops : List (RingPosition T K))
    (pos : RingPosition T K) (r : List (Sstable T K) × RingPosition T K) : Prop where
  /-- It has the unleveled sstables and those that cover the position. -/
  mem_iff : ∀ x, x ∈ r.1 ↔ x ∈ unleveled ∨ x ∈ leveled ∧ x.Covers pos
  /-- No further sstable covers a position before the next one. -/
  ahead : ∀ p x, pos ≤ p → p < r.2 → x ∈ leveled → x.Covers p → x ∈ r.1
  progress : pos < r.2 ∨ r.2 = .max
  next_mem : r.2 ∈ stops

theorem Selection.append {u u' l l' : List (Sstable T K)} {stops stops' : List (RingPosition T K)}
    {all : List (RingPosition T K)} {pos : RingPosition T K}
    {r r' : List (Sstable T K) × RingPosition T K} (h : Selection u l stops pos r)
    (h' : Selection u' l' stops' pos r') (hstops : stops ⊆ all) (hstops' : stops' ⊆ all) :
    Selection (u ++ u') (l ++ l') all pos (r.1 ++ r'.1, min r.2 r'.2) where
  mem_iff x := by
    simp only [mem_append, h.mem_iff, h'.mem_iff, or_and_right]
    exact or_or_or_comm
  ahead p x hp hlt hx hcovers := by
    rcases mem_append.mp hx with hx | hx
    · exact mem_append_left _ (h.ahead p x hp (lt_min_iff.mp hlt).1 hx hcovers)
    · exact mem_append_right _ (h'.ahead p x hp (lt_min_iff.mp hlt).2 hx hcovers)
  progress := by
    rcases h.progress with hlt | hmax
    · rcases h'.progress with hlt' | hmax'
      · exact .inl (lt_min hlt hlt')
      · rw [hmax', min_eq_left (le_max _)]
        exact .inl hlt
    · rw [hmax, min_eq_right (le_max _)]
      exact h'.progress
  next_mem := by
    rcases min_choice r.2 r'.2 with heq | heq
    · rw [heq]
      exact hstops h.next_mem
    · rw [heq]
      exact hstops' h'.next_mem

def Selected.answer (r : Selected T K) : List (Sstable T K) × RingPosition T K :=
  (r.sstables, r.nextPosition)

structure Answers (unleveled leveled : List (Sstable T K)) (stops : List (RingPosition T K))
    {σ : Type*} (select : σ → RingPosition T K → σ × Selected T K)
    (Ready : σ → RingPosition T K → Prop) : Prop where
  mono : ∀ {st p p'}, Ready st p → p ≤ p' → Ready st p'
  ready : ∀ {st p pos}, Ready st p → p ≤ pos → Ready (select st pos).1 pos
  selection : ∀ {st p pos p'}, Ready st p → p ≤ pos → pos ≤ p' →
    (p' = pos ∨ (select st pos).2.range.contains p' = true) →
      Selection unleveled leveled stops p' (select st pos).2.answer

namespace PartitionedSstableSet

variable (s : PartitionedSstableSet T K)

/-- The positions at which the sstables change. -/
def stops : List (RingPosition T K) := .max :: s.segments.map Segment.begin

/-- The selector has skipped only segments before the position. -/
def Ready (σ : PartitionedSelector T K) (p : RingPosition T K) : Prop :=
  σ.unleveled = s.unleveled ∧
    ∃ skipped, s.segments = skipped ++ σ.segments ∧ ∀ seg ∈ skipped, seg.stop ≤ p

variable {s}

variable {skipped segs : List (Segment T K)} {seg : Segment T K} {pos p : RingPosition T K}

theorem begin_le_begin {seg' : Segment T K} (h : s.segments = skipped ++ seg :: segs)
    (hseg : seg' ∈ seg :: segs) : seg.begin ≤ seg'.begin := by
  rcases mem_cons.mp hseg with rfl | hseg
  · exact le_rfl
  · have hsorted := s.sorted
    rw [h, pairwise_append, pairwise_cons] at hsorted
    have hmem : seg ∈ s.segments := h ▸ mem_append_right _ mem_cons_self
    exact (s.nonempty seg hmem).le.trans (hsorted.2.1.1 seg' hseg)

theorem stop_le_nextPosition (h : s.segments = skipped ++ seg :: segs) :
    seg.stop ≤ nextPosition segs := by
  cases segs with
  | nil => exact le_max _
  | cons seg' segs =>
    have hsorted := s.sorted
    rw [h, pairwise_append, pairwise_cons] at hsorted
    exact hsorted.2.1.1 seg' mem_cons_self

section

variable (h : s.segments = skipped ++ segs)

include h

theorem nextPosition_le (hseg : seg ∈ segs) : nextPosition segs ≤ seg.begin := by
  cases segs with
  | nil => cases hseg
  | cons seg' segs => exact begin_le_begin h hseg

theorem nextPosition_mem : nextPosition segs ∈ s.stops := by
  cases segs with
  | nil => exact mem_cons_self
  | cons seg segs =>
    refine mem_cons_of_mem _ (mem_map.mpr ⟨seg, ?_, rfl⟩)
    exact h ▸ mem_append_right _ mem_cons_self

theorem exists_segment (hskipped : ∀ seg ∈ skipped, seg.stop ≤ pos) (hp : pos ≤ p)
    {x : Sstable T K} (hx : x ∈ s.leveled ∧ x.Covers p) :
    ∃ seg ∈ segs, seg.contains p = true ∧ x ∈ seg.sstables := by
  obtain ⟨seg, hseg, hcontains, hmem⟩ := (s.represents p x).mp hx
  rw [h, mem_append] at hseg
  rcases hseg with hseg | hseg
  · have hlt := (Segment.contains_iff.mp hcontains).2
    exact absurd hlt (not_lt.mpr ((hskipped seg hseg).trans hp))
  · exact ⟨seg, hseg, hcontains, hmem⟩

theorem selection_before (hskipped : ∀ seg ∈ skipped, seg.stop ≤ pos) (hp : pos ≤ p)
    (hlt : p < nextPosition segs ∨ segs = []) :
    Selection s.unleveled s.leveled s.stops p (s.unleveled, nextPosition segs) := by
  have hnone : ∀ p' x, pos ≤ p' → (p' < nextPosition segs ∨ segs = []) →
      ¬(x ∈ s.leveled ∧ x.Covers p') := by
    intro p' x hp' hlt' hx
    obtain ⟨seg, hseg, hcontains, -⟩ := exists_segment h hskipped hp' hx
    rcases hlt' with hlt' | rfl
    · exact (nextPosition_le h hseg).not_gt ((Segment.contains_iff.mp hcontains).1.trans_lt hlt')
    · cases hseg
  refine ⟨fun x => ⟨.inl, fun hx => hx.resolve_right (hnone p x hp hlt)⟩, ?_, ?_,
    nextPosition_mem h⟩
  · intro p' x hp' hlt' hx hcovers
    exact absurd ⟨hx, hcovers⟩ (hnone p' x (hp.trans hp') (.inl hlt'))
  · rcases hlt with hlt | rfl
    · exact .inl hlt
    · exact .inr rfl

end

theorem selection_in (h : s.segments = skipped ++ seg :: segs)
    (hskipped : ∀ seg ∈ skipped, seg.stop ≤ pos) (hp : pos ≤ p) (hin : seg.contains p = true) :
    Selection s.unleveled s.leveled s.stops p (s.unleveled ++ seg.sstables, nextPosition segs) := by
  have h' : s.segments = (skipped ++ [seg]) ++ segs := by simp [h]
  have hlt := (Segment.contains_iff.mp hin).2.trans_le (stop_le_nextPosition h)
  have hahead : ∀ p' x, p ≤ p' → p' < nextPosition segs → x ∈ s.leveled → x.Covers p' →
      x ∈ seg.sstables := by
    intro p' x hp' hlt' hx hcovers
    obtain ⟨seg', hseg', hcontains, hmem⟩ :=
      exists_segment h hskipped (hp.trans hp') ⟨hx, hcovers⟩
    rcases mem_cons.mp hseg' with rfl | hseg'
    · exact hmem
    · have hbegin := (Segment.contains_iff.mp hcontains).1
      exact absurd (hbegin.trans_lt hlt') (nextPosition_le h' hseg').not_gt
  refine ⟨fun x => ?_, fun p' x hp' hlt' hx hc =>
    mem_append_right _ (hahead p' x hp' hlt' hx hc), .inl hlt, nextPosition_mem h'⟩
  rw [mem_append]
  refine or_congr_right ⟨fun hx => ?_, fun hx => hahead p x le_rfl hlt hx.1 hx.2⟩
  exact (s.represents p x).mpr ⟨seg, h ▸ mem_append_right _ mem_cons_self, hin, hx⟩

theorem selectSegment_spec (h : s.segments = skipped ++ segs)
    (hskipped : ∀ seg ∈ skipped, seg.stop ≤ pos) :
    s.Ready ⟨s.unleveled, (selectSegment s.unleveled pos segs).1⟩ pos ∧
      ∀ p, pos ≤ p → (p = pos ∨ (selectSegment s.unleveled pos segs).2.range.contains p = true) →
          Selection s.unleveled s.leveled s.stops p
            (selectSegment s.unleveled pos segs).2.answer := by
  induction segs generalizing skipped with
  | nil => exact ⟨⟨rfl, skipped, h, hskipped⟩, fun p hp _ =>
      selection_before h hskipped hp (.inr rfl)⟩
  | cons seg segs ih =>
    unfold selectSegment
    split
    · next hcontains =>
      refine ⟨⟨rfl, skipped, h, hskipped⟩, fun p hp hin => selection_in h hskipped hp ?_⟩
      rcases hin with rfl | hin
      · exact hcontains
      · rwa [Segment.contains_toPartitionRange] at hin
    · next hcontains =>
      split
      · next hafter =>
        refine ⟨⟨rfl, skipped, h, hskipped⟩, fun p hp hin =>
          selection_before h hskipped hp (.inl ?_)⟩
        rcases hin with rfl | hin
        · exact Segment.isAfter_iff.mp hafter
        · exact Segment.lt_begin_of_contains hin
      · next hafter =>
        have hbegin : seg.begin ≤ pos := not_lt.mp fun hlt => hafter (Segment.isAfter_iff.mpr hlt)
        have hstop : seg.stop ≤ pos :=
          not_lt.mp fun hlt => hcontains (Segment.contains_iff.mpr ⟨hbegin, hlt⟩)
        have h' : s.segments = (skipped ++ [seg]) ++ segs := by simp [h]
        refine ih h' fun seg' hseg' => ?_
        rcases mem_append.mp hseg' with hseg' | hseg'
        · exact hskipped seg' hseg'
        · rwa [mem_singleton.mp hseg']

theorem answers (s : PartitionedSstableSet T K) :
    Answers s.unleveled s.leveled s.stops PartitionedSelector.select s.Ready where
  mono h hp := ⟨h.1, h.2.choose, h.2.choose_spec.1, fun seg hseg =>
    (h.2.choose_spec.2 seg hseg).trans hp⟩
  ready := by
    rintro ⟨u, segs⟩ p pos ⟨rfl, skipped, h, hskipped⟩ hp
    exact (selectSegment_spec h fun seg hseg => (hskipped seg hseg).trans hp).1
  selection := by
    rintro ⟨u, segs⟩ p pos p' ⟨rfl, skipped, h, hskipped⟩ hp hp' hin
    exact (selectSegment_spec h fun seg hseg => (hskipped seg hseg).trans hp).2 p' hp' hin

theorem ready_makeIncrementalSelector (p : RingPosition T K) :
    s.Ready s.makeIncrementalSelector p := ⟨rfl, [], rfl, by simp⟩

end PartitionedSstableSet

namespace Cached

variable {σ : Type*} {unleveled leveled : List (Sstable T K)} {stops : List (RingPosition T K)}
  {select : σ → RingPosition T K → σ × Selected T K} {Ready : σ → RingPosition T K → Prop}

structure ReadyFrom (unleveled leveled : List (Sstable T K)) (stops : List (RingPosition T K))
    (Ready : σ → RingPosition T K → Prop) (c : Cached T K σ) (p : RingPosition T K) : Prop where
  impl : Ready c.impl p
  current : ∀ r ∈ c.current, ∀ p', p ≤ p' → r.range.contains p' = true →
    Selection unleveled leveled stops p' r.answer

section

variable (h : Answers unleveled leveled stops select Ready) {c : Cached T K σ}

include h

theorem ReadyFrom.mono
    {p p' : RingPosition T K} (hc : c.ReadyFrom unleveled leveled stops Ready p) (hp : p ≤ p') :
    c.ReadyFrom unleveled leveled stops Ready p' where
  impl := h.mono hc.impl hp
  current r hr q hq := hc.current r hr q (hp.trans hq)

theorem select_spec
    {p pos : RingPosition T K} (hc : c.ReadyFrom unleveled leveled stops Ready p) (hp : p ≤ pos) :
    (c.select select pos).1.ReadyFrom unleveled leveled stops Ready pos ∧
      Selection unleveled leveled stops pos (c.select select pos).2.answer := by
  unfold Cached.select
  split
  · next r hr =>
    obtain ⟨hcurrent, hcontains⟩ := Option.filter_eq_some_iff.mp hr
    exact ⟨hc.mono h hp, hc.current r hcurrent pos hp hcontains⟩
  · refine ⟨⟨h.ready hc.impl hp, fun r hr p' hp' hin => ?_⟩,
      h.selection hc.impl hp le_rfl (.inl rfl)⟩
    cases hr
    exact h.selection hc.impl hp hp' (.inr hin)

end

end Cached

/-! ## Sets of sets -/

namespace PartitionedSstableSet

def unleveledOf (sets : List (PartitionedSstableSet T K)) : List (Sstable T K) :=
  sets.flatMap unleveled

def leveledOf (sets : List (PartitionedSstableSet T K)) : List (Sstable T K) :=
  sets.flatMap leveled

/-- The positions at which the sstables of several sets change. -/
def stopsOf (sets : List (PartitionedSstableSet T K)) : List (RingPosition T K) :=
  .max :: sets.flatMap stops

def AllReady (p : RingPosition T K) : List (PartitionedSstableSet T K) →
    List (Cached T K (PartitionedSelector T K)) → Prop :=
  Forall₂ fun s c => c.ReadyFrom s.unleveled s.leveled s.stops s.Ready p

variable {sets : List (PartitionedSstableSet T K)}

theorem selectAll_spec {cs : List (Cached T K (PartitionedSelector T K))} {p pos : RingPosition T K}
    (h : AllReady p sets cs) (hp : p ≤ pos) :
    AllReady pos sets (selectAll pos cs).1 ∧
      Selection (unleveledOf sets) (leveledOf sets) (stopsOf sets) pos (selectAll pos cs).2 := by
  induction h with
  | nil => exact ⟨.nil, ⟨fun x => by simp [selectAll, unleveledOf, leveledOf],
      fun p x _ _ hx => (not_mem_nil hx).elim, .inr rfl, mem_cons_self⟩⟩
  | @cons s c sets cs hc _ ih =>
    obtain ⟨hready, hsel⟩ := Cached.select_spec s.answers hc hp
    obtain ⟨hready', hsel'⟩ := ih
    refine ⟨.cons hready hready', hsel.append hsel' ?_ ?_⟩
    · exact subset_cons_of_subset _ (subset_append_left _ _)
    · exact cons_subset_cons _ (subset_append_right _ _)

theorem selection_of_nonempty {s : PartitionedSstableSet T K} (hs : s ∈ sets)
    (hempty : ∀ s' ∈ sets, 0 < s'.size → s' = s) {pos : RingPosition T K}
    {r : List (Sstable T K) × RingPosition T K}
    (h : Selection s.unleveled s.leveled s.stops pos r) :
    Selection (unleveledOf sets) (leveledOf sets) (stopsOf sets) pos r := by
  have hsize : ∀ {s' : PartitionedSstableSet T K} {x : Sstable T K},
      x ∈ s'.unleveled ∨ x ∈ s'.leveled → 0 < s'.size := by
    rintro s' x (hx | hx)
    · exact Nat.add_pos_left (length_pos_of_mem hx) _
    · exact Nat.add_pos_right _ (length_pos_of_mem hx)
  have hunleveled : ∀ x, x ∈ unleveledOf sets ↔ x ∈ s.unleveled := by
    refine fun x => ⟨fun hx => ?_, fun hx => mem_flatMap.mpr ⟨s, hs, hx⟩⟩
    obtain ⟨s', hs', hx⟩ := mem_flatMap.mp hx
    exact hempty s' hs' (hsize (.inl hx)) ▸ hx
  have hleveled : ∀ x, x ∈ leveledOf sets ↔ x ∈ s.leveled := by
    refine fun x => ⟨fun hx => ?_, fun hx => mem_flatMap.mpr ⟨s, hs, hx⟩⟩
    obtain ⟨s', hs', hx⟩ := mem_flatMap.mp hx
    exact hempty s' hs' (hsize (.inr hx)) ▸ hx
  refine ⟨fun x => ?_, fun p x hp hlt hx hc => h.ahead p x hp hlt ((hleveled x).mp hx) hc,
    h.progress, ?_⟩
  · rw [hunleveled, hleveled]
    exact h.mem_iff x
  · exact mem_cons_of_mem _ (mem_flatMap.mpr ⟨s, hs, h.next_mem⟩)

end PartitionedSstableSet

namespace SstableSet

open PartitionedSstableSet

variable (s : SstableSet T K)

def unleveled : List (Sstable T K) := unleveledOf s.parts

def leveled : List (Sstable T K) := leveledOf s.parts

def stops : List (RingPosition T K) := stopsOf s.parts

/-- The implementation can be asked from a position on. -/
def Ready (σ : Selector T K) (p : RingPosition T K) : Prop :=
  match σ with
  | .partitioned σ => ∃ s' ∈ s.parts, (∀ s'' ∈ s.parts, 0 < s''.size → s'' = s') ∧ s'.Ready σ p
  | .compound cs => AllReady p s.parts cs

theorem answers : Answers s.unleveled s.leveled s.stops Selector.select s.Ready where
  mono {σ p p'} h hp := by
    cases σ with
    | partitioned σ =>
      obtain ⟨s', hs', hempty, h⟩ := h
      exact ⟨s', hs', hempty, s'.answers.mono h hp⟩
    | compound cs => exact Forall₂.imp (fun s' _ hc => hc.mono s'.answers hp) h
  ready {σ p pos} h hp := by
    cases σ with
    | partitioned σ =>
      obtain ⟨s', hs', hempty, h⟩ := h
      exact ⟨s', hs', hempty, s'.answers.ready h hp⟩
    | compound cs => exact (selectAll_spec h hp).1
  selection {σ p pos p'} h hp hp' hin := by
    cases σ with
    | partitioned σ =>
      obtain ⟨s', hs', hempty, h⟩ := h
      exact selection_of_nonempty hs' hempty (s'.answers.selection h hp hp' hin)
    | compound cs =>
      have heq : p' = pos := by
        refine hin.elim id fun hin => ?_
        have hle : p' ≤ RingPosition.min := by
          simpa [Selector.select, PartitionRange.contains] using (Bool.and_eq_true_iff.mp hin).2
        exact (hle.trans (min_le _)).antisymm hp'
      subst heq
      exact (selectAll_spec h hp).2

theorem ready_makeSelector (p : RingPosition T K) : s.Ready s.makeSelector p := by
  cases s with
  | partitioned s =>
    refine ⟨s, mem_singleton_self s, fun s' hs' _ => mem_singleton.mp hs', ?_⟩
    exact ready_makeIncrementalSelector p
  | compound s sets =>
    rw [makeSelector]
    generalize hfilter : (s :: sets).filter (fun s => 0 < s.size) = nonempty
    match nonempty with
    | [] =>
      refine ⟨s, mem_cons_self, fun s' hs' hsize => ?_, ready_makeIncrementalSelector p⟩
      exact absurd (decide_eq_true hsize) (filter_eq_nil_iff.mp hfilter s' hs')
    | [s'] =>
      have hmem : ∀ s'', s'' ∈ (s :: sets).filter (fun s => 0 < s.size) ↔ s'' = s' := by
        rw [hfilter]
        exact fun s'' => mem_singleton
      refine ⟨s', (mem_filter.mp ((hmem s').mpr rfl)).1, fun s'' hs'' hsize => ?_,
        ready_makeIncrementalSelector p⟩
      exact (hmem s'').mp (mem_filter.mpr ⟨hs'', decide_eq_true hsize⟩)
    | _ :: _ :: _ =>
      refine forall₂_map_right_iff.mpr (forall₂_same.mpr fun s' _ => ⟨?_, ?_⟩)
      · exact ready_makeIncrementalSelector p
      · rintro r ⟨⟩

/-- The public selector of a set can be asked from a position on. -/
def ReadyFrom (c : Cached T K (Selector T K)) (p : RingPosition T K) : Prop :=
  c.ReadyFrom s.unleveled s.leveled s.stops s.Ready p

theorem readyFrom_makeIncrementalSelector (p : RingPosition T K) :
    s.ReadyFrom s.makeIncrementalSelector p :=
  ⟨s.ready_makeSelector p, by rintro r ⟨⟩⟩

theorem select_spec {c : Cached T K (Selector T K)} {p pos : RingPosition T K}
    (hc : s.ReadyFrom c p) (hp : p ≤ pos) :
    s.ReadyFrom (c.select Selector.select pos).1 pos ∧
      Selection s.unleveled s.leveled s.stops pos (c.select Selector.select pos).2.answer :=
  Cached.select_spec s.answers hc hp

end SstableSet

end Scylla.Sstables
