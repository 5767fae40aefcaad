import Scylla.Sstables.Selector

/-!
# Creating readers on demand

`incremental_reader_selector` asks the selector of a set at its position, creates readers for the
sstables it has not created one for yet, and moves to the next position, until there are new readers
or the position is past what was asked for. `Behind` is what holds of it at any time: every sstable
that covers a position behind it has a reader.
-/

namespace Scylla.Sstables

open List
open RingPosition

variable {T K : Type*} [LinearOrder T] [LinearOrder K]

structure ReaderSelector (T K : Type*) [LinearOrder T] [LinearOrder K] where
  pr : PartitionRange T K
  sstables : SstableSet T K
  selectorPosition : RingPosition T K
  /-- The selector; it is let go of at the end of the ring. -/
  selector : Option (Cached T K (Selector T K))
  readSstableGens : List ℕ
  /-- The sstables that `create_reader` was called for. -/
  opened : List (Sstable T K)

/-- The filter over the selected sstables, which remembers the generations it lets pass. -/
def takeNew (gens : List ℕ) : List (Sstable T K) → List ℕ × List (Sstable T K)
  | [] => (gens, [])
  | x :: xs =>
    if x.generation ∈ gens then takeNew gens xs
    else
      let r := takeNew (x.generation :: gens) xs
      (r.1, x :: r.2)

namespace ReaderSelector

def create (sstables : SstableSet T K) (pr : PartitionRange T K) : ReaderSelector T K where
  pr
  sstables
  selectorPosition := match pr.start with
    | some b => b.value.withAfterKey false
    | none => .min
  selector := some sstables.makeIncrementalSelector
  readSstableGens := []
  opened := []

def hasNewReaders (st : ReaderSelector T K) (pos : Option (RingPosition T K)) : Bool :=
  !st.selectorPosition.isMax && pos.all fun p => st.selectorPosition ≤ p

def selectNext (st : ReaderSelector T K) (c : Cached T K (Selector T K)) :
    ReaderSelector T K × List (Sstable T K) :=
  let r := c.select Selector.select st.selectorPosition
  let n := takeNew st.readSstableGens r.2.sstables
  ({ st with selectorPosition := r.2.nextPosition, selector := some r.1, readSstableGens := n.1,
             opened := st.opened ++ n.2 }, n.2)

/-- The loop of `create_new_readers`, which cannot go on without a selector. -/
def createLoop (pos : Option (RingPosition T K)) :
    ℕ → ReaderSelector T K → Option (ReaderSelector T K × List (Sstable T K))
  | 0, _ => none
  | fuel + 1, st => st.selector.bind fun c =>
    let r := st.selectNext c
    if r.1.hasNewReaders pos && r.2.isEmpty then createLoop pos fuel r.1 else some r

def createNewReaders (st : ReaderSelector T K) (pos : Option (RingPosition T K)) :
    Option (ReaderSelector T K × List (Sstable T K)) :=
  (createLoop pos (st.sstables.stops.length + 1) st).map fun r =>
    (if r.1.selectorPosition.isMax then { r.1 with selector := none } else r.1, r.2)

def fastForwardTo (st : ReaderSelector T K) (pr : PartitionRange T K) :
    Option (ReaderSelector T K × List (Sstable T K)) :=
  let st := { st with pr }
  let pos := pr.startPosition
  if st.selectorPosition ≤ pos then st.createNewReaders (some pos) else some (st, [])

end ReaderSelector

/-! ## What is behind the position has a reader -/

def SstableSet.all (s : SstableSet T K) : List (Sstable T K) := s.unleveled ++ s.leveled

theorem takeNew_spec (gens : List ℕ) (xs : List (Sstable T K)) :
    (∀ g, g ∈ (takeNew gens xs).1 ↔ g ∈ gens ∨ ∃ x ∈ xs, x.generation = g) ∧
      (∀ g, g ∈ (takeNew gens xs).1 ↔ g ∈ gens ∨ ∃ x ∈ (takeNew gens xs).2, x.generation = g) ∧
      ((takeNew gens xs).2.map Sstable.generation).Nodup ∧
      ∀ x ∈ (takeNew gens xs).2, x ∈ xs ∧ x.generation ∉ gens := by
  induction xs generalizing gens with
  | nil => simp [takeNew]
  | cons x xs ih =>
    unfold takeNew
    split
    · next hmem =>
      obtain ⟨hall, hnew, hnodup, hsub⟩ := ih gens
      refine ⟨fun g => ?_, hnew, hnodup, fun y hy => ⟨mem_cons_of_mem _ (hsub y hy).1,
        (hsub y hy).2⟩⟩
      rw [hall g, exists_mem_cons_iff]
      refine or_congr_right' fun hg => (or_iff_right ?_).symm
      rintro rfl
      exact hg hmem
    · next hmem =>
      obtain ⟨hall, hnew, hnodup, hsub⟩ := ih (x.generation :: gens)
      refine ⟨fun g => ?_, fun g => ?_, ?_, fun y hy => ?_⟩
      · rw [hall g, exists_mem_cons_iff, mem_cons, or_assoc, or_left_comm, eq_comm]
      · rw [hnew g, exists_mem_cons_iff, mem_cons, or_assoc, or_left_comm, eq_comm]
      · refine nodup_cons.mpr ⟨fun h => ?_, hnodup⟩
        obtain ⟨y, hy, heq⟩ := mem_map.mp h
        exact (hsub y hy).2 (heq ▸ mem_cons_self)
      · rcases mem_cons.mp hy with rfl | hy
        · exact ⟨mem_cons_self, hmem⟩
        · exact ⟨mem_cons_of_mem _ (hsub y hy).1, fun h =>
            (hsub y hy).2 (mem_cons_of_mem _ h)⟩

theorem SstableSet.eq_max_of_mem_stops {s : SstableSet T K} {p : RingPosition T K}
    (hp : p ∈ s.stops) (hmax : p.isMax = true) : p = .max := by
  have hstops : ∀ s' : PartitionedSstableSet T K, p ∈ s'.stops → p = .max := by
    intro s' hp'
    rcases mem_cons.mp hp' with rfl | hp'
    · rfl
    · obtain ⟨seg, -, rfl⟩ := mem_map.mp hp'
      exact absurd (ofKey_lt_of_isMax hmax _) (lt_irrefl _)
  rcases mem_cons.mp hp with rfl | hp
  · rfl
  · obtain ⟨s', -, hp'⟩ := mem_flatMap.mp hp
    exact hstops s' hp'

/-- Every sstable that covers a position from `start` up to the selector's has one reader. -/
structure Behind (s : SstableSet T K) (start : RingPosition T K) (st : ReaderSelector T K) :
    Prop where
  sstables : st.sstables = s
  start_le : start ≤ st.selectorPosition
  ready : ∀ c ∈ st.selector, s.ReadyFrom c st.selectorPosition
  selector : st.selector = none → st.selectorPosition = .max
  gens : ∀ g, g ∈ st.readSstableGens ↔ ∃ x ∈ st.opened, x.generation = g
  nodup : (st.opened.map Sstable.generation).Nodup
  opened : ∀ x ∈ st.opened, x ∈ s.all
  covered : ∀ x ∈ s.all, ∀ p, start ≤ p → p < st.selectorPosition → x.Covers p → x ∈ st.opened

def SstableSet.GenerationsUnique (s : SstableSet T K) : Prop :=
  ∀ x ∈ s.all, ∀ y ∈ s.all, x.generation = y.generation → x = y

theorem length_filter_lt {α : Type*} [LinearOrder α] {l : List α} {a b : α} (hab : a < b)
    (hb : b ∈ l) :
    (l.filter fun p => b < p).length < (l.filter fun p => a < p).length := by
  have hsub : (l.filter fun p => b < p).Sublist (l.filter fun p => a < p) :=
    monotone_filter_right l fun p hp => decide_eq_true (hab.trans (of_decide_eq_true hp))
  refine lt_of_le_of_ne hsub.length_le fun heq => ?_
  have hmem : b ∈ l.filter fun p => a < p := mem_filter.mpr ⟨hb, decide_eq_true hab⟩
  rw [← hsub.eq_of_length heq] at hmem
  exact lt_irrefl b (of_decide_eq_true (mem_filter.mp hmem).2)

namespace ReaderSelector

variable {s : SstableSet T K} {start : RingPosition T K} {st : ReaderSelector T K}

theorem selectNext_spec (hs : s.GenerationsUnique) (h : Behind s start st)
    {c : Cached T K (Selector T K)} (hc : st.selector = some c) :
    Behind s start (st.selectNext c).1 ∧
      (st.selectorPosition < (st.selectNext c).1.selectorPosition ∨
        (st.selectNext c).1.selectorPosition = .max) ∧
      (st.selectNext c).1.selectorPosition ∈ s.stops := by
  obtain ⟨hready, hsel⟩ := s.select_spec (h.ready c hc) le_rfl
  obtain ⟨hall, hnew, hnodup, hsub⟩ := takeNew_spec st.readSstableGens
    (c.select Selector.select st.selectorPosition).2.sstables
  have hle : st.selectorPosition ≤ (st.selectNext c).1.selectorPosition := by
    rcases hsel.progress with hlt | hmax
    · exact hlt.le
    · exact (le_max _).trans_eq hmax.symm
  have hselected : ∀ x ∈ (c.select Selector.select st.selectorPosition).2.sstables, x ∈ s.all := by
    intro x hx
    rcases (hsel.mem_iff x).mp hx with hx | hx
    · exact mem_append_left _ hx
    · exact mem_append_right _ hx.1
  have hopened : ∀ x ∈ (st.selectNext c).1.opened, x ∈ s.all := by
    intro x hx
    rcases mem_append.mp hx with hx | hx
    · exact h.opened x hx
    · exact hselected x (hsub x hx).1
  have hgens : ∀ g, g ∈ (st.selectNext c).1.readSstableGens ↔
      ∃ x ∈ (st.selectNext c).1.opened, x.generation = g := by
    intro g
    refine (hnew g).trans ?_
    simp only [h.gens, selectNext, mem_append, or_and_right, exists_or]
  -- an sstable that is selected has a reader now
  have hread : ∀ x ∈ (c.select Selector.select st.selectorPosition).2.sstables,
      x ∈ (st.selectNext c).1.opened := by
    intro x hx
    obtain ⟨y, hy, heq⟩ := (hgens x.generation).mp ((hall _).mpr (.inr ⟨x, hx, rfl⟩))
    rwa [← hs y (hopened y hy) x (hselected x hx) heq]
  refine ⟨⟨h.sstables, h.start_le.trans hle, ?_, nofun, hgens, ?_, hopened, ?_⟩, hsel.progress,
    hsel.next_mem⟩
  · rintro c' hc'
    cases hc'
    exact hready.mono s.answers hle
  · change ((st.opened ++ _).map Sstable.generation).Nodup
    rw [map_append]
    refine h.nodup.append hnodup fun g hg hg' => ?_
    obtain ⟨x, hx, rfl⟩ := mem_map.mp hg'
    obtain ⟨y, hy, heq⟩ := mem_map.mp hg
    exact (hsub x hx).2 ((h.gens _).mpr ⟨y, hy, heq⟩)
  · intro x hx p hstart hlt hcovers
    by_cases hp : p < st.selectorPosition
    · exact mem_append_left _ (h.covered x hx p hstart hp hcovers)
    · refine hread x ?_
      rcases mem_append.mp hx with hx | hx
      · exact (hsel.mem_iff x).mpr (.inl hx)
      · exact hsel.ahead p x (not_lt.mp hp) hlt hx hcovers

structure Created (s : SstableSet T K) (start : RingPosition T K) (pos : Option (RingPosition T K))
    (st : ReaderSelector T K) (r : ReaderSelector T K × List (Sstable T K)) : Prop where
  behind : Behind s start r.1
  opened : r.1.opened = st.opened ++ r.2
  pr : r.1.pr = st.pr
  progress : st.selectorPosition < r.1.selectorPosition ∨ r.1.selectorPosition = .max
  stop : r.1.selectorPosition ∈ s.stops
  /-- Without new readers there are none up to the position asked for. -/
  done : r.2 = [] → r.1.hasNewReaders pos = false

theorem createLoop_spec (hs : s.GenerationsUnique) {pos : Option (RingPosition T K)} {fuel : ℕ}
    (h : Behind s start st) (hc : st.selector ≠ none)
    (hfuel : (s.stops.filter fun p => st.selectorPosition < p).length < fuel) :
    ∃ r, createLoop pos fuel st = some r ∧ Created s start pos st r := by
  induction fuel generalizing st with
  | zero => cases hfuel
  | succ fuel ih =>
    obtain ⟨c, hc⟩ := Option.ne_none_iff_exists'.mp hc
    obtain ⟨hbehind, hprogress, hstop⟩ := selectNext_spec hs h hc
    have hstep : createLoop pos (fuel + 1) st =
        if (st.selectNext c).1.hasNewReaders pos && (st.selectNext c).2.isEmpty
        then createLoop pos fuel (st.selectNext c).1 else some (st.selectNext c) := by
      rw [createLoop, hc]
      rfl
    rw [hstep]
    cases hagain : (st.selectNext c).1.hasNewReaders pos && (st.selectNext c).2.isEmpty with
    | true =>
      obtain ⟨hnew, hnone⟩ := Bool.and_eq_true_iff.mp hagain
      have hmax := (Bool.not_eq_true' _).mp (Bool.and_eq_true_iff.mp hnew).1
      have hlt : st.selectorPosition < (st.selectNext c).1.selectorPosition := by
        refine hprogress.resolve_right fun hm => ?_
        rw [hm, isMax_max] at hmax
        cases hmax
      obtain ⟨r, hr, hcreated⟩ := ih hbehind (Option.some_ne_none _)
        ((length_filter_lt hlt hstop).trans_le (Nat.lt_succ_iff.mp hfuel))
      refine ⟨r, hr, hcreated.behind, ?_, hcreated.pr, ?_, hcreated.stop, hcreated.done⟩
      · rw [hcreated.opened]
        change (st.opened ++ (st.selectNext c).2) ++ r.2 = _
        rw [List.isEmpty_iff.mp hnone, append_nil]
      · exact hcreated.progress.imp_left hlt.trans
    | false =>
      refine ⟨_, rfl, hbehind, rfl, rfl, hprogress, hstop, fun hnone => ?_⟩
      rwa [hnone, isEmpty_nil, Bool.and_true] at hagain

theorem createNewReaders_spec (hs : s.GenerationsUnique) (pos : Option (RingPosition T K))
    (h : Behind s start st) (hc : st.selector ≠ none) :
    ∃ r, st.createNewReaders pos = some r ∧ Created s start pos st r := by
  have hfuel : (s.stops.filter fun p => st.selectorPosition < p).length <
      st.sstables.stops.length + 1 := by
    rw [h.sstables]
    exact Nat.lt_succ_of_le (length_filter_le _ _)
  obtain ⟨r, hr, hcreated⟩ := createLoop_spec hs h hc hfuel
  rw [createNewReaders, hr, Option.map_some]
  refine ⟨_, rfl, ?_⟩
  cases hmax : r.1.selectorPosition.isMax with
  | false => exact hcreated
  | true =>
    have hend := SstableSet.eq_max_of_mem_stops hcreated.stop hmax
    -- at the end of the ring the selector is not needed
    have hbehind := hcreated.behind
    exact ⟨⟨hbehind.sstables, hbehind.start_le, (fun _ hc => nomatch hc), fun _ => hend,
      hbehind.gens, hbehind.nodup, hbehind.opened, hbehind.covered⟩, hcreated.opened, hcreated.pr,
      hcreated.progress, hcreated.stop, hcreated.done⟩

/-- What a call that fast forwards has done. -/
structure Forwarded (s : SstableSet T K) (start : RingPosition T K) (pr : PartitionRange T K)
    (st : ReaderSelector T K) (r : ReaderSelector T K × List (Sstable T K)) : Prop where
  behind : Behind s start r.1
  opened : r.1.opened = st.opened ++ r.2
  pr_eq : r.1.pr = pr
  progress : st.selectorPosition ≤ r.1.selectorPosition

theorem fastForwardTo_spec (hs : s.GenerationsUnique) {pr : PartitionRange T K}
    (h : Behind s start st) (hpr : st.selector = none → pr.startPosition ≠ .max) :
    ∃ r, st.fastForwardTo pr = some r ∧ Forwarded s start pr st r := by
  have hst : Behind s start { st with pr } := { h with }
  by_cases hle : st.selectorPosition ≤ pr.startPosition
  · have hc : st.selector ≠ none := by
      intro hnone
      exact hpr hnone ((le_max _).antisymm (h.selector hnone ▸ hle))
    obtain ⟨r, hr, hcreated⟩ := createNewReaders_spec hs (some pr.startPosition) hst hc
    refine ⟨r, (if_pos hle).trans hr, hcreated.behind, hcreated.opened, hcreated.pr, ?_⟩
    rcases hcreated.progress with hlt | hmax
    · exact hlt.le
    · exact (le_max _).trans_eq hmax.symm
  · exact ⟨_, if_neg hle, hst, (append_nil _).symm, rfl, le_rfl⟩

theorem behind_create (s : SstableSet T K) (pr : PartitionRange T K) :
    Behind s (create s pr).selectorPosition (create s pr) where
  sstables := rfl
  start_le := le_rfl
  ready := by
    rintro c hc
    cases hc
    exact s.readyFrom_makeIncrementalSelector _
  selector := nofun
  gens g := by simp [create]
  nodup := nodup_nil
  opened x hx := (not_mem_nil hx).elim
  covered _ _ _ hstart hlt := absurd hlt (not_lt.mpr hstart)

end ReaderSelector

end Scylla.Sstables
