import Scylla.Sstables.Merger

/-!
# No sstable is missed

Whenever the merger is about to turn to another partition, its selector has no more readers up to
that partition. So every sstable that may have keys of the range up to a partition has been opened
before the partition is returned, and at the end of the range all sstables of the range have been.
-/

namespace Scylla.Sstables

open Option
open RingPosition
open List
open Bool

variable {T K Q : Type*} [LinearOrder T] [LinearOrder K] [LinearOrder Q]

namespace Merger

variable {s : SstableSet T K} {start : RingPosition T K} {m m' : Merger T K Q}

/-- What holds of the reader selector and the readers at any time. -/
structure Core (s : SstableSet T K) (start : RingPosition T K) (m : Merger T K Q) : Prop where
  behind : Behind s start m.selector
  started : start < m.selector.selectorPosition ∨ m.selector.selectorPosition.isMax = true
  start_le : start ≤ m.selector.pr.startPosition
  readers : m.fwdMr = true → m.allReaders = [] → m.selector.selectorPosition.isMax = true
  galloping : m.inGallopMode = true → m.gallopingReader ≠ none

/-- The merger would turn to another partition in its next step. -/
structure AtBoundary (m : Merger T K Q) : Prop where
  next : m.next = []
  single : m.singleReader = none
  gallop : m.inGallopMode = false
  fragments : m.fragmentHeap = []
  halted : m.haltedReaders = []

/-- The invariant: between partitions there are no new readers up to the next one. -/
structure Inv (s : SstableSet T K) (start : RingPosition T K) (m : Merger T K Q) : Prop
    extends Core s start m where
  settled : m.AtBoundary → m.selector.hasNewReaders m.nextPartitionPosition = false

variable {st : ReaderSelector T K}

theorem hasNewReaders_eq_false_of_isMax (h : st.selectorPosition.isMax = true)
    (pos : Option (RingPosition T K)) : st.hasNewReaders pos = false := by
  rw [ReaderSelector.hasNewReaders, h, Bool.not_true, Bool.false_and]

section

omit [LinearOrder Q]

theorem maybeAddReaders_spec (hs : s.GenerationsUnique) (h : Behind s start m.selector)
    (pos : Option (RingPosition T K)) :
    ∃ st new, m.maybeAddReaders pos = some ({ m with selector := st }.addReaders new) ∧
      Behind s start st ∧ st.pr = m.selector.pr ∧
      (m.selector.hasNewReaders pos = true → m.selector.selectorPosition < st.selectorPosition ∨
        st.selectorPosition.isMax = true) ∧
      m.selector.selectorPosition ≤ st.selectorPosition ∧
      (new = [] → st.hasNewReaders pos = false) := by
  unfold maybeAddReaders
  cases hnew : m.selector.hasNewReaders pos with
  | false =>
    refine ⟨m.selector, [], ?_, h, rfl, by rintro ⟨⟩, le_rfl, fun _ => hnew⟩
    simp [addReaders]
  | true =>
    have hmax : m.selector.selectorPosition.isMax = false :=
      (not_eq_true' _).mp (and_eq_true_iff.mp hnew).1
    have hselector : m.selector.selector ≠ none := by
      intro hnone
      rw [h.selector hnone, isMax_max] at hmax
      cases hmax
    obtain ⟨r, hr, hcreated⟩ := ReaderSelector.createNewReaders_spec hs pos h hselector
    refine ⟨r.1, r.2, ?_, hcreated.behind, hcreated.pr, fun _ => hcreated.progress.imp_right ?_, ?_,
      hcreated.done⟩
    · rw [if_pos rfl, hr]
      rfl
    · intro hend
      rw [hend]
      exact isMax_max
    · rcases hcreated.progress with hlt | hend
      · exact hlt.le
      · exact (le_max _).trans_eq hend.symm

theorem Core.addReaders (h : Core s start m) {new : List (Sstable T K)}
    (hbehind : Behind s start st) (hpr : st.pr = m.selector.pr)
    (hle : m.selector.selectorPosition ≤ st.selectorPosition) :
    Core s start ({ m with selector := st }.addReaders new) where
  behind := hbehind
  started := h.started.imp (fun hlt => hlt.trans_le hle) (isMax_mono hle)
  start_le := h.start_le.trans_eq (congrArg _ hpr.symm)
  readers hfwd hnone :=
    isMax_mono hle (h.readers hfwd (append_eq_nil_iff.mp hnone).1)
  galloping := h.galloping

theorem Core.boundary (hs : s.GenerationsUnique) (h : Core s start m) :
    ∃ m', m.maybeAddReadersAtPartitionBoundary = some m' ∧ Inv s start m' := by
  obtain ⟨st, new, hadd, hbehind, hpr, -, hle, hdone⟩ :=
    maybeAddReaders_spec hs h.behind m.nextPartitionPosition
  unfold maybeAddReadersAtPartitionBoundary
  cases hcond : m.fragmentHeap.isEmpty && m.haltedReaders.isEmpty with
  | true =>
    refine ⟨_, hadd, h.addReaders hbehind hpr hle, fun hb => hdone ?_⟩
    exact map_eq_nil_iff.mp (append_eq_nil_iff.mp hb.next).2
  | false =>
    refine ⟨m, rfl, h, fun hb => ?_⟩
    rw [hb.fragments, hb.halted] at hcond
    cases hcond

end

theorem Core.prepareOne (h : Core s start m) (rk : ReaderAndLastFragmentKind T K)
    (mfo : Option (Fragment T K Q)) : Core s start (m.prepareOne rk mfo) := by
  match mfo with
  | some (.partitionStart key) => exact { h with }
  | some (.inner f) => exact { h with }
  | none =>
    change Core s start (m.endOfReader rk)
    unfold endOfReader
    split
    · exact { h with }
    · split
      · next hfwd =>
        refine { h with readers := fun hfwd' => ?_ }
        rw [show m.fwdMr = true from hfwd'] at hfwd
        cases hfwd
      · exact h

theorem Core.prepareAll (h : Core s start m) (read : Sstable T K → Option (Fragment T K Q))
    (next : List (ReaderAndLastFragmentKind T K)) :
    Core s start (next.foldl (fun m' rk => m'.prepareOne rk (read rk.reader)) m) := by
  induction next generalizing m with
  | nil => exact h
  | cons rk rks ih => exact ih (h.prepareOne rk _)

theorem Core.prepareGalloping (h : Core s start m) (rk : ReaderAndLastFragmentKind T K)
    (mfo : Option (Fragment T K Q)) : Core s start (m.prepareGalloping rk mfo).1 := by
  have hstop : Core s start { m.prepareOne rk mfo with gallopModeHits := 0 } :=
    { h.prepareOne rk mfo with galloping := nofun }
  match mfo with
  | some (.partitionStart key) => exact hstop
  | none => exact hstop
  | some (.inner f) =>
    by_cases hwins : (m.fragmentHeap.head?.all fun x => f.position < x.2.position) = true
    · rw [Merger.prepareGalloping, if_pos hwins]
      exact { h with galloping := fun _ => some_ne_none _ }
    · rw [Merger.prepareGalloping, if_neg hwins]
      exact hstop

omit [LinearOrder Q] in
theorem Core.emit (h : Core s start m) (rk : ReaderAndLastFragmentKind T K)
    (rks : List (ReaderAndLastFragmentKind T K)) : Inv s start (m.emit rk rks) := by
  unfold Merger.emit
  split
  · dsimp only
    split
    · next hgallop =>
      refine ⟨{ h with galloping := fun _ => some_ne_none _ }, fun hb => ?_⟩
      exact absurd (hgallop.symm.trans hb.gallop) nofun
    · next hgallop =>
      exact ⟨{ h with galloping := fun hg => absurd hg hgallop }, fun hb => nomatch hb.next⟩
  · exact ⟨{ h with galloping := fun _ => some_ne_none _ }, fun hb => nomatch hb.next⟩

theorem Inv.maybeProduceBatch (hs : s.GenerationsUnique) (h : Inv s start m)
    (read : Sstable T K → Option (Fragment T K Q)) (buffer : SingleRead Q) :
    ∃ r, m.maybeProduceBatch read buffer = some r ∧ Inv s start r.1 := by
  have hcore := h.toCore
  unfold Merger.maybeProduceBatch
  split
  · next rk hsingle =>
    split
    · exact ⟨_, rfl, h⟩
    · exact ⟨_, rfl, h⟩
    · exact ⟨_, rfl, { hcore with }, fun hb => nomatch (append_eq_nil_iff.mp hb.next).2⟩
    · exact ⟨_, rfl, { hcore with }, fun hb => nomatch hb.single⟩
  · next hsingle =>
    split
    · next hgallop =>
      obtain ⟨rk, hrk⟩ := ne_none_iff_exists'.mp (h.galloping hgallop)
      obtain ⟨m', hm', hinv⟩ := (hcore.prepareGalloping rk (read rk.reader)).boundary hs
      refine ⟨(m', (m.prepareGalloping rk (read rk.reader)).2), ?_, hinv⟩
      rw [hrk, bind_some]
      dsimp only
      rw [hm', map_some]
    · next hgallop =>
      split
      · have hnext : Core s start { (m.next.foldl
            (fun m' rk => m'.prepareOne rk (read rk.reader)) m) with next := [] } :=
          { hcore.prepareAll read m.next with }
        obtain ⟨m', hm', hinv⟩ := hnext.boundary hs
        exact ⟨(m', none), by rw [prepareNext, hm', map_some], hinv⟩
      · split
        · next x xs _ =>
          have hrest : Core s start { m with
              fragmentHeap := xs.dropWhile fun y => y.2.position = x.2.position } := { hcore with }
          exact ⟨_, rfl, hrest.emit _ _⟩
        · split
          · exact ⟨_, rfl, h⟩
          · split
            · exact ⟨_, rfl, h⟩
            · next x xs _ =>
              have hrest : Core s start { m with
                  readerHeap := xs.dropWhile fun y => y.2 = x.2 } := { hcore with }
              dsimp only
              split
              · exact ⟨_, rfl, { hcore with galloping := nofun }, fun hb => nomatch hb.single⟩
              · exact ⟨_, rfl, hrest.emit _ _⟩

section

omit [LinearOrder Q]

theorem Inv.prepareForwardableReaders (h : Inv s start m) :
    Inv s start m.prepareForwardableReaders := by
  have hgallop : m.prepareForwardableReaders.inGallopMode = false := by
    refine decide_eq_false ?_
    change ¬gallopModeEnteringThreshold ≤ if m.inGallopMode then 0 else m.gallopModeHits
    split
    · decide
    · next hm => exact fun hle => hm (decide_eq_true hle)
  have hcore := h.toCore
  refine ⟨{ hcore with galloping := by simp [hgallop] }, fun hb => ?_⟩
  have hnext := hb.next
  simp only [Merger.prepareForwardableReaders, append_eq_nil_iff, map_eq_nil_iff,
    toList_eq_nil_iff] at hnext
  obtain ⟨⟨⟨⟨hnext, hhalted⟩, hsingle⟩, hgalloping⟩, hfragments⟩ := hnext
  refine h.settled ⟨hnext, hsingle, ?_, hfragments, hhalted⟩
  by_contra hg
  rw [not_eq_false] at hg
  rw [if_pos hg, toList_eq_nil_iff] at hgalloping
  exact h.galloping hg hgalloping

theorem Inv.nextPartition (h : Inv s start m) : Inv s start m.nextPartition := by
  have hinv := h.prepareForwardableReaders
  have hcore := hinv.toCore
  refine ⟨{ hcore with }, fun hb => hinv.settled { hb with next := ?_ }⟩
  exact map_eq_nil_iff.mp hb.next

theorem Inv.fastForwardTo (hs : s.GenerationsUnique) (h : Inv s start m) (hfwd : m.fwdMr = true)
    {pr : PartitionRange T K} (hpr : m.selector.pr.startPosition ≤ pr.startPosition)
    (hmax : pr.startPosition ≠ .max) :
    ∃ m', m.fastForwardTo pr = some m' ∧ Inv s start m' := by
  obtain ⟨r, hr, hforwarded⟩ := ReaderSelector.fastForwardTo_spec hs h.behind fun _ => hmax
  have hle := hforwarded.progress
  have hreaders : m.allReaders ++ r.2 = [] → r.1.selectorPosition.isMax = true := fun hnone =>
    isMax_mono hle (h.readers hfwd (append_eq_nil_iff.mp hnone).1)
  refine ⟨_, by rw [Merger.fastForwardTo, hr, map_some], ?_, fun hb => ?_⟩
  · exact
      { behind := hforwarded.behind
        started := h.started.imp (fun hlt => hlt.trans_le hle) (isMax_mono hle)
        start_le := (h.start_le.trans hpr).trans_eq (congrArg _ hforwarded.pr_eq.symm)
        readers := fun _ => hreaders
        galloping := nofun }
  · refine hasNewReaders_eq_false_of_isMax (hreaders ?_) _
    have hnext := hb.next
    simp only [Merger.addReaders, ← map_append, map_eq_nil_iff] at hnext
    exact hnext

end

theorem hasNewReaders_none (st : ReaderSelector T K) :
    st.hasNewReaders none = !st.selectorPosition.isMax := by
  simp [ReaderSelector.hasNewReaders]

theorem selectorPosition_create_le (s : SstableSet T K) (pr : PartitionRange T K) :
    (ReaderSelector.create s pr).selectorPosition ≤ pr.startPosition := by
  unfold ReaderSelector.create PartitionRange.startPosition
  cases pr.start with
  | none => exact le_rfl
  | some b => exact withAfterKey_mono _ _

omit [LinearOrder Q] in
theorem create_spec (hs : s.GenerationsUnique) (pr : PartitionRange T K) (fwdSm fwdMr : Bool) :
    ∃ m : Merger T K Q, create s pr fwdSm fwdMr = some m ∧
      Inv s (ReaderSelector.create s pr).selectorPosition m := by
  obtain ⟨st, new, hadd, hbehind, hpr, hprogress, hle, hdone⟩ :=
    maybeAddReaders_spec (m := (initial s pr fwdSm fwdMr : Merger T K Q)) hs
      (ReaderSelector.behind_create s pr) none
  have hmax : new = [] → st.selectorPosition.isMax = true := by
    intro hnone
    have hdone := hdone hnone
    rwa [hasNewReaders_none, not_eq_false'] at hdone
  refine ⟨_, hadd, ⟨hbehind, ?_, ?_, fun _ => hmax, nofun⟩, fun hb => ?_⟩
  · cases hnew : (ReaderSelector.create s pr).selectorPosition.isMax with
    | true => exact .inr (isMax_mono hle hnew)
    | false =>
      refine hprogress ?_
      rw [hasNewReaders_none]
      exact congrArg _ hnew
  · exact (selectorPosition_create_le s pr).trans_eq (congrArg _ hpr.symm)
  · exact hdone (map_eq_nil_iff.mp hb.next)

theorem Inv.step (hs : s.GenerationsUnique) (h : Inv s start m) {a : Action T K Q}
    (ha : m.Allowed a) : ∃ m', m.step a = some m' ∧ Inv s start m' := by
  cases a with
  | produce read buffer =>
    obtain ⟨r, hr, hinv⟩ := h.maybeProduceBatch hs read buffer
    exact ⟨r.1, by rw [Merger.step, hr, map_some], hinv⟩
  | nextPartition => exact ⟨_, rfl, h.nextPartition⟩
  | fastForwardTo pr => exact h.fastForwardTo hs ha.1 ha.2.1 ha.2.2
  | fastForwardToPosition => exact ⟨_, rfl, h.prepareForwardableReaders⟩

/-! ## What is opened -/

omit [LinearOrder Q] in
theorem Core.mem_opened (h : Core s start m) {pos : Option (RingPosition T K)}
    (hnew : m.selector.hasNewReaders pos = false) {x : Sstable T K} (hx : x ∈ s.all)
    (hin : m.selector.pr.Intersects x) (hpos : ∀ p ∈ pos, .ofKey x.first false ≤ p) :
    x ∈ m.selector.opened := by
  obtain ⟨k, hk, hcovers⟩ := hin
  have hstart : start ≤ .ofKey x.last false :=
    h.start_le.trans ((PartitionRange.startPosition_le hk).trans hcovers.2)
  have hfirst : .ofKey x.first false ≤ ofKey x.last false :=
    ofKey_le_ofKey.mpr x.first_le_last
  refine h.behind.covered x hx (max (.ofKey x.first false) start) (le_max_right _ _) ?_
    ⟨le_max_left _ _, max_le hfirst hstart⟩
  cases hmax : m.selector.selectorPosition.isMax with
  | true =>
    have hlast := ofKey_lt_of_isMax (k := x.last) hmax false
    exact max_lt (hfirst.trans_lt hlast) (hstart.trans_lt hlast)
  | false =>
    rw [ReaderSelector.hasNewReaders, hmax, Bool.not_false, Bool.true_and] at hnew
    cases hp : pos with
    | none =>
      rw [hp] at hnew
      cases hnew
    | some p =>
      rw [hp, all_some, decide_eq_false_iff_not, not_le] at hnew
      refine max_lt ((hpos p hp).trans_lt hnew) (h.started.resolve_right ?_)
      rw [hmax]
      exact false_ne_true

theorem batch_prepareGalloping {rk : ReaderAndLastFragmentKind T K}
    {mfo : Option (Fragment T K Q)} {batch : Batch T K Q}
    (h : (m.prepareGalloping rk mfo).2 = some batch) : ∃ f, batch = [(rk.reader, .inner f)] := by
  match mfo with
  | some (.partitionStart key) => cases h
  | none => cases h
  | some (.inner f) =>
    rw [Merger.prepareGalloping] at h
    split at h
    · exact ⟨f, (Option.some.inj h).symm⟩
    · cases h

variable {buffer : SingleRead Q} {read : Sstable T K → Option (Fragment T K Q)}

theorem maybeProduceBatch_cases {batch : Batch T K Q}
    (h : m.maybeProduceBatch read buffer = some (m', some batch)) :
    (batch ≠ [] ∧ ∀ x ∈ batch, ∃ f, x.2 = .inner f) ∨
      (batch = [] ∧ (m.singleReader ≠ none ∨ m.haltedReaders ≠ [])) ∨
      m.AtBoundary ∧ ((batch = [] ∧ m.readerHeap = []) ∨
        ∃ x xs, m.readerHeap = x :: xs ∧ batch ≠ [] ∧ ∀ y ∈ batch, y.2 = .partitionStart x.2) := by
  unfold Merger.maybeProduceBatch at h
  split at h
  · next rk hsingle =>
    have hsome : m.singleReader ≠ none := hsingle ▸ some_ne_none rk
    split at h
    · cases h
      exact .inr (.inl ⟨rfl, .inl hsome⟩)
    · cases h
    · cases h
      exact .inl ⟨nofun, by simp⟩
    · cases h
      exact .inl ⟨nofun, by simp⟩
  · next hsingle =>
    split at h
    · obtain ⟨rk, -, hrk⟩ := bind_eq_some_iff.mp h
      obtain ⟨m'', -, heq⟩ := map_eq_some_iff.mp hrk
      obtain ⟨f, rfl⟩ := batch_prepareGalloping (Prod.mk.inj heq).2
      exact .inl ⟨nofun, by simp⟩
    · next hgallop =>
      split at h
      · obtain ⟨m'', -, heq⟩ := map_eq_some_iff.mp h
        cases (Prod.mk.inj heq).2
      · next hnext =>
        have hnext : m.next = [] := by simpa using hnext
        split at h
        · next x xs _ =>
          cases h
          refine .inl ⟨nofun, fun y hy => ?_⟩
          obtain ⟨z, -, rfl⟩ := mem_map.mp hy
          exact ⟨z.2, rfl⟩
        · next hfragments =>
          split at h
          · next hhalted =>
            cases h
            exact .inr (.inl ⟨rfl, .inr (by simpa using hhalted)⟩)
          · next hhalted =>
            have hboundary : m.AtBoundary :=
              ⟨hnext, hsingle, not_eq_true _ ▸ hgallop, hfragments, by simpa using hhalted⟩
            refine .inr (.inr ⟨hboundary, ?_⟩)
            split at h
            · next hheap =>
              cases h
              exact .inl ⟨rfl, hheap⟩
            · next x xs hheap =>
              have hbatch : batch = (x :: xs.takeWhile fun y => y.2 = x.2).map fun y =>
                  (y.1, Fragment.partitionStart y.2) := by
                dsimp only at h
                split at h
                · cases h; rfl
                · cases h; rfl
              refine .inr ⟨x, xs, hheap, hbatch ▸ nofun, fun y hy => ?_⟩
              obtain ⟨z, hz, rfl⟩ := mem_map.mp (hbatch ▸ hy)
              have hkey : z.2 = x.2 := by
                rcases mem_cons.mp hz with rfl | hz
                · rfl
                · have hsame := mem_takeWhile_imp hz
                  exact of_decide_eq_true hsame
              exact congrArg _ hkey

theorem Inv.batch (h : Inv s start m) {batch : Batch T K Q}
    (hbatch : m.maybeProduceBatch read buffer = some (m', some batch)) {x : Sstable T K}
    (hx : x ∈ s.all) (hin : m.selector.pr.Intersects x) :
    (∀ r k, (r, .partitionStart k) ∈ batch → x.first ≤ k → x ∈ m.selector.opened) ∧
      (batch = [] → m.singleReader = none → m.haltedReaders = [] → x ∈ m.selector.opened) := by
  rcases maybeProduceBatch_cases hbatch with ⟨hne, hinner⟩ | ⟨rfl, hwaits⟩ | ⟨hb, hcases⟩
  · refine ⟨fun r k hk _ => ?_, fun hnil => absurd hnil hne⟩
    obtain ⟨f, hf⟩ := hinner _ hk
    cases hf
  · refine ⟨(fun r k hk => nomatch hk), fun _ hsingle hhalted => ?_⟩
    rcases hwaits with h | h
    · exact absurd hsingle h
    · exact absurd hhalted h
  · have hnew := h.settled hb
    unfold nextPartitionPosition at hnew
    rcases hcases with ⟨rfl, hheap⟩ | ⟨y, ys, hheap, hne, hstart⟩
    · rw [hheap] at hnew
      exact ⟨(fun r k hk => nomatch hk), fun _ _ _ => h.mem_opened hnew hx hin nofun⟩
    · rw [hheap] at hnew
      refine ⟨fun r k hk hfirst => h.mem_opened hnew hx hin ?_, fun hnil => absurd hnil hne⟩
      cases hstart _ hk
      intro p hp
      cases hp
      exact ofKey_le_ofKey.mpr hfirst

end Merger

/-- The answers of a selector that is asked at one position after the other. -/
def selectAt (c : Cached T K (Selector T K)) : List (RingPosition T K) → RingPosition T K →
    Selected T K
  | [], pos => (c.select Selector.select pos).2
  | p :: ps, pos => selectAt (c.select Selector.select p).1 ps pos

theorem SstableSet.selection_selectAt {s : SstableSet T K} {c : Cached T K (Selector T K)}
    {p pos : RingPosition T K} (hc : s.ReadyFrom c p) {ps : List (RingPosition T K)}
    (hps : (p :: (ps ++ [pos])).Pairwise (· ≤ ·)) :
    Selection s.unleveled s.leveled s.stops pos (selectAt c ps pos).answer := by
  induction ps generalizing c p with
  | nil =>
    exact (s.select_spec hc ((pairwise_cons.mp hps).1 pos (mem_singleton_self _))).2
  | cons q qs ih =>
    obtain ⟨hle, hrest⟩ := pairwise_cons.mp hps
    exact ih (s.select_spec hc (hle q mem_cons_self)).1 hrest

/-- Asked at positions that never go back, the selector selects the unleveled sstables and those
leveled ones that cover the position. A reader made of it opens no sstable twice; those of its range
up to each partition are open before that partition is returned, and all of them before the end.
Every step returns. -/
theorem reads_miss_no_sstable (s : SstableSet T K) (hs : s.GenerationsUnique)
    (pr : PartitionRange T K) (fwdSm fwdMr : Bool) :
    (∀ ps pos, (ps ++ [pos]).Pairwise (· ≤ ·) → ∀ x,
      x ∈ (selectAt s.makeIncrementalSelector ps pos).sstables ↔
        x ∈ s.unleveled ∨ x ∈ s.leveled ∧ x.Covers pos) ∧
    ∃ init : Merger T K Q, Merger.create s pr fwdSm fwdMr = some init ∧
      ∀ m, Reaches Merger.step Merger.Allowed init m →
        (m.selector.opened.map Sstable.generation).Nodup ∧
        (∀ a, m.Allowed a → m.step a ≠ none) ∧
        ∀ read buffer m' batch, m.maybeProduceBatch read buffer = some (m', some batch) →
          ∀ x ∈ s.all, m.selector.pr.Intersects x →
            (∀ r k, (r, .partitionStart k) ∈ batch → x.first ≤ k → x ∈ m.selector.opened) ∧
            (batch = [] → m.singleReader = none → m.haltedReaders = [] →
              x ∈ m.selector.opened) := by
  refine ⟨fun ps pos hps x => ?_, ?_⟩
  · have hmin : (RingPosition.min :: (ps ++ [pos])).Pairwise (· ≤ ·) :=
      pairwise_cons.mpr ⟨fun p _ => min_le p, hps⟩
    exact (s.selection_selectAt (s.readyFrom_makeIncrementalSelector _) hmin).mem_iff x
  · obtain ⟨init, hinit, hinv⟩ := Merger.create_spec (Q := Q) hs pr fwdSm fwdMr
    refine ⟨init, hinit, fun m hm => ?_⟩
    have h := hm.invariant hinv fun m a m' h ha hstep => by
      obtain ⟨m'', hm'', h''⟩ := h.step hs ha
      exact Option.some.inj (hstep.symm.trans hm'') ▸ h''
    refine ⟨h.behind.nodup, fun a ha hnone => ?_, fun read buffer m' batch hbatch x hx hin =>
      h.batch hbatch hx hin⟩
    obtain ⟨m', hm', -⟩ := h.step hs ha
    exact some_ne_none m' (hm'.symm.trans hnone)

/-! ## A small set -/

def unleveledSstable : Sstable ℕ ℕ := ⟨1, toLex (0, 1), toLex (0, 2), by decide⟩

def leveledSstable : Sstable ℕ ℕ := ⟨2, toLex (0, 5), toLex (0, 9), by decide⟩

def smallSet : SstableSet ℕ ℕ := .partitioned
  { unleveled := [unleveledSstable]
    leveled := [leveledSstable]
    segments := [⟨toLex (0, 5), toLex (0, 9), true, true, [leveledSstable]⟩]
    sorted := pairwise_singleton _ _
    nonempty := by decide
    represents := by
      intro p x
      simp only [mem_singleton, exists_eq_left]
      constructor
      · rintro ⟨rfl, hcovers⟩
        exact ⟨and_eq_true_iff.mpr ⟨decide_eq_true hcovers.1, decide_eq_true hcovers.2⟩, rfl⟩
      · rintro ⟨hcontains, rfl⟩
        obtain ⟨hlower, hupper⟩ := and_eq_true_iff.mp hcontains
        exact ⟨rfl, of_decide_eq_true hlower, of_decide_eq_true hupper⟩ }

theorem generationsUnique_smallSet : smallSet.GenerationsUnique := by
  have hall : smallSet.all = [unleveledSstable, leveledSstable] := rfl
  intro x hx y hy h
  rcases mem_pair.mp hx with rfl | rfl <;> rcases mem_pair.mp hy with rfl | rfl <;>
    first | rfl | cases h

/-- The leveled sstable of the small set is selected where it covers the position, and a reader opens
it once and before its first partition. -/
theorem reads_miss_no_sstable_smallSet :
    smallSet.GenerationsUnique ∧
    leveledSstable ∈
      (selectAt smallSet.makeIncrementalSelector [] (.ofKey (toLex (0, 7)) false)).sstables ∧
    ∃ init : Merger ℕ ℕ ℕ, Merger.create smallSet ⟨none, none⟩ false true = some init ∧
      ∀ m, Reaches Merger.step Merger.Allowed init m →
        (m.selector.opened.map Sstable.generation).Nodup ∧
        (∀ a, m.Allowed a → m.step a ≠ none) ∧
        ∀ read buffer m' batch, m.maybeProduceBatch read buffer = some (m', some batch) →
          m.selector.pr.Intersects leveledSstable → ∀ r k, (r, .partitionStart k) ∈ batch →
            toLex (0, 5) ≤ k → leveledSstable ∈ m.selector.opened := by
  have hunique := generationsUnique_smallSet
  obtain ⟨hselect, init, hinit, h⟩ :=
    reads_miss_no_sstable (Q := ℕ) smallSet hunique ⟨none, none⟩ false true
  refine ⟨hunique, (hselect [] _ (pairwise_singleton _ _) _).mpr (.inr ⟨mem_singleton_self _, ?_⟩),
    init, hinit, fun m hm => ⟨(h m hm).1, (h m hm).2.1, ?_⟩⟩
  · exact ⟨by decide +kernel, by decide +kernel⟩
  · intro read buffer m' batch hbatch hin r k hk hfirst
    have hall : leveledSstable ∈ smallSet.all := mem_pair.mpr (.inr rfl)
    exact ((h m hm).2.2 read buffer m' batch hbatch _ hall hin).1 r k hk hfirst

/-- An unleveled sstable is selected where it covers nothing; and once the end of the ring was
reached, fast forwarding to a range that begins there asks a selector that is gone. -/
theorem selects_uncovering_and_stuck :
    (unleveledSstable ∈
        (selectAt smallSet.makeIncrementalSelector [] (.ofKey (toLex (0, 7)) false)).sstables ∧
      ¬unleveledSstable.Covers (.ofKey (toLex (0, 7)) false)) ∧
    ∃ init m : Merger ℕ ℕ ℕ, Merger.create smallSet ⟨none, none⟩ false true = some init ∧
      init.step (.produce (fun _ => none) .fill) = some m ∧
      m.fastForwardTo ⟨some ⟨.max, true⟩, none⟩ = none := by
  refine ⟨⟨by decide +kernel, fun h => absurd h.2 (by decide +kernel)⟩, ?_⟩
  exact ⟨_, _, rfl, rfl, rfl⟩

end Scylla.Sstables
