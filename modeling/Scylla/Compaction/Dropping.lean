import Scylla.Compaction.FullyExpired

/-!
# Dropping sstables that are fully expired

A reader merges what the sstables and memtables of a table have of a partition. `SafeToDrop` is what
their statistics have to say so that no reader notices the sstables that
`get_fully_expired_sstables` gives up: a dropped sstable has nothing that is still live, and nothing
that is kept and may be live is older than what it has.
-/

namespace Scylla

namespace Mutation

/-- `get_max_local_deletion_time` of a cell: live cells count as never deleted. -/
def AtomicCell.localDeletionTime : AtomicCell → I64
  | dead _ deletionTime => deletionTime
  | live .. => Compaction.noDeletionTime
  | expiring _ _ expiry _ => expiry

def CounterCell.localDeletionTime : CounterCell → I64
  | dead _ deletionTime => deletionTime
  | live .. => Compaction.noDeletionTime

def Schema.HasCounters (s : Schema) : Prop :=
  ColumnKind.counter ∈ s.staticColumns ∨ ColumnKind.counter ∈ s.regularColumns

theorem CellOf.within_noLiveCounter {k : ColumnKind} (hk : k ≠ .counter) (x : Option (CellOf k)) :
    CellOf.Within .noLiveCounter k x := by
  cases k with
  | atomic => exact fun _ _ => trivial
  | counter => exact absurd rfl hk
  | collection kt => exact ⟨trivial, fun _ _ _ => trivial⟩

theorem MutationPartition.within_noLiveCounter {s : Schema} {P : Type*} [LinearOrder P]
    (hs : ¬s.HasCounters) (p : MutationPartition s P) : p.Within .noLiveCounter where
  tombstone := trivial
  staticRow i := CellOf.within_noLiveCounter
    (fun h => hs (.inl (h ▸ List.get_mem s.staticColumns i))) _
  range _ := trivial
  rows _ := ⟨trivial, fun _ _ => trivial, fun i => CellOf.within_noLiveCounter
    (fun h => hs (.inr (h ▸ List.get_mem s.regularColumns i))) _⟩

theorem Limits.blank_le {l : Limits} (h : l.tombstone Tombstone.none) : Limits.blank.Le l where
  cell _ hc := hc.elim
  counter _ hc := hc.elim
  tombstone _ ht := ht ▸ h

end Mutation

namespace Compaction

open Mutation

variable {T B : Type*} [LinearOrder T] [LinearOrder B] {now q b : I64}

namespace Sstable

def limits (x : Sstable T B) : Limits where
  cell c := x.minTimestamp ≤ c.timestamp ∧ c.timestamp ≤ x.maxTimestamp ∧
    c.localDeletionTime ≤ x.maxLocalDeletionTime
  counter c := x.minTimestamp ≤ c.timestamp ∧ c.timestamp ≤ x.maxTimestamp ∧
    c.localDeletionTime ≤ x.maxLocalDeletionTime
  tombstone t := t = Tombstone.none ∨ x.minTimestamp ≤ t.timestamp ∧
    t.timestamp ≤ x.maxTimestamp ∧ t.deletionTime ≤ x.maxLocalDeletionTime

/-- The sstable may have data that is live at a time. -/
def MayBeLive (x : Sstable T B) (now : I64) : Prop :=
  now < x.maxLocalDeletionTime ∨ x.maxLocalDeletionTime = noDeletionTime

theorem limits_le_atMost (x : Sstable T B) : x.limits.Le (.atMost x.maxTimestamp) where
  cell _ h := h.2.1
  counter _ h := h.2.1
  tombstone t h := by
    rcases h with rfl | h
    · exact missingTimestamp_le _
    · exact h.2.1

variable {x : Sstable T B}

theorem isLive_eq_false_of_limits {c : CounterCell} (hc : x.limits.counter c)
    (hx : x.maxLocalDeletionTime ≠ noDeletionTime) : c.isLive = false := by
  cases c with
  | dead _ _ => rfl
  | live _ _ => exact absurd (le_antisymm x.maxLocalDeletionTime_le hc.2.2) hx

theorem liveNow_eq_none_of_limits (hx : ¬x.MayBeLive now) (hq : now ≤ q)
    {c : AtomicCell} (hc : x.limits.cell c) : AtomicCell.liveNow q c = none := by
  obtain ⟨hpast, hne⟩ := not_or.mp hx
  cases c with
  | dead _ _ => rfl
  | live _ _ => exact absurd (le_antisymm x.maxLocalDeletionTime_le hc.2.2) hne
  | expiring _ _ expiry _ =>
    have hexpired : expiry ≤ q := hc.2.2.trans ((not_lt.mp hpast).trans hq)
    simp [AtomicCell.liveNow, AtomicCell.hasExpired, AtomicCell.isLiveAndHasTtl, AtomicCell.expiry,
      hexpired]

theorem limits_le_dead (hx : ¬x.MayBeLive now) (hq : now ≤ q) :
    x.limits.Le (.dead q) where
  cell _ h := liveNow_eq_none_of_limits hx hq h
  counter _ h := isLive_eq_false_of_limits h fun hne => hx (.inr hne)
  tombstone _ _ := trivial

theorem limits_le_liveAbove (q : I64) (hb : b < x.minTimestamp) :
    x.limits.Le (.liveAbove q b) where
  cell _ h _ := hb.trans_le h.1
  counter _ _ := trivial
  tombstone _ _ := trivial

end Sstable

def Memtable.limits (m : Memtable T B) : Limits where
  cell c := c.isLive = true → m.minLiveTimestamp ≤ c.timestamp
  counter c := c.isLive = true → m.minLiveTimestamp ≤ c.timestamp
  tombstone _ := True

omit [LinearOrder T] [LinearOrder B] in
theorem Memtable.limits_le_liveAbove {m : Memtable T B} (q : I64)
    (hb : b < m.minLiveTimestamp) : m.limits.Le (.liveAbove q b) where
  cell c h hlive := by
    refine hb.trans_le (h ?_)
    by_contra hdead
    exact hlive (by simp [AtomicCell.liveNow, hdead])
  counter _ _ := trivial
  tombstone _ _ := trivial

namespace TableState

variable (t : TableState T B)

/-- Where contents of the table are: in an sstable or in a memtable. -/
abbrev Source : Type _ := Sstable T B ⊕ Fin t.memtables.length

def sources : List t.Source :=
  t.allSstables.map .inl ++ (List.finRange t.memtables.length).map .inr

def limits : t.Source → Limits
  | .inl x => x.limits
  | .inr i => (t.memtables.get i).limits

def Has : t.Source → T ×ₗ B → Prop
  | .inl x, k => x.Covers k
  | .inr i, k => (t.memtables.get i).hasKey k = true

/-- The sources without the sstables that are given up. -/
def keep (dropped : List (Sstable T B)) : t.Source → Bool
  | .inl x => x ∉ dropped
  | .inr _ => true

/-- Contents that the statistics bound, without shadowable tombstones. -/
structure Contents (s : Schema) (P : Type*) [LinearOrder P] where
  partitionOf : t.Source → T ×ₗ B → MutationPartition s P
  within : ∀ src k, (partitionOf src k).Within (t.limits src)
  absent : ∀ src k, ¬t.Has src k → (partitionOf src k).Within .blank
  regular : ∀ src k, (partitionOf src k).IsRegular
  ttlPositive : ∀ src k, (partitionOf src k).Within .ttlPositive

/-- What a reader at `q` sees of a partition in some of the sources. -/
def Contents.read {t : TableState T B} {s : Schema} {P : Type*} [LinearOrder P]
    (c : t.Contents s P) (srcs : List t.Source) (k : T ×ₗ B) (q : I64) :
    MutationPartition.LiveData s P :=
  (MutationPartition.applyAll (srcs.map fun src => c.partitionOf src k)).liveData q

/-- Nothing that may be live is uncovered by giving up the droppable sstables. -/
structure SafeToDrop (s : Schema) (compacting : List (Sstable T B)) (compactionTime : I64)
    (d : Sstable T B) : Prop where
  /-- The horizon has not let data go that is still to expire. -/
  dead : d.maxLocalDeletionTime ≤ compactionTime
  /-- Memtables that share a key have no live data that old. -/
  memtables : ∀ m ∈ t.memtables, ∀ k, d.Covers k → m.hasKey k = true →
    d.maxTimestamp < m.minLiveTimestamp ∧ ¬s.HasCounters
  /-- Sstables that share a key and stay have no live data that old. -/
  sstables : ∀ x ∈ t.allSstables, ¬t.Droppable compacting compactionTime x →
    x.MayBeLive compactionTime → ∀ k, d.Covers k → x.Covers k →
      d.maxTimestamp < x.minTimestamp ∧ (x.maxLocalDeletionTime = noDeletionTime → ¬s.HasCounters)

variable {t} {s : Schema} {compacting : List (Sstable T B)} {compactionTime : I64}

theorem maxLocalDeletionTime_ne_of_lt {x : Sstable T B}
    (h : x.maxLocalDeletionTime < t.getGcBeforeForFullyExpire compactionTime x) :
    x.maxLocalDeletionTime ≠ noDeletionTime := by
  intro hmax
  rw [getGcBeforeForFullyExpire, if_pos hmax] at h
  exact h.not_ge (I64.lowest_le _)

variable {d : Sstable T B}

theorem Droppable.lt_gcBefore (hd : t.Droppable compacting compactionTime d) :
    d.maxLocalDeletionTime < t.getGcBeforeForFullyExpire compactionTime d :=
  of_decide_eq_true (Bool.and_eq_true_iff.mp hd.expired).1

theorem SafeToDrop.not_mayBeLive (h : t.SafeToDrop s compacting compactionTime d)
    (hd : t.Droppable compacting compactionTime d) : ¬d.MayBeLive compactionTime :=
  not_or.mpr ⟨not_lt.mpr h.dead, maxLocalDeletionTime_ne_of_lt hd.lt_gcBefore⟩

section

variable
  (hgc : ∀ first last, (t.getGcBeforeForRange first last compactionTime).minGcBefore ≤ compactionTime)

include hgc

theorem not_mayBeLive_of_lt {x : Sstable T B}
    (h : x.maxLocalDeletionTime < t.getGcBeforeForFullyExpire compactionTime x) :
    ¬x.MayBeLive compactionTime := by
  refine not_or.mpr ⟨not_lt.mpr (h.le.trans ?_), maxLocalDeletionTime_ne_of_lt h⟩
  unfold getGcBeforeForFullyExpire
  split
  · exact I64.lowest_le _
  · dsimp only
    split
    · exact hgc _ _
    · exact I64.lowest_le _

theorem Droppable.safeToDrop (hcounters : ¬s.HasCounters)
    (hmemtables : ∀ m ∈ t.memtables, ∀ k, d.Covers k → m.hasKey k = true →
      d.maxTimestamp < m.minLiveTimestamp) (hd : t.Droppable compacting compactionTime d) :
    t.SafeToDrop s compacting compactionTime d where
  dead := not_lt.mp (not_or.mp (not_mayBeLive_of_lt hgc hd.lt_gcBefore)).1
  memtables m hm k hk hkey := ⟨hmemtables m hm k hk hkey, hcounters⟩
  sstables x hx hstays hlive k hk hxk := by
    have hgcBefore : t.getGcBeforeForFullyExpire compactionTime x ≤ x.maxLocalDeletionTime :=
      not_lt.mp fun hlt => not_mayBeLive_of_lt hgc hlt hlive
    refine ⟨?_, fun _ => hcounters⟩
    by_cases hmem : x ∈ compacting
    · refine hd.older x hmem ?_
      rw [isExpired, decide_eq_false (not_lt.mpr hgcBefore), Bool.false_and]
    · refine hd.olderOverlapping x (Sstable.mem_overlapping hd.mem ?_ hk hxk) hgcBefore
      exact List.mem_filter.mpr ⟨hx, decide_eq_true hmem⟩

end

section Contents

variable {P : Type*} [LinearOrder P] (c : t.Contents s P)

theorem Contents.within_of_absent {src : t.Source} {k : T ×ₗ B} (h : ¬t.Has src k) {l : Limits}
    (hl : l.tombstone Tombstone.none) : (c.partitionOf src k).Within l :=
  (c.absent src k h).mono (Limits.blank_le hl)

theorem Contents.liveAbove_missing (src : t.Source) (k : T ×ₗ B) (q : I64) :
    (c.partitionOf src k).Within (.liveAbove q missingTimestamp) := by
  refine (c.within src k).mono ?_
  cases src with
  | inl x => exact Sstable.limits_le_liveAbove q x.minTimestamp_set
  | inr i => exact Memtable.limits_le_liveAbove q (t.memtables.get i).minLiveTimestamp_set

theorem Contents.obsolete (h : t.SafeToDrop s compacting compactionTime d)
    {src : t.Source} (hsrc : src ∈ t.sources)
    (hkept : ∀ x, src = .inl x → ¬t.Droppable compacting compactionTime x) (k : T ×ₗ B)
    (hq : compactionTime ≤ q) :
    MutationPartition.Obsolete q (c.partitionOf (.inl d) k) (c.partitionOf src k) := by
  by_cases hd : d.Covers k
  · have hleft : (c.partitionOf (.inl d) k).Within (.atMost d.maxTimestamp) :=
      (c.within (.inl d) k).mono d.limits_le_atMost
    by_cases hhas : t.Has src k
    · cases src with
      | inl x =>
        have hx : x ∈ t.allSstables := by simpa [sources] using hsrc
        by_cases hlive : x.MayBeLive compactionTime
        · obtain ⟨hlt, hcounters⟩ := h.sstables x hx (hkept x rfl) hlive k hd hhas
          have hkeeps := (c.within (.inl x) k).mono (Sstable.limits_le_liveAbove q hlt)
          refine ⟨⟨_, hleft, hkeeps⟩, .inl ?_⟩
          by_cases hmax : x.maxLocalDeletionTime = noDeletionTime
          · exact MutationPartition.within_noLiveCounter (hcounters hmax) _
          · exact (c.within (.inl x) k).mono 
              ⟨fun _ _ => trivial, fun _ h => Sstable.isLive_eq_false_of_limits h hmax, fun _ _ => trivial⟩
        · have hdead := (c.within (.inl x) k).mono (Sstable.limits_le_dead hlive hq)
          refine ⟨⟨_, hleft, hdead.mono ?_⟩, .inl (hdead.mono ?_)⟩
          · exact ⟨fun _ h hne => absurd h hne, fun _ _ => trivial, fun _ _ => trivial⟩
          · exact ⟨fun _ _ => trivial, fun _ h => h, fun _ _ => trivial⟩
      | inr i =>
        obtain ⟨hlt, hcounters⟩ := h.memtables _ (List.get_mem _ i) k hd hhas
        exact ⟨⟨_, hleft, (c.within (.inr i) k).mono (Memtable.limits_le_liveAbove q hlt)⟩,
          .inl (MutationPartition.within_noLiveCounter hcounters _)⟩
    · exact ⟨⟨_, hleft, c.within_of_absent hhas trivial⟩, .inl (c.within_of_absent hhas trivial)⟩
  · have hblank := c.absent (.inl d) k hd
    exact ⟨⟨missingTimestamp, hblank.mono (Limits.blank_le le_rfl), c.liveAbove_missing src k q⟩,
      .inr hblank⟩

theorem Contents.read_keep (hsub : compacting ⊆ t.sstables)
    (h : ∀ d, t.Droppable compacting compactionTime d → t.SafeToDrop s compacting compactionTime d)
    (k : T ×ₗ B) (hq : compactionTime ≤ q) :
    c.read (t.sources.filter (t.keep (t.getFullyExpiredSstables compacting compactionTime))) k q =
      c.read t.sources k q := by
  have hdropped : ∀ src, t.keep (t.getFullyExpiredSstables compacting compactionTime) src = false →
      ∃ d, src = .inl d ∧ t.Droppable compacting compactionTime d := by
    intro src hsrc
    cases src with
    | inl d =>
      refine ⟨d, rfl, (mem_getFullyExpiredSstables hsub).mp ?_⟩
      exact of_not_not (of_decide_eq_false hsrc)
    | inr i => cases hsrc
  refine MutationPartition.liveData_applyAll_filter (fun src _ => c.regular src k)
    (fun src _ => c.ttlPositive src k) (fun src _ hsrc => ?_) fun src hsrc hkept src' _ hsrc' => ?_
  · obtain ⟨d, rfl, hd⟩ := hdropped src hsrc
    exact (c.within (.inl d) k).mono (Sstable.limits_le_dead ((h d hd).not_mayBeLive hd) hq)
  · obtain ⟨d, rfl, hd⟩ := hdropped src' hsrc'
    refine c.obsolete (h d hd) hsrc ?_ k hq
    rintro x rfl hx
    exact of_decide_eq_true hkept ((mem_getFullyExpiredSstables hsub).mpr hx)

end Contents

end TableState

end Compaction

end Scylla
