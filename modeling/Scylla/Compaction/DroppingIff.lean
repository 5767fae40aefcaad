import Scylla.Compaction.Dropping

/-!
# When dropping fully expired sstables goes unnoticed

If the statistics do not make a dropped sstable safe to drop, there are contents within these
statistics for which a reader notices that it is gone: a tombstone of the dropped sstable hides a
row, or a counter, that stays in the table.
-/

namespace Scylla

open Function
open List

variable {timestamp q : I64}

namespace Mutation

section

variable {ι α : Type*} {op : α → α → α} {f : ι → Option α}

theorem foldMerge_map_single [DecidableEq ι] {srcs : List ι} (hnodup : srcs.Nodup) {v : ι}
    (hv : v ∈ srcs) (hf : ∀ j ∈ srcs, j ≠ v → f j = none) :
    foldMerge op (srcs.map f) = f v := by
  have hfilter : srcs.filter (fun j => decide (j = v)) = [v] := by
    rw [filter_eq, count_eq_one_of_mem hnodup hv]
    rfl
  have hsame : foldMerge op ((srcs.filter fun j => decide (j = v)).map f) =
      foldMerge op (srcs.map f) :=
    foldMerge_map_filter f _ srcs fun j hj hne => hf j hj (of_decide_eq_false hne)
  rw [← hsame, hfilter, map_singleton]
  exact Option.merge_none_left

theorem foldMerge_map_none {srcs : List ι} (hf : ∀ j ∈ srcs, f j = none) :
    foldMerge op (srcs.map f) = none := by
  have hsame : foldMerge op ((srcs.filter fun _ => false).map f) = foldMerge op (srcs.map f) :=
    foldMerge_map_filter f _ srcs fun j hj _ => hf j hj
  rw [← hsame, filter_false]
  rfl

end

theorem Tombstone.applyAll_map_none {ι : Type*} {srcs : List ι} {f : ι → Tombstone}
    (hf : ∀ j ∈ srcs, f j = Tombstone.none) : applyAll (srcs.map f) = Tombstone.none := by
  refine le_antisymm (applyAll_le_iff.mpr fun t ht => ?_) (none_le _)
  obtain ⟨j, hj, rfl⟩ := mem_map.mp ht
  exact (hf j hj).le

theorem Tombstone.applyAll_map_single {ι : Type*} {srcs : List ι} {v : ι} (hv : v ∈ srcs)
    {f : ι → Tombstone} (hf : ∀ j ∈ srcs, j ≠ v → f j = Tombstone.none) :
    applyAll (srcs.map f) = f v := by
  refine le_antisymm (applyAll_le_iff.mpr fun t ht => ?_)
    (applyAll_le_iff.mp le_rfl _ (mem_map_of_mem hv))
  obtain ⟨j, hj, rfl⟩ := mem_map.mp ht
  by_cases hj' : j = v
  · rw [hj']
  · rw [hf j hj hj']
    exact none_le _

variable {l : Limits} {columns : List ColumnKind} {c : AtomicCell}

theorem CellOf.within_none (hl : l.tombstone Tombstone.none) (k : ColumnKind) :
    CellOf.Within l k none := by
  cases k with
  | atomic => exact fun c hc => nomatch hc
  | counter => exact fun c hc => nomatch hc
  | collection kt => exact ⟨hl, fun key c hc => nomatch hc⟩

theorem Row.within_single (hl : l.tombstone Tombstone.none) {i : Fin columns.length}
    {c : CellOf (columns.get i)} (hc : CellOf.Within l _ (some c)) (j : Fin columns.length) :
    CellOf.Within l _ (single i c j) := by
  by_cases hj : j = i
  · subst hj
    rwa [single_self]
  · rw [single_of_ne hj]
    exact CellOf.within_none hl _

theorem DeletableRow.within_empty (hl : l.tombstone Tombstone.none) :
    (DeletableRow.empty : DeletableRow columns).Within l :=
  ⟨hl, (fun _ hc => nomatch hc), fun _ => CellOf.within_none hl _⟩

namespace MutationPartition

variable {s : Schema} {P : Type*} [LinearOrder P]

def ofRow (tomb : Tombstone) (static : Row s.staticColumns) (x : P)
    (row : DeletableRow s.regularColumns) : MutationPartition s P where
  tombstone := tomb
  staticRow := static
  staticRowContinuous := true
  rows := [⟨x, row, false, true, by simp⟩]
  rows_sorted := pairwise_singleton _ _
  rowTombstones := .empty

variable {tomb : Tombstone} {static : Row s.staticColumns} {x : P}
  {row : DeletableRow s.regularColumns}

theorem rowOf_ofRow (y : P) :
    (ofRow tomb static x row).rowOf y = if y = x then row else DeletableRow.empty := by
  by_cases h : y = x
  · simp [rowOf, rowAt, ofRow, lookupBy, RowsEntry.content, h]
  · simp [rowOf, rowAt, ofRow, lookupBy, h]

@[simp] theorem rangeTombstoneForRow_ofRow (y : P) :
    (ofRow tomb static x row).rangeTombstoneForRow y = tomb := Tombstone.apply_none tomb

theorem isRegular_ofRow (h : row.deletedAt.IsRegular) : (ofRow tomb static x row).IsRegular := by
  intro e he
  obtain rfl := mem_singleton.mp he
  exact h

theorem within_ofRow (hl : l.tombstone Tombstone.none) (htomb : l.tombstone tomb)
    (hstatic : ∀ i, CellOf.Within l _ (static i)) (hrow : row.Within l) :
    (ofRow tomb static x row).Within l where
  tombstone := htomb
  staticRow := hstatic
  range y := by rwa [rangeTombstoneForRow_ofRow]
  rows y := by
    rw [rowOf_ofRow]
    split
    · exact hrow
    · exact DeletableRow.within_empty hl

def ofTombstone (x : P) (tomb : Tombstone) : MutationPartition s P :=
  ofRow tomb Row.empty x DeletableRow.empty

theorem rowOf_ofTombstone (y : P) :
    (ofTombstone x tomb : MutationPartition s P).rowOf y = DeletableRow.empty := by
  rw [ofTombstone, rowOf_ofRow, ite_self]

theorem tombstoneOver_ofTombstone (y : P) :
    (ofTombstone x tomb : MutationPartition s P).tombstoneOver y = tomb := by
  rw [tombstoneOver, rowOf_ofTombstone, ofTombstone, rangeTombstoneForRow_ofRow]
  exact max_eq_left (Tombstone.none_le _)

theorem within_ofTombstone (hl : l.tombstone Tombstone.none)
    (htomb : l.tombstone tomb) : (ofTombstone x tomb : MutationPartition s P).Within l :=
  within_ofRow hl htomb (fun _ => CellOf.within_none hl _) (DeletableRow.within_empty hl)

theorem liveData_applyAll_ofRow {ι : Type*} [DecidableEq ι] {srcs : List ι} (hnodup : srcs.Nodup)
    {v : ι} (hv : v ∈ srcs) {tomb : ι → Tombstone} (htomb : tomb v = Tombstone.none)
    (hdel : row.deletedAt = RowTombstone.none)
    (hstatic : ∀ i, CellOf.Within .ttlPositive _ (static i))
    (hrow : row.Within .ttlPositive) {content : ι → MutationPartition s P}
    (hcontent : ∀ j, content j =
      if j = v then ofRow Tombstone.none static x row else ofTombstone x (tomb j)) (q : I64) :
    (applyAll (srcs.map content)).liveData q =
      (ofRow (Tombstone.applyAll (srcs.map tomb)) static x row).liveData q := by
  have hv' : content v = ofRow Tombstone.none static x row := by rw [hcontent, if_pos rfl]
  have hne : ∀ j, j ≠ v → content j = ofTombstone x (tomb j) := fun j hj => by
    rw [hcontent, if_neg hj]
  have hregular : row.deletedAt.IsRegular := hdel ▸ RowTombstone.isRegular_none
  have hrowOf : ∀ tomb y, ((ofRow tomb static x row).rowOf y).deletedAt = RowTombstone.none := by
    intro tomb y
    rw [rowOf_ofRow]
    split
    · exact hdel
    · rfl
  have hpositive : ∀ tomb, (ofRow tomb static x row).Within .ttlPositive :=
    fun tomb => within_ofRow trivial trivial hstatic hrow
  ext1
  · funext i
    have htombs : srcs.map (tombstone ∘ content) = srcs.map tomb := by
      refine map_congr_left fun j _ => ?_
      by_cases hj : j = v
      · rw [hj, comp_apply, hv', htomb]
        rfl
      · rw [comp_apply, hne j hj]
        rfl
    simp only [liveData, tombstone_applyAll, staticRow_applyAll, map_map, htombs]
    refine congrArg _ ((foldMerge_map_single hnodup hv fun j _ hj => ?_).trans ?_)
    · rw [comp_apply, hne j hj]
      rfl
    · rw [comp_apply, hv']
      rfl
  · funext y
    have hps : ∀ p ∈ srcs.map content, p.IsRegular ∧ p.Within .ttlPositive := by
      intro p hp
      obtain ⟨j, -, rfl⟩ := mem_map.mp hp
      by_cases hj : j = v
      · rw [hj, hv']
        exact ⟨isRegular_ofRow hregular, hpositive _⟩
      · rw [hne j hj]
        exact ⟨isRegular_ofRow rfl, within_ofTombstone trivial trivial⟩
    have htombs : srcs.map ((fun p => p.tombstoneOver y) ∘ content) = srcs.map tomb := by
      refine map_congr_left fun j _ => ?_
      by_cases hj : j = v
      · rw [hj, comp_apply, hv', htomb, tombstoneOver, hrowOf, rangeTombstoneForRow_ofRow]
        rfl
      · rw [comp_apply, hne j hj, tombstoneOver_ofTombstone]
    have hmarker : foldMerge AtomicCell.apply
        (srcs.map ((fun p => (p.rowOf y).marker.toCell) ∘ content)) =
          ((ofRow Tombstone.none static x row).rowOf y).marker.toCell := by
      rw [foldMerge_map_single hnodup hv fun j _ hj => ?_, comp_apply, hv']
      rw [comp_apply, hne j hj, rowOf_ofTombstone]
      rfl
    have hcells : ∀ i, foldMerge CellOf.apply
        (srcs.map ((fun p => (p.rowOf y).cells i) ∘ content)) =
          ((ofRow Tombstone.none static x row).rowOf y).cells i := by
      intro i
      rw [foldMerge_map_single hnodup hv fun j _ hj => ?_, comp_apply, hv']
      rw [comp_apply, hne j hj, rowOf_ofTombstone]
      rfl
    have hsame : ∀ tomb, (ofRow tomb static x row).rowOf y =
        (ofRow Tombstone.none static x row).rowOf y := fun tomb => by rw [rowOf_ofRow, rowOf_ofRow]
    rw [rows_liveData_applyAll (fun p hp => (hps p hp).1) (fun p hp => (hps p hp).2)]
    simp only [map_map, htombs, hmarker, hcells, liveData, rangeTombstoneForRow_ofRow, hsame]
    rw [DeletableRow.read_of_isRegular (hrowOf _ y ▸ RowTombstone.isRegular_none)
      fun _ => ((hpositive Tombstone.none).rows y).marker, hrowOf]
    simp only [RowTombstone.none, Tombstone.apply_none]

theorem rows_liveData_ofRow (hdel : row.deletedAt = RowTombstone.none)
    (hrow : row.Within .ttlPositive) (tomb : Tombstone) (static : Row s.staticColumns) (x : P)
    (q : I64) :
    ((ofRow tomb static x row).liveData q).rows x =
      let seen := AtomicCell.read tomb q row.marker.toCell
      ⟨seen, fun i => CellOf.read tomb q _
        (if s.hasBaseNonPkColumnsInViewPk && seen.isNone then none else row.cells i)⟩ := by
  simp only [liveData, rangeTombstoneForRow_ofRow, rowOf_ofRow, if_true]
  rw [DeletableRow.read_of_isRegular (hdel ▸ RowTombstone.isRegular_none) fun _ => hrow.marker,
    hdel]
  simp only [RowTombstone.none, Tombstone.apply_none]

end MutationPartition

theorem RowMarker.toCell_live (hset : timestamp ≠ missingTimestamp) :
    ({ timestamp } : RowMarker).toCell = some (.live timestamp []) := by
  have hne : (0 : I64) ≠ deadTtl := by decide
  simp [toCell, isMissing, hset, noTtl, hne]

theorem RowMarker.missingTimestamp_lt_of_toCell {m : RowMarker} (hc : m.toCell = some c) :
    missingTimestamp < c.timestamp := by
  rw [timestamp_of_toCell hc]
  exact lt_of_le_of_ne (missingTimestamp_le _) fun h => (toCell_eq_some hc).1 h.symm

theorem AtomicCell.read_none_some (hset : missingTimestamp < c.timestamp)
    (hlive : liveNow q c = some c) : read Tombstone.none q (some c) = some c := by
  exact read_eq_some_iff.mpr ⟨rfl, hset, by rw [hlive]; nofun⟩

def CounterCell.plain (timestamp : I64) : CounterCell := .live timestamp ⟨[], List.Pairwise.nil⟩

theorem CellOf.exists_counter {k : ColumnKind} (hk : k = .counter)
    (hset : missingTimestamp < timestamp) :
    ∃ c : CellOf k,
      (∀ l : Limits, l.counter (.plain timestamp) → CellOf.Within l k (some c)) ∧
      ∀ (q : I64) (t t' : Tombstone), t.isSet = true →
        CellOf.read t q k (some c) = CellOf.read t' q k none ∧
        CellOf.read Tombstone.none q k (some c) ≠ CellOf.read t' q k none := by
  subst hk
  refine ⟨CounterCell.plain timestamp, fun l hl c hc => ?_, fun q t t' ht => ⟨?_, ?_⟩⟩
  · cases hc
    exact hl
  · have hcovered : CounterCell.survivor t (.plain timestamp) = none := if_pos (.inr ht)
    change CounterCell.read t (some (.plain timestamp)) = none
    rw [CounterCell.read, Option.bind_some, hcovered, Option.filter_none]
  · have hsurvives : CounterCell.survivor Tombstone.none (.plain timestamp) =
        some (.plain timestamp) := by
      refine if_neg (not_or.mpr ⟨not_le.mpr hset, ?_⟩)
      decide
    change CounterCell.read Tombstone.none (some (.plain timestamp)) ≠ none
    rw [CounterCell.read, Option.bind_some, hsurvives]
    exact Option.some_ne_none _

end Mutation

namespace Compaction

open Mutation

variable {T B : Type*} [LinearOrder T] [LinearOrder B]

namespace TableState

variable {t : TableState T B} {s : Schema} {P : Type*} [LinearOrder P] [Inhabited P]

theorem nodup_sources (t : TableState T B) : t.sources.Nodup := by
  have hall : t.allSstables.Nodup :=
    t.generations.imp fun h heq => h (congrArg Sstable.generation heq)
  refine Nodup.append (hall.map Sum.inl_injective)
    ((nodup_finRange _).map Sum.inr_injective) ?_
  intro src hl hr
  obtain ⟨x, -, rfl⟩ := mem_map.mp hl
  obtain ⟨i, -, hi⟩ := mem_map.mp hr
  cases hi

theorem limits_none (src : t.Source) : (t.limits src).tombstone Tombstone.none := by
  cases src with
  | inl x => exact .inl rfl
  | inr i => exact trivial

/-- A row that a source may have under a key, and nothing else there. -/
structure RowIn (s : Schema) (v : t.Source) (k : T ×ₗ B) where
  static : Row s.staticColumns
  row : DeletableRow s.regularColumns
  has : t.Has v k
  deletedAt : row.deletedAt = RowTombstone.none
  static_within : ∀ i, CellOf.Within (t.limits v) _ (static i)
  static_ttlPositive : ∀ i, CellOf.Within .ttlPositive _ (static i)
  row_within : row.Within (t.limits v)
  row_ttlPositive : row.Within .ttlPositive

variable {v : t.Source} {k : T ×ₗ B}

def Contents.ofRow (r : RowIn s v k) (tomb : t.Source → Tombstone)
    (htomb : ∀ src, tomb src = Tombstone.none ∨ t.Has src k ∧ (t.limits src).tombstone (tomb src)) :
    t.Contents s P where
  partitionOf src key :=
    if key = k then
      if src = v then .ofRow Tombstone.none r.static default r.row
      else .ofTombstone default (tomb src)
    else .ofTombstone default Tombstone.none
  within src key := by
    have hnone := t.limits_none src
    split
    · split
      · next h =>
        subst h
        exact MutationPartition.within_ofRow hnone hnone r.static_within r.row_within
      · refine MutationPartition.within_ofTombstone hnone ?_
        rcases htomb src with h | h
        · rwa [h]
        · exact h.2
    · exact MutationPartition.within_ofTombstone hnone hnone
  absent src key hhas := by
    split
    · next hkey =>
      subst hkey
      split
      · next h =>
        subst h
        exact absurd r.has hhas
      · rw [(htomb src).resolve_right fun h => hhas h.1]
        exact MutationPartition.within_ofTombstone rfl rfl
    · exact MutationPartition.within_ofTombstone rfl rfl
  regular src key := by
    split
    · split
      · exact MutationPartition.isRegular_ofRow (r.deletedAt ▸ RowTombstone.isRegular_none)
      · exact MutationPartition.isRegular_ofRow rfl
    · exact MutationPartition.isRegular_ofRow rfl
  ttlPositive src key := by
    split
    · split
      · exact MutationPartition.within_ofRow trivial trivial r.static_ttlPositive r.row_ttlPositive
      · exact MutationPartition.within_ofTombstone trivial trivial
    · exact MutationPartition.within_ofTombstone trivial trivial

theorem Contents.read_ofRow (r : RowIn s v k) {tomb : t.Source → Tombstone}
    (htomb : ∀ src, tomb src = Tombstone.none ∨ t.Has src k ∧ (t.limits src).tombstone (tomb src))
    (hv : tomb v = Tombstone.none) {srcs : List t.Source} (hnodup : srcs.Nodup) (hmem : v ∈ srcs)
    (q : I64) :
    (Contents.ofRow (P := P) r tomb htomb).read srcs k q =
      (MutationPartition.ofRow (Tombstone.applyAll (srcs.map tomb)) r.static default r.row).liveData
        q := by
  refine MutationPartition.liveData_applyAll_ofRow hnodup hmem hv r.deletedAt r.static_ttlPositive
    r.row_ttlPositive (fun src => ?_) q
  exact if_pos rfl

theorem mem_keep {dropped : List (Sstable T B)} {x : Sstable T B} :
    t.keep dropped (.inl x) = true ↔ x ∉ dropped := decide_eq_true_iff

end TableState

def Sstable.newestTombstone (x : Sstable T B) : Tombstone where
  timestamp := x.maxTimestamp
  deletionTime := x.maxLocalDeletionTime
  unset h := absurd h (x.minTimestamp_set.trans_le x.minTimestamp_le).ne'

theorem Sstable.limits_newestTombstone (x : Sstable T B) : x.limits.tombstone x.newestTombstone :=
  .inr ⟨x.minTimestamp_le, le_rfl, le_rfl⟩

theorem Sstable.exists_marker {x : Sstable T B} {now : I64} (h : x.MayBeLive now) :
    ∃ (m : RowMarker) (c : AtomicCell), m.toCell = some c ∧ c.timestamp = x.minTimestamp ∧
      x.limits.cell c ∧ Limits.ttlPositive.cell c ∧ AtomicCell.liveNow now c = some c := by
  have hset : x.minTimestamp ≠ missingTimestamp := x.minTimestamp_set.ne'
  by_cases hmax : x.maxLocalDeletionTime = noDeletionTime
  · exact ⟨{ timestamp := x.minTimestamp }, .live x.minTimestamp [], RowMarker.toCell_live hset,
      rfl, ⟨le_rfl, x.minTimestamp_le, hmax.ge⟩, nofun, rfl⟩
  · have hlt : ¬x.maxLocalDeletionTime ≤ now := not_le.mpr (h.resolve_right hmax)
    refine ⟨⟨x.minTimestamp, 1, x.maxLocalDeletionTime⟩,
      .expiring x.minTimestamp [] x.maxLocalDeletionTime 1, ?_, rfl,
      ⟨le_rfl, x.minTimestamp_le, le_rfl⟩, fun _ => show (0 : I64) < 1 by decide, ?_⟩
    · have hne : (1 : I64) ≠ RowMarker.deadTtl := by decide
      have hne' : (1 : I64) ≠ RowMarker.noTtl := by decide
      simp [RowMarker.toCell, RowMarker.isMissing, hset, hne, hne']
    · simp [AtomicCell.liveNow, AtomicCell.isLive, AtomicCell.hasExpired, AtomicCell.expiry,
        AtomicCell.isLiveAndHasTtl, hlt]

namespace TableState

variable (t : TableState T B) (s : Schema) (P : Type*) [LinearOrder P]
  (compacting : List (Sstable T B)) (compactionTime : I64)

def DroppingUnnoticed : Prop :=
  ∀ (c : t.Contents s P) (k : T ×ₗ B) (q : I64), compactionTime ≤ q →
    c.read (t.sources.filter (t.keep (t.getFullyExpiredSstables compacting compactionTime))) k q =
      c.read t.sources k q

variable {t s P compacting compactionTime} [Inhabited P]

def RowIn.ofMarker {v : t.Source} {k : T ×ₗ B} (has : t.Has v k) {m : RowMarker} {c : AtomicCell}
    (hm : m.toCell = some c) (hc : (t.limits v).cell c) (hpositive : Limits.ttlPositive.cell c) :
    RowIn s v k where
  static := Row.empty
  row := ⟨RowTombstone.none, m, Row.empty⟩
  has := has
  deletedAt := rfl
  static_within _ := CellOf.within_none (limits_none v) _
  static_ttlPositive _ := CellOf.within_none trivial _
  row_within := by
    refine ⟨limits_none v, fun d hd => ?_, fun _ => CellOf.within_none (limits_none v) _⟩
    cases hm.symm.trans hd
    exact hc
  row_ttlPositive := by
    refine ⟨trivial, fun d hd => ?_, fun _ => CellOf.within_none trivial _⟩
    cases hm.symm.trans hd
    exact hpositive

section

variable (hsub : compacting ⊆ t.sstables) (h : t.DroppingUnnoticed s P compacting compactionTime)
  {d : Sstable T B} (hd : t.Droppable compacting compactionTime d)

include hsub h hd

theorem DroppingUnnoticed.dead : d.maxLocalDeletionTime ≤ compactionTime := by
  by_contra hlt
  obtain ⟨m, c, hm, -, hc, hpositive, hlive⟩ := d.exists_marker (.inl (not_le.mp hlt))
  have hhas : t.Has (.inl d) d.first := ⟨le_rfl, d.first_le_last⟩
  let r : RowIn s (.inl d) d.first := RowIn.ofMarker hhas hm hc hpositive
  let contents : t.Contents s P := .ofRow r (fun _ => Tombstone.none) fun _ => .inl rfl
  have hmem : Sum.inl d ∈ t.sources :=
    mem_append_left _ (mem_map_of_mem (mem_append_left _ (hsub hd.mem)))
  have hnone : Tombstone.applyAll (t.sources.map fun _ => Tombstone.none) = Tombstone.none :=
    Tombstone.applyAll_map_none fun _ _ => rfl
  have hall : ((contents.read t.sources d.first compactionTime).rows default).marker = some c := by
    rw [Contents.read_ofRow r _ rfl t.nodup_sources hmem, hnone,
      MutationPartition.rows_liveData_ofRow r.deletedAt r.row_ttlPositive]
    exact hm ▸ AtomicCell.read_none_some (RowMarker.missingTimestamp_lt_of_toCell hm) hlive
  have hps : ∀ srcs : List t.Source, ∀ p ∈ srcs.map fun src => contents.partitionOf src d.first,
      p.IsRegular ∧ p.Within .ttlPositive := by
    intro srcs p hp
    obtain ⟨src, -, rfl⟩ := mem_map.mp hp
    exact ⟨contents.regular src _, contents.ttlPositive src _⟩
  rw [← h contents d.first compactionTime le_rfl, Contents.read,
    MutationPartition.rows_liveData_applyAll (fun p hp => (hps _ p hp).1)
      (fun p hp => (hps _ p hp).2), map_map, map_map, foldMerge_map_none] at hall
  · cases hall
  · intro src hsrc
    have hne : src ≠ .inl d := by
      rintro rfl
      exact mem_keep.mp (mem_filter.mp hsrc).2 ((mem_getFullyExpiredSstables hsub).mpr hd)
    have hblank : contents.partitionOf src d.first = .ofTombstone default Tombstone.none :=
      (if_pos rfl).trans (if_neg hne)
    rw [comp_apply, hblank, MutationPartition.rowOf_ofTombstone]
    rfl

variable {k : T ×ₗ B} {v : t.Source}

section

variable (hk : d.Covers k) (hv : v ∈ t.sources)
  (hkept : t.keep (t.getFullyExpiredSstables compacting compactionTime) v)

include hk hv hkept

theorem DroppingUnnoticed.ofRow_eq (r : RowIn s v k) {tomb : Tombstone}
    (htomb : d.limits.tombstone tomb) (hq : compactionTime ≤ q) :
    (MutationPartition.ofRow Tombstone.none r.static (default : P) r.row).liveData q =
      (MutationPartition.ofRow tomb r.static default r.row).liveData q := by
  have hdropped := (mem_getFullyExpiredSstables hsub).mpr hd
  have hne : ∀ src, t.keep (t.getFullyExpiredSstables compacting compactionTime) src →
      src ≠ .inl d := by
    rintro src hsrc rfl
    exact mem_keep.mp hsrc hdropped
  let tombs (src : t.Source) : Tombstone := if src = .inl d then tomb else Tombstone.none
  have htombs : ∀ src, tombs src = Tombstone.none ∨
      t.Has src k ∧ (t.limits src).tombstone (tombs src) := by
    intro src
    by_cases hsrc : src = .inl d
    · subst hsrc
      refine .inr ⟨hk, ?_⟩
      rw [show tombs (.inl d) = tomb from if_pos rfl]
      exact htomb
    · exact .inl (if_neg hsrc)
  have hmem : Sum.inl d ∈ t.sources :=
    mem_append_left _ (mem_map_of_mem (mem_append_left _ (hsub hd.mem)))
  have hall : Tombstone.applyAll (t.sources.map tombs) = tomb :=
    (Tombstone.applyAll_map_single hmem fun src _ hsrc => if_neg hsrc).trans (if_pos rfl)
  have hfew : Tombstone.applyAll ((t.sources.filter
      (t.keep (t.getFullyExpiredSstables compacting compactionTime))).map tombs) =
        Tombstone.none :=
    Tombstone.applyAll_map_none fun src hsrc => if_neg (hne src (mem_filter.mp hsrc).2)
  have hread := h (.ofRow r tombs htombs) k q hq
  rwa [Contents.read_ofRow r htombs (if_neg (hne v hkept)) (t.nodup_sources.filter _)
      (mem_filter.mpr ⟨hv, hkept⟩), Contents.read_ofRow r htombs (if_neg (hne v hkept))
      t.nodup_sources hv, hfew, hall] at hread

theorem DroppingUnnoticed.lt_timestamp (hhas : t.Has v k) {m : RowMarker} {c : AtomicCell}
    (hm : m.toCell = some c) (hc : (t.limits v).cell c) (hpositive : Limits.ttlPositive.cell c)
    (hlive : AtomicCell.liveNow compactionTime c = some c) : d.maxTimestamp < c.timestamp := by
  let r : RowIn s v k := RowIn.ofMarker hhas hm hc hpositive
  have heq := h.ofRow_eq hsub hd hk hv hkept r d.limits_newestTombstone le_rfl
  have hmarker := congrArg (fun l => (l.rows default).marker) heq
  simp only [MutationPartition.rows_liveData_ofRow r.deletedAt r.row_ttlPositive] at hmarker
  rw [show r.row.marker.toCell = some c from hm, AtomicCell.read_none_some
    (RowMarker.missingTimestamp_lt_of_toCell hm) hlive] at hmarker
  exact (AtomicCell.read_eq_some_iff.mp hmarker.symm).2.1

theorem DroppingUnnoticed.not_hasCounters (hhas : t.Has v k)
    (hset : missingTimestamp < timestamp) (hcell : (t.limits v).cell (.live timestamp []))
    (hcounter : (t.limits v).counter (.plain timestamp)) : ¬s.HasCounters := by
  have htomb : d.newestTombstone.isSet = true :=
    decide_eq_true (d.minTimestamp_set.trans_le d.minTimestamp_le).ne'
  have hnone := limits_none v
  rintro (hs | hs)
  · obtain ⟨i, hi⟩ := mem_iff_get.mp hs
    obtain ⟨c, hc, hread⟩ := CellOf.exists_counter hi hset
    let r : RowIn s v k :=
      { static := Row.single i c
        row := DeletableRow.empty
        has := hhas
        deletedAt := rfl
        static_within := Row.within_single hnone (hc _ hcounter)
        static_ttlPositive := Row.within_single trivial (hc _ trivial)
        row_within := DeletableRow.within_empty hnone
        row_ttlPositive := DeletableRow.within_empty trivial }
    have heq := h.ofRow_eq hsub hd hk hv hkept r d.limits_newestTombstone le_rfl
    have hcell := congrFun (congrArg MutationPartition.LiveData.staticRow heq) i
    have hself : r.static i = some c := Row.single_self i c
    obtain ⟨hhidden, hseen⟩ := hread compactionTime d.newestTombstone Tombstone.none htomb
    refine hseen (Eq.trans ?_ hhidden)
    rw [← hself]
    exact hcell
  · obtain ⟨i, hi⟩ := mem_iff_get.mp hs
    obtain ⟨c, hc, hread⟩ := CellOf.exists_counter hi hset
    have hm := RowMarker.toCell_live hset.ne'
    have hmarker : ∀ l : Limits, l.cell (.live timestamp []) →
        ∀ d ∈ ({ timestamp } : RowMarker).toCell, l.cell d := by
      intro l hl d hd
      cases hm.symm.trans hd
      exact hl
    let r : RowIn s v k :=
      { static := Row.empty
        row := ⟨RowTombstone.none, { timestamp }, Row.single i c⟩
        has := hhas
        deletedAt := rfl
        static_within := fun _ => CellOf.within_none hnone _
        static_ttlPositive := fun _ => CellOf.within_none trivial _
        row_within := ⟨hnone, hmarker _ hcell, Row.within_single hnone (hc _ hcounter)⟩
        row_ttlPositive := ⟨trivial, hmarker _ nofun, Row.within_single trivial (hc _ trivial)⟩ }
    have heq := h.ofRow_eq hsub hd hk hv hkept r d.limits_newestTombstone le_rfl
    have hcells := congrArg (fun l => (l.rows default).cells i) heq
    have hself : r.row.cells i = some c := Row.single_self i c
    have hseen : AtomicCell.read Tombstone.none compactionTime r.row.marker.toCell =
        some (.live timestamp []) := by
      rw [show r.row.marker.toCell = _ from hm]
      exact AtomicCell.read_none_some hset rfl
    simp only [MutationPartition.rows_liveData_ofRow r.deletedAt r.row_ttlPositive, hseen, hself,
      Option.isNone_some, Bool.and_false] at hcells
    obtain ⟨hhidden, hne⟩ := hread compactionTime d.newestTombstone d.newestTombstone htomb
    refine hne (hcells.trans ?_)
    split
    · rfl
    · exact hhidden

end

end

/-- Dropping the fully expired sstables goes unnoticed, whatever contents the statistics bound,
exactly when everything droppable is safe to drop. -/
theorem droppingUnnoticed_iff (hsub : compacting ⊆ t.sstables) :
    t.DroppingUnnoticed s P compacting compactionTime ↔
      ∀ d, t.Droppable compacting compactionTime d →
        t.SafeToDrop s compacting compactionTime d := by
  refine ⟨fun h d hd => ⟨h.dead hsub hd, ?_, ?_⟩, fun h c k q hq => c.read_keep hsub h k hq⟩
  · intro m hm k hk hkey
    obtain ⟨i, rfl⟩ := mem_iff_get.mp hm
    have hv : Sum.inr i ∈ t.sources :=
      mem_append_right _ (mem_map_of_mem (mem_finRange i))
    have hset : missingTimestamp < d.maxTimestamp := d.minTimestamp_set.trans_le d.minTimestamp_le
    refine ⟨?_, ?_⟩
    · by_contra hle
      exact lt_irrefl _ (h.lt_timestamp hsub hd hk hv rfl hkey (RowMarker.toCell_live hset.ne')
        (fun _ => not_lt.mp hle) nofun rfl)
    · exact h.not_hasCounters hsub hd hk hv rfl hkey (t.memtables.get i).minLiveTimestamp_set
        (fun _ => le_rfl) (fun _ => le_rfl)
  · intro x hx hstays hlive k hk hxk
    have hv : Sum.inl x ∈ t.sources := mem_append_left _ (mem_map_of_mem hx)
    have hkept : t.keep (t.getFullyExpiredSstables compacting compactionTime) (.inl x) :=
      mem_keep.mpr fun hmem => hstays ((mem_getFullyExpiredSstables hsub).mp hmem)
    obtain ⟨m, c, hm, htimestamp, hc, hpositive, hnow⟩ := x.exists_marker hlive
    refine ⟨?_, fun hmax => ?_⟩
    · rw [← htimestamp]
      exact h.lt_timestamp hsub hd hk hv hkept hxk hm hc hpositive hnow
    · exact h.not_hasCounters hsub hd hk hv hkept hxk x.minTimestamp_set
        ⟨le_rfl, x.minTimestamp_le, hmax.ge⟩ ⟨le_rfl, x.minTimestamp_le, hmax.ge⟩

end TableState

/-! ## Two tables -/

/-- An sstable that was deleted from at time 5, written at time stamps up to 10. -/
def expiredSstable : Sstable ℕ ℕ where
  generation := 1
  first := toLex (0, 0)
  last := toLex (9, 0)
  minTimestamp := 10
  maxTimestamp := 10
  maxLocalDeletionTime := 5
  compactionAncestors := []
  first_le_last := by decide
  minTimestamp_set := by decide
  minTimestamp_le := by decide
  maxLocalDeletionTime_le := by decide

/-- An sstable with live data written after the expired one. -/
def liveSstable : Sstable ℕ ℕ where
  generation := 2
  first := toLex (0, 0)
  last := toLex (9, 0)
  minTimestamp := 20
  maxTimestamp := 25
  maxLocalDeletionTime := noDeletionTime
  compactionAncestors := []
  first_le_last := by decide
  minTimestamp_set := by decide
  minTimestamp_le := by decide
  maxLocalDeletionTime_le := by decide

def tableWithMemtable (minLiveTimestamp : I64) (h : missingTimestamp < minLiveTimestamp) :
    TableState ℕ ℕ where
  sstables := [expiredSstable, liveSstable]
  compactedUndeleted := []
  memtables := [⟨fun _ => true, minLiveTimestamp, h⟩]
  getGcBeforeForRange _ _ queryTime := ⟨queryTime - 10, true⟩
  generations := by decide

/-- Next to newer data the expired sstable goes unnoticed. -/
theorem droppingUnnoticed_newer_memtable :
    (tableWithMemtable 30 (by decide)).DroppingUnnoticed ⟨[], [.atomic], false⟩ ℕ
      [expiredSstable] 20 := by
  refine (TableState.droppingUnnoticed_iff (by simp [tableWithMemtable])).mpr fun d hd => ?_
  obtain rfl := mem_singleton.mp hd.mem
  have hcounters : ¬Schema.HasCounters ⟨[], [.atomic], false⟩ := by
    rintro (h | h)
    · cases h
    · cases mem_singleton.mp h
  have hgc : (20 - 10 : I64) ≤ 20 := by decide
  refine hd.safeToDrop (fun _ _ => hgc) hcounters fun m hm k _ _ => ?_
  obtain rfl := mem_singleton.mp hm
  decide

/-- The expired sstable is dropped although its tombstone hides a row of the memtable. -/
theorem not_droppingUnnoticed_older_memtable :
    (tableWithMemtable 5 (by decide)).getFullyExpiredSstables [expiredSstable] 20 =
        [expiredSstable] ∧
      ¬(tableWithMemtable 5 (by decide)).DroppingUnnoticed ⟨[], [.atomic], false⟩ ℕ
        [expiredSstable] 20 := by
  have hdropped : (tableWithMemtable 5 (by decide)).getFullyExpiredSstables [expiredSstable] 20 =
      [expiredSstable] := by decide +kernel
  refine ⟨hdropped, fun h => ?_⟩
  have hsub : [expiredSstable] ⊆ (tableWithMemtable 5 (by decide)).sstables := by
    simp [tableWithMemtable]
  have hd := (TableState.mem_getFullyExpiredSstables hsub).mp (hdropped ▸ mem_singleton_self _)
  -- the memtable has a row written at 5 under the first key
  have hmem : Sum.inr ⟨0, Nat.one_pos⟩ ∈ (tableWithMemtable 5 (by decide)).sources :=
    mem_append_right _ (mem_map_of_mem (mem_finRange _))
  have hlt := h.lt_timestamp hsub hd (k := toLex (0, 0)) (by decide) hmem rfl rfl
    (RowMarker.toCell_live (by decide)) (c := .live 5 []) (fun _ => le_rfl) nofun rfl
  exact absurd hlt (by decide)

end Compaction

end Scylla
