import Scylla.Mutation.Convergence
import Scylla.Mutation.Expiry
import Scylla.Mutation.Liveness

/-!
# Compacting a partition before it is merged

When `compact_for_compaction` may not purge anything, a partition keeps its effective tombstones,
and a reader of its merge with another version sees what it would have seen without the compaction,
except where an expired cell ties with one that lives longer, or where a view row without live
marker loses its cells.
-/

namespace Scylla.Mutation

open DeletableRow
open Option

namespace RowTombstone

theorem isRegular_ofRegular (t : Tombstone) : (ofRegular t).IsRegular := rfl

theorem shadowable_apply_ofRegular {a : RowTombstone} (ha : a.IsRegular) (t : Tombstone)
    (marker : RowMarker) : (a.apply (ofRegular t) marker).shadowable = t.apply a.shadowable := by
  rw [shadowable_apply ha (isRegular_ofRegular t), Tombstone.apply_eq_max, Tombstone.apply_eq_max]
  exact max_comm _ _

theorem eq_none_of_not_isSet {t : RowTombstone} (h : t.tomb.isSet = false) : t = none := by
  obtain ⟨regular, shadowable, hle⟩ := t
  obtain rfl : shadowable = Tombstone.none := Tombstone.eq_none_of_not_isSet h
  obtain rfl : regular = Tombstone.none := le_antisymm hle (Tombstone.none_le _)
  rfl

end RowTombstone

namespace DeletableRow

variable {s : Schema}

theorem isEmpty_iff {columns : List ColumnKind} {r : DeletableRow columns} :
    r.isEmpty = true ↔ r.deletedAt = RowTombstone.none ∧ r.marker.isMissing = true ∧
      r.cells = Row.empty := by
  unfold isEmpty
  simp only [Bool.and_eq_true, Bool.not_eq_true', decide_eq_true_eq, and_assoc]
  refine and_congr ⟨RowTombstone.eq_none_of_not_isSet, fun h => by rw [h]; rfl⟩
    (and_congr_right' ⟨fun h => funext fun i => isNone_iff_eq_none.mp (h i), ?_⟩)
  intro h i
  rw [h]
  rfl

@[ext] structure Live (columns : List ColumnKind) where
  /-- The marker, as a cell with an empty value. -/
  marker : Option AtomicCell
  cells : (i : Fin columns.length) → ReadOf (columns.get i)

def read (s : Schema) (tomb : Tombstone) (q : I64) (r : DeletableRow s.regularColumns) :
    Live s.regularColumns :=
  let deletedAt := r.deletedAt.apply (RowTombstone.ofRegular tomb) r.marker
  let marker := Id.run (r.marker.compactAndExpire neverGc deletedAt.tomb q q)
  { marker := AtomicCell.read deletedAt.tomb q r.marker.toCell
    cells := fun i => CellOf.read (cellTombstone s marker deletedAt).tomb q _ (r.cells i) }

end DeletableRow

/-- `compact_and_expire` of an entry that is not a dummy. -/
def RowsEntry.compactAndExpire {s : Schema} {P : Type*} (canGc : Tombstone → Bool → Id Bool)
    (tomb : Tombstone) (queryTime gcBefore : I64) (e : RowsEntry s.regularColumns P) :
    RowsEntry s.regularColumns P :=
  if h : e.dummy = true then e
  else { e with
    row := Id.run (e.row.compactAndExpire canGc s tomb queryTime gcBefore)
    dummy_empty := fun h' => absurd h' h }

@[simp] theorem RowsEntry.position_compactAndExpire {s : Schema} {P : Type*}
    (canGc : Tombstone → Bool → Id Bool) (tomb : Tombstone) (queryTime gcBefore : I64)
    (e : RowsEntry s.regularColumns P) :
    (e.compactAndExpire canGc tomb queryTime gcBefore).position = e.position := by
  unfold compactAndExpire
  split <;> rfl

namespace MutationPartition

variable {s : Schema} {P : Type*} [LinearOrder P]

def rangeTombstoneForRow (p : MutationPartition s P) (x : P) : Tombstone :=
  p.tombstone.apply ((p.rowTombstones.cover x).getD Tombstone.none)

/-- The rows, each compacted under the tombstone over it. -/
def compactRows (canGc : Tombstone → Bool → Id Bool) (queryTime gcBefore : I64)
    (p : MutationPartition s P) : List (RowsEntry s.regularColumns P) :=
  p.rows.map fun e =>
    e.compactAndExpire canGc (p.rangeTombstoneForRow e.position) queryTime gcBefore

theorem sorted_compactRows (canGc : Tombstone → Bool → Id Bool) (queryTime gcBefore : I64)
    (p : MutationPartition s P) :
    SortedBy compare RowsEntry.position (p.compactRows canGc queryTime gcBefore) := by
  refine List.pairwise_map.mpr ?_
  simp only [RowsEntry.position_compactAndExpire]
  exact p.rows_sorted

/-- `mutation_partition::compact_for_compaction`, that is `do_compact` over all rows. -/
def compactForCompaction (canGc : Tombstone → Bool → Id Bool) (queryTime gcBefore : I64)
    (p : MutationPartition s P) : MutationPartition s P :=
  let shouldPurge (t : Tombstone) : Bool :=
    t.deletionTime < gcBefore && Id.run (canGc t false)
  { tombstone := if shouldPurge p.tombstone then Tombstone.none else p.tombstone
    staticRow := Id.run
      (p.staticRow.compactAndExpire canGc (RowTombstone.ofRegular p.tombstone) queryTime gcBefore)
    staticRowContinuous := p.staticRowContinuous
    rows := (p.compactRows canGc queryTime gcBefore).filter fun e => !e.row.isEmpty
    rows_sorted := (p.sorted_compactRows canGc queryTime gcBefore).filter _
    rowTombstones := p.rowTombstones.eraseWhere fun t => shouldPurge t || t ≤ p.tombstone }

/-- The row at a position; the default row where there is none. -/
def rowOf (p : MutationPartition s P) (x : P) : DeletableRow s.regularColumns :=
  (p.rowAt x).getD DeletableRow.empty

@[ext] structure LiveData (s : Schema) (P : Type*) where
  staticRow : (i : Fin s.staticColumns.length) → ReadOf (s.staticColumns.get i)
  rows : P → DeletableRow.Live s.regularColumns

def liveData (p : MutationPartition s P) (q : I64) : LiveData s P where
  staticRow i := CellOf.read p.tombstone q _ (p.staticRow i)
  rows x := (p.rowOf x).read s (p.rangeTombstoneForRow x) q

end MutationPartition

theorem AtomicCell.read_highest (q : I64) (x : Option AtomicCell) :
    read Tombstone.highest q x = none :=
  Option.eq_none_iff_forall_ne_some.mpr fun _ hc =>
    absurd (read_eq_some_iff.mp hc).2.1 (not_lt.mpr (I64.le_highest _))

theorem CounterCell.read_highest (x : Option CounterCell) : read Tombstone.highest x = none := by
  cases x with
  | none => rfl
  | some c =>
    have hcovered : survivor Tombstone.highest c = none := if_pos (.inr rfl)
    rw [read, Option.bind_some, hcovered, Option.filter_none]

theorem CellOf.read_highest (t : Tombstone) (q : I64) {k : ColumnKind} (x : Option (CellOf k)) :
    CellOf.read Tombstone.highest q k x = CellOf.read t q k none := by
  cases k with
  | atomic => exact AtomicCell.read_highest q x
  | counter => exact CounterCell.read_highest x
  | collection kt =>
    funext key
    have hmax : Tombstone.highest.apply (CollectionMutation.tombOf x) = Tombstone.highest := by
      rw [Tombstone.apply_eq_max]
      exact max_eq_left (Tombstone.le_highest _)
    change AtomicCell.read (Tombstone.highest.apply (CollectionMutation.tombOf x)) q
      (CollectionMutation.lookupOf x key) = none
    rw [hmax]
    exact AtomicCell.read_highest q _

theorem AtomicCell.Compacted.isLive_of_read {t : Tombstone} {now : I64} {x x' : Option AtomicCell}
    (h : Compacted t now x x') (hread : read t now x ≠ none) : x'.any isLive = true := by
  obtain ⟨c, hc⟩ := Option.ne_none_iff_exists'.mp hread
  obtain ⟨rfl, hlt, hnow⟩ := read_eq_some_iff.mp hc
  have hlive : c.isLive = true ∧ c.hasExpired now = false := by
    rw [liveNow] at hnow
    split_ifs at hnow with hcond
    · simpa using hcond
    · exact absurd rfl hnow
  rcases h with rfl | rfl <;> simp [survivor, hlt, expire, hlive]

/-- A marker that expires has a positive time to live. -/
def RowMarker.TtlPositive (m : RowMarker) : Prop :=
  ∀ c ∈ m.toCell, c.isLiveAndHasTtl = true → 0 < c.ttl

theorem RowMarker.TtlPositive.apply {a b : RowMarker} (ha : a.TtlPositive) (hb : b.TtlPositive) :
    (a.apply b).TtlPositive := by
  unfold RowMarker.apply keepGreater
  split
  · exact hb
  · exact ha

theorem RowMarker.isLive_compactAndExpire (t : Tombstone) (q gcBefore : I64) {m : RowMarker}
    (hm : m.TtlPositive) :
    (Id.run (m.compactAndExpire neverGc t q gcBefore)).isLive =
      (AtomicCell.read t q m.toCell).isSome := by
  obtain ⟨m', hrun, -, hcell⟩ := compactAndExpire_neverGc t q gcBefore m
  rw [hrun, Id.run_pure, isLive_eq, hcell hm, AtomicCell.read]
  cases m.toCell.bind (AtomicCell.survivor t) with
  | none => rfl
  | some c =>
    rw [Option.map_some, Option.any_some, Option.bind_some, AtomicCell.expire, AtomicCell.liveNow]
    cases hexpired : c.hasExpired q with
    | true => simp [AtomicCell.isLive]
    | false => cases hlive : c.isLive <;> simp [hlive]

theorem Row.run_compactAndExpire {columns : List ColumnKind} (canGc : Tombstone → Bool → Id Bool)
    (q gcBefore : I64) (tomb : RowTombstone) (r : Row columns) (i : Fin columns.length) :
    (r.compactAndExpire canGc tomb q gcBefore).run i =
      (r i).bind fun c => (CellOf.compactAndExpire canGc tomb q gcBefore _ c).run := by
  rw [compactAndExpire, finTraverse_id]
  unfold Id.run
  beta_reduce
  cases r i <;> rfl

namespace DeletableRow

variable {s : Schema}

/-- A row after an early compaction under the tombstone `tomb` of its range and partition. -/
structure Compacted {columns : List ColumnKind} (tomb : Tombstone) (now : I64)
    (r r' : DeletableRow columns) : Prop where
  regular : r'.deletedAt.IsRegular
  deletedAt : tomb.apply r'.deletedAt.shadowable = tomb.apply r.deletedAt.shadowable
  marker : AtomicCell.Compacted (tomb.apply r.deletedAt.shadowable) now r.marker.toCell
    r'.marker.toCell
  cells : ∀ i, CellOf.Compacted (tomb.apply r.deletedAt.shadowable) now _ (r.cells i) (r'.cells i)

variable {columns : List ColumnKind} {r : DeletableRow s.regularColumns}

theorem Compacted.ttlPositive {tomb : Tombstone} {now : I64} {r r' : DeletableRow columns}
    (h : Compacted tomb now r r') (hr : r.marker.TtlPositive) : r'.marker.TtlPositive := by
  intro c hc hlive
  refine hr c ?_ hlive
  rcases h.marker with hsame | hsame <;> rw [hsame] at hc
  · exact AtomicCell.mem_of_mem_survivor hc
  · obtain ⟨d, hd, rfl⟩ := Option.map_eq_some_iff.mp hc
    unfold AtomicCell.expire at hlive ⊢
    split_ifs at hlive ⊢
    · cases hlive
    · exact AtomicCell.mem_of_mem_survivor hd

theorem compacted_empty (tomb : Tombstone) (now : I64) :
    Compacted tomb now (empty : DeletableRow columns) empty :=
  ⟨rfl, rfl, .inl rfl, fun _ => CellOf.compacted_none _ _ _⟩

theorem Compacted.of_isEmpty {tomb : Tombstone} {now : I64} {r r' : DeletableRow columns}
    (h : Compacted tomb now r r') (he : r'.isEmpty = true) : Compacted tomb now r empty := by
  obtain ⟨hdel, hmarker, hcells⟩ := isEmpty_iff.mp he
  refine ⟨rfl, ?_, ?_, fun i => ?_⟩
  · rw [← h.deletedAt, hdel]
    rfl
  · have hcell : r'.marker.toCell = none :=
      RowMarker.toCell_eq_none.mpr (by simpa [RowMarker.isMissing] using hmarker)
    have hm := h.marker
    rw [hcell] at hm
    exact hm
  · have hc := h.cells i
    rw [hcells] at hc
    exact hc

theorem run_compactAndExpire_neverGc (r : DeletableRow s.regularColumns) (tomb : Tombstone)
    (now gcBefore : I64) :
    let deletedAt := r.deletedAt.apply (RowTombstone.ofRegular tomb) r.marker
    let marker := (r.marker.compactAndExpire neverGc deletedAt.tomb now gcBefore).run
    (r.compactAndExpire neverGc s tomb now gcBefore).run =
      ⟨if deletedAt.tomb ≤ tomb then RowTombstone.none else deletedAt, marker,
        (r.cells.compactAndExpire neverGc (cellTombstone s marker deletedAt) now gcBefore).run⟩ := by
  unfold compactAndExpire
  dsimp only
  split_ifs <;> rfl

theorem isRegular_compactAndExpire (tomb : Tombstone) (now gcBefore : I64)
    (hr : r.deletedAt.IsRegular) :
    (r.compactAndExpire neverGc s tomb now gcBefore).run.deletedAt.IsRegular := by
  rw [run_compactAndExpire_neverGc]
  dsimp only
  split
  · exact RowTombstone.isRegular_none
  · exact RowTombstone.isRegular_apply hr (RowTombstone.isRegular_ofRegular tomb) r.marker

theorem compacted_compactAndExpire {tomb : Tombstone} {now : I64}
    (hs : s.hasBaseNonPkColumnsInViewPk = true →
      AtomicCell.read (tomb.apply r.deletedAt.shadowable) now r.marker.toCell ≠ none ∨
        r.cells = Row.empty)
    (gcBefore : I64) (hr : r.deletedAt.IsRegular) :
    Compacted tomb now r (r.compactAndExpire neverGc s tomb now gcBefore).run := by
  have hregular := isRegular_compactAndExpire (s := s) tomb now gcBefore hr
  have hdel := RowTombstone.shadowable_apply_ofRegular hr tomb r.marker
  rw [run_compactAndExpire_neverGc] at hregular ⊢
  generalize r.deletedAt.apply (RowTombstone.ofRegular tomb) r.marker = deletedAt at *
  obtain ⟨marker, hmarker, hcompacted, -⟩ :=
    RowMarker.compactAndExpire_neverGc deletedAt.tomb now gcBefore r.marker
  have htomb : deletedAt.tomb = tomb.apply r.deletedAt.shadowable := hdel
  rw [htomb] at hcompacted
  simp only [hmarker, Id.run_pure] at hregular ⊢
  refine ⟨hregular, ?_, hcompacted, ?_⟩
  · split
    · next hle =>
      rw [← hdel]
      exact (Tombstone.apply_none _).trans
        (le_antisymm (hdel ▸ Tombstone.apply_eq_max _ _ ▸ le_max_left _ _) hle)
    · rw [hdel, Tombstone.apply_eq_max, Tombstone.apply_eq_max, ← max_assoc, max_self]
  · have hkept := Row.compactAndExpire_neverGc deletedAt now gcBefore r.cells
    rw [hdel] at hkept
    cases hview : s.hasBaseNonPkColumnsInViewPk with
    | false =>
      have hct : cellTombstone s marker deletedAt = deletedAt := by
        simp [cellTombstone, deadMarkerShadowsRow, hview]
      rwa [hct]
    | true =>
      rcases hs hview with hseen | hempty
      · have hlive : marker.isLive = true :=
          RowMarker.isLive_eq marker ▸ AtomicCell.Compacted.isLive_of_read hcompacted hseen
        have hct : cellTombstone s marker deletedAt = deletedAt := by
          simp [cellTombstone, deadMarkerShadowsRow, hlive]
        rwa [hct]
      · intro i
        dsimp only
        rw [Row.run_compactAndExpire, hempty]
        exact CellOf.compacted_none _ _ _

theorem read_of_isRegular (hr : r.deletedAt.IsRegular)
    (hm : s.hasBaseNonPkColumnsInViewPk = true → r.marker.TtlPositive) (tomb : Tombstone) (q : I64) :
    r.read s tomb q =
      let t := tomb.apply r.deletedAt.shadowable
      let marker := AtomicCell.read t q r.marker.toCell
      ⟨marker, fun i => CellOf.read t q _
        (if s.hasBaseNonPkColumnsInViewPk && marker.isNone then none else r.cells i)⟩ := by
  have hdel : (r.deletedAt.apply (RowTombstone.ofRegular tomb) r.marker).tomb =
      tomb.apply r.deletedAt.shadowable := RowTombstone.shadowable_apply_ofRegular hr tomb _
  have hhighest : ((r.deletedAt.apply (RowTombstone.ofRegular tomb) r.marker).apply
      ⟨Tombstone.none, Tombstone.highest, Tombstone.none_le _⟩ {}).tomb = Tombstone.highest := by
    rw [RowTombstone.apply, RowTombstone.maybeShadow, if_neg fun h => absurd h.1 (by decide)]
    exact (Tombstone.apply_eq_max _ _).trans (max_eq_right (Tombstone.le_highest _))
  simp only [read, hdel, cellTombstone, deadMarkerShadowsRow]
  congr 1
  funext i
  cases hview : s.hasBaseNonPkColumnsInViewPk with
  | false => simp [hdel]
  | true =>
    rw [RowMarker.isLive_compactAndExpire _ q q (hm hview)]
    cases hmarker : AtomicCell.read (tomb.apply r.deletedAt.shadowable) q r.marker.toCell with
    | none =>
      simp only [Option.isSome_none, Option.isNone_none, Bool.not_false, Bool.and_self, if_true,
        hhighest]
      exact CellOf.read_highest _ q _
    | some c => simp [hdel]

theorem equalBy_eq_iff {a b : DeletableRow columns} :
    a.EqualBy (fun _ => Eq) b ↔ a.deletedAt.shadowable = b.deletedAt.shadowable ∧
      a.marker.toCell = b.marker.toCell ∧ a.cells = b.cells := by
  unfold EqualBy Row.EqualBy
  simp only [optionRel_eq, RowMarker.equal_iff_toCell]
  exact and_congr_right' (and_congr_right' funext_iff.symm)

theorem read_congr {a b : DeletableRow s.regularColumns} (ha : a.deletedAt.IsRegular)
    (hb : b.deletedAt.IsRegular)
    (hm : s.hasBaseNonPkColumnsInViewPk = true → b.marker.TtlPositive)
    (h : a.EqualBy (fun _ => Eq) b) (tomb : Tombstone) (q : I64) :
    a.read s tomb q = b.read s tomb q := by
  obtain ⟨hdel, hmarker, hcells⟩ := equalBy_eq_iff.mp h
  have hm' : s.hasBaseNonPkColumnsInViewPk = true → a.marker.TtlPositive := by
    rwa [RowMarker.TtlPositive, hmarker]
  rw [read_of_isRegular ha hm', read_of_isRegular hb hm, hdel, hmarker, hcells]

/-- Reading a merged row does not notice the early compaction of one operand. -/
theorem read_apply_compacted {tomb tomb' : Tombstone} (htomb : tomb ≤ tomb') {now q : I64}
    (hq : now ≤ q) {y x x' : DeletableRow s.regularColumns}
    (hs : s.hasBaseNonPkColumnsInViewPk = true → y.marker.TtlPositive ∧ x.marker.TtlPositive)
    (hy : y.deletedAt.IsRegular) (hxr : x.deletedAt.IsRegular) (hx : Compacted tomb now x x')
    (hmarker : AtomicCell.NoTie now q y.marker.toCell x.marker.toCell)
    (hcells : ∀ i, CellOf.NoTie now q _ (y.cells i) (x.cells i)) :
    (y.apply x').read s tomb' q = (y.apply x).read s tomb' q := by
  have hdel : ∀ z : DeletableRow s.regularColumns, z.deletedAt.IsRegular →
      tomb'.apply (y.apply z).deletedAt.shadowable =
        max (max tomb' y.deletedAt.shadowable) (tomb.apply z.deletedAt.shadowable) := by
    intro z hz
    have hz' := RowTombstone.shadowable_apply hy hz (y.marker.apply z.marker)
    rw [show (y.apply z).deletedAt.shadowable = _ from hz']
    simp only [Tombstone.apply_eq_max]
    rw [max_max_max_comm, max_eq_left htomb]
  have hle : tomb.apply x.deletedAt.shadowable ≤ tomb'.apply (y.apply x).deletedAt.shadowable := by
    rw [hdel x hxr]
    exact le_max_right _ _
  have hsame : tomb'.apply (y.apply x').deletedAt.shadowable =
      tomb'.apply (y.apply x).deletedAt.shadowable := by
    rw [hdel x hxr, hdel x' hx.regular, hx.deletedAt]
  have hmarker : AtomicCell.read (tomb'.apply (y.apply x).deletedAt.shadowable) q
        (y.apply x').marker.toCell =
      AtomicCell.read (tomb'.apply (y.apply x).deletedAt.shadowable) q (y.apply x).marker.toCell := by
    have hm : ∀ z : DeletableRow s.regularColumns, (y.apply z).marker.toCell =
        merge AtomicCell.apply y.marker.toCell z.marker.toCell :=
      fun z => RowMarker.toCell_apply _ _
    rw [hm, hm]
    exact AtomicCell.read_merge_compacted (Tombstone.timestamp_mono hle) hq hx.marker hmarker
  rw [read_of_isRegular (RowTombstone.isRegular_apply hy hx.regular _)
      fun h => (hs h).1.apply (hx.ttlPositive (hs h).2),
    read_of_isRegular (RowTombstone.isRegular_apply hy hxr _) fun h => (hs h).1.apply (hs h).2,
    hsame]
  simp only [hmarker]
  ext1
  · rfl
  · funext i
    dsimp only
    split_ifs
    · rfl
    · exact CellOf.read_merge_compacted hle hq (hx.cells i) (hcells i)

end DeletableRow

namespace MutationPartition

variable {s : Schema} {P : Type*} [LinearOrder P]

theorem rangeTombstoneForRow_apply (a b : MutationPartition s P) (x : P) :
    (a.apply b).rangeTombstoneForRow x =
      max (a.rangeTombstoneForRow x) (b.rangeTombstoneForRow x) := by
  have hcover : (((a.apply b).rowTombstones.cover x).getD Tombstone.none) =
      max ((a.rowTombstones.cover x).getD Tombstone.none)
        ((b.rowTombstones.cover x).getD Tombstone.none) := by
    rw [show (a.apply b).rowTombstones.cover x = _ from RangeTombstoneList.cover_apply _ _ x]
    cases a.rowTombstones.cover x <;> cases b.rowTombstones.cover x <;>
      simp [Tombstone.none_le]
  have htomb : (a.apply b).tombstone = max a.tombstone b.tombstone := Tombstone.apply_eq_max _ _
  simp only [rangeTombstoneForRow, Tombstone.apply_eq_max]
  rw [hcover, htomb, max_max_max_comm]

/-- No row has a shadowable tombstone. -/
def IsRegular (p : MutationPartition s P) : Prop := ∀ e ∈ p.rows, e.row.deletedAt.IsRegular

/-- In a view with a base column in its key, the rows of `a` that have cells have markers that a
reader at `now` sees. -/
structure MarkersKept (now : I64) (b a : MutationPartition s P) : Prop where
  seen : ∀ x, ((a.liveData now).rows x).marker ≠ none ∨ (a.rowOf x).cells = Row.empty
  ttl : ∀ x, (b.rowOf x).marker.TtlPositive ∧ (a.rowOf x).marker.TtlPositive

section NeverGc

variable (now gcBefore : I64) (p : MutationPartition s P)

theorem tombstone_compactForCompaction :
    (p.compactForCompaction neverGc now gcBefore).tombstone = p.tombstone := by
  simp [compactForCompaction, neverGc]

theorem rangeTombstoneForRow_compactForCompaction (x : P) :
    (p.compactForCompaction neverGc now gcBefore).rangeTombstoneForRow x =
      p.rangeTombstoneForRow x := by
  have hcover : (p.compactForCompaction neverGc now gcBefore).rowTombstones.cover x =
      (p.rowTombstones.cover x).filter fun t => !decide (t ≤ p.tombstone) := by
    simp [compactForCompaction, neverGc, RangeTombstoneList.cover_eraseWhere]
  rw [rangeTombstoneForRow, rangeTombstoneForRow, tombstone_compactForCompaction, hcover]
  cases p.rowTombstones.cover x with
  | none => rfl
  | some t =>
    by_cases h : t ≤ p.tombstone
    · rw [filter_some, if_neg (by simp [h])]
      simp [h, Tombstone.apply_eq_max, Tombstone.none_le]
    · rw [filter_some, if_pos (by simp [h])]

theorem compacted_rowOf (hp : p.IsRegular)
    (hs : s.hasBaseNonPkColumnsInViewPk = true →
      ∀ x, ((p.liveData now).rows x).marker ≠ none ∨ (p.rowOf x).cells = Row.empty) (x : P) :
    DeletableRow.Compacted (p.rangeTombstoneForRow x) now (p.rowOf x)
      ((p.compactForCompaction neverGc now gcBefore).rowOf x) := by
  have hrows : (p.compactForCompaction neverGc now gcBefore).rowAt x =
      lookupBy compare RowsEntry.position (fun e =>
        let e' := e.compactAndExpire neverGc (p.rangeTombstoneForRow e.position) now gcBefore
        if !e'.row.isEmpty then e'.content else none) x p.rows := by
    refine (lookupBy_filter (p.sorted_compactRows neverGc now gcBefore) _).trans ?_
    exact lookupBy_map (fun e => RowsEntry.position_compactAndExpire _ _ _ _ e) x p.rows
  rw [rowOf, rowOf, hrows, rowAt]
  refine lookupBy_rel (q := fun o o' => DeletableRow.Compacted (p.rangeTombstoneForRow x) now
    (o.getD DeletableRow.empty) (o'.getD DeletableRow.empty))
    (compacted_empty _ _) fun e he hk => ?_
  obtain rfl : x = e.position := compare_eq_iff_eq.mp hk
  by_cases hd : e.dummy = true
  · have hsame : e.compactAndExpire neverGc (p.rangeTombstoneForRow e.position) now gcBefore = e :=
      dif_pos hd
    have hnone : e.content = none := if_pos hd
    simp only [hsame, hnone, ite_self]
    exact compacted_empty _ _
  · have hcontent : p.rowOf e.position = e.row := by
      rw [rowOf, rowAt, lookupBy_of_mem p.rows_sorted he, RowsEntry.content, if_neg hd, getD_some]
    have hcompact := compacted_compactAndExpire (fun hview => by
      have hseen := hs hview e.position
      simp only [liveData, hcontent, DeletableRow.read, RowTombstone.tomb,
        RowTombstone.shadowable_apply_ofRegular (hp e he)] at hseen
      exact hseen) gcBefore (hp e he)
    have hentry : e.compactAndExpire neverGc (p.rangeTombstoneForRow e.position) now gcBefore =
        { e with
          row := Id.run (e.row.compactAndExpire neverGc s (p.rangeTombstoneForRow e.position) now
            gcBefore)
          dummy_empty := fun h' => absurd h' hd } := dif_neg hd
    simp only [hentry, RowsEntry.content, if_neg hd]
    split
    · exact hcompact
    · next he => exact hcompact.of_isEmpty (by simpa using he)

end NeverGc

theorem IsRegular.rowOf {p : MutationPartition s P} (hp : p.IsRegular) (x : P) :
    (p.rowOf x).deletedAt.IsRegular := by
  unfold MutationPartition.rowOf
  cases hr : p.rowAt x with
  | none => exact RowTombstone.isRegular_none
  | some r =>
    obtain ⟨e, he, -, hcontent⟩ := exists_of_lookupBy_eq_some hr
    unfold RowsEntry.content at hcontent
    split at hcontent
    · cases hcontent
    · cases hcontent
      exact hp e he

variable {a b : MutationPartition s P}

theorem IsRegular.apply (ha : a.IsRegular) (hb : b.IsRegular) :
    (a.apply b).IsRegular :=
  forall_mem_mergeInto (fun _ _ _ h => RowsEntry.row_of_insertBefore h ▸ id)
    (fun _ _ _ hx hy => RowTombstone.isRegular_apply hx hy _) ha hb

theorem IsRegular.compactForCompaction {p : MutationPartition s P} (hp : p.IsRegular) (now gcBefore : I64) :
    (p.compactForCompaction neverGc now gcBefore).IsRegular := by
  intro e he
  obtain ⟨e₀, he₀, rfl⟩ := List.mem_map.mp (List.mem_of_mem_filter he)
  unfold RowsEntry.compactAndExpire
  split
  · exact hp e₀ he₀
  · exact isRegular_compactAndExpire _ now gcBefore (hp e₀ he₀)

theorem rowOf_apply (ha : a.IsRegular) (hb : b.IsRegular) (x : P) :
    ((a.apply b).rowOf x).EqualBy (fun _ => Eq) ((a.rowOf x).apply (b.rowOf x)) := by
  have hra := ha.rowOf x
  have hrb := hb.rowOf x
  have hrow := rowAt_apply (fun _ _ => rfl) ha hb x
  have hleft : ((a.apply b).rowOf x).EqualBy (fun _ => Eq)
      ((merge DeletableRow.apply (a.rowAt x) (b.rowAt x)).getD DeletableRow.empty) := by
    unfold rowOf
    generalize (a.apply b).rowAt x = o at hrow
    generalize merge DeletableRow.apply (a.rowAt x) (b.rowAt x) = o' at hrow
    cases hrow with
    | none => exact equalBy_eq_iff.mpr ⟨rfl, rfl, rfl⟩
    | some h => exact h
  have hright : ((a.rowOf x).apply (b.rowOf x)).EqualBy (fun _ => Eq)
      ((merge DeletableRow.apply (a.rowAt x) (b.rowAt x)).getD DeletableRow.empty) := by
    unfold rowOf at hra hrb ⊢
    generalize a.rowAt x = oa at hra ⊢
    generalize b.rowAt x = ob at hrb ⊢
    cases oa with
    | none =>
      cases ob with
      | none => exact equalBy_eq_iff.mpr ⟨rfl, rfl, rfl⟩
      | some r => exact equalBy_empty_apply (fun _ _ => rfl) hrb
    | some r =>
      cases ob with
      | none => exact equalBy_apply_empty (fun _ _ => rfl) hra
      | some r' => exact equalBy_eq_iff.mpr ⟨rfl, rfl, rfl⟩
  rw [equalBy_eq_iff] at hleft hright ⊢
  exact ⟨hleft.1.trans hright.1.symm, hleft.2.1.trans hright.2.1.symm,
    hleft.2.2.trans hright.2.2.symm⟩

structure NoTie (now q : I64) (b a : MutationPartition s P) : Prop where
  staticRow : ∀ i, CellOf.NoTie now q _ (b.staticRow i) (a.staticRow i)
  marker : ∀ x, AtomicCell.NoTie now q (b.rowOf x).marker.toCell (a.rowOf x).marker.toCell
  cells : ∀ x i, CellOf.NoTie now q _ ((b.rowOf x).cells i) ((a.rowOf x).cells i)

/-- Expiring and shadowing data early, without purging, does not change what a reader of a later
merge sees. -/
theorem liveData_apply_compactForCompaction {a b : MutationPartition s P} (ha : a.IsRegular)
    (hb : b.IsRegular) {t q : I64} (htq : t ≤ q) (gcBefore : I64) (htie : NoTie t q b a)
    (hs : s.hasBaseNonPkColumnsInViewPk = true → MarkersKept t b a) :
    (b.apply (a.compactForCompaction neverGc t gcBefore)).liveData q =
      (b.apply a).liveData q := by
  have ha' := ha.compactForCompaction t gcBefore
  have htomb := tombstone_compactForCompaction t gcBefore a
  have hstatic := Row.compactAndExpire_neverGc (RowTombstone.ofRegular a.tombstone) t gcBefore
    a.staticRow
  have hrow := compacted_rowOf t gcBefore a ha fun hview => (hs hview).seen
  have hrange := rangeTombstoneForRow_compactForCompaction t gcBefore a
  ext1
  · funext i
    have hle : a.tombstone ≤ (b.apply a).tombstone := by
      rw [show (b.apply a).tombstone = _ from Tombstone.apply_eq_max _ _]
      exact le_max_right _ _
    have hsame : (b.apply (a.compactForCompaction neverGc t gcBefore)).tombstone =
        (b.apply a).tombstone := congrArg (Tombstone.apply b.tombstone) htomb
    change CellOf.read (b.apply (a.compactForCompaction neverGc t gcBefore)).tombstone q _ _ = _
    rw [hsame]
    exact CellOf.read_merge_compacted hle htq (hstatic i) (htie.staticRow i)
  · funext x
    have hle : a.rangeTombstoneForRow x ≤ (b.apply a).rangeTombstoneForRow x := by
      rw [rangeTombstoneForRow_apply]
      exact le_max_right _ _
    have hsame : (b.apply (a.compactForCompaction neverGc t gcBefore)).rangeTombstoneForRow x =
        (b.apply a).rangeTombstoneForRow x := by
      rw [rangeTombstoneForRow_apply, rangeTombstoneForRow_apply, hrange]
    have httl hview := (hs hview).ttl x
    have hcongr {p : MutationPartition s P} (hp : p.IsRegular)
        (hm : s.hasBaseNonPkColumnsInViewPk = true → (p.rowOf x).marker.TtlPositive)
        (tomb : Tombstone) :
        ((b.apply p).rowOf x).read s tomb q = ((b.rowOf x).apply (p.rowOf x)).read s tomb q :=
      read_congr ((hb.apply hp).rowOf x)
        (RowTombstone.isRegular_apply (hb.rowOf x) (hp.rowOf x) _)
        (fun hview => (httl hview).1.apply (hm hview)) (rowOf_apply hb hp x) tomb q
    change ((b.apply _).rowOf x).read s _ q = ((b.apply a).rowOf x).read s _ q
    rw [hsame, hcongr ha' fun hview => (hrow x).ttlPositive (httl hview).2,
      hcongr ha fun hview => (httl hview).2]
    exact read_apply_compacted hle htq httl (hb.rowOf x) (ha.rowOf x) (hrow x)
      (htie.marker x) (htie.cells x)

theorem isRegular_ofStaticCell {k : ColumnKind} (c : CellOf k) : (ofStaticCell c).IsRegular := by
  intro e he
  cases he

def expiringAt (timestamp expiry : I64) :
    MutationPartition { staticColumns := [.atomic], regularColumns := [] } ℕ :=
  ofStaticCell (k := .atomic) (AtomicCell.expiring timestamp [] expiry 5)

/-- A cell that has expired and a newer one that has not. -/
theorem liveData_apply_compactForCompaction_expiringAt :
    ((expiringAt 11 100).apply ((expiringAt 10 5).compactForCompaction neverGc 10 0)).liveData 20 =
      ((expiringAt 11 100).apply (expiringAt 10 5)).liveData 20 := by
  refine liveData_apply_compactForCompaction (isRegular_ofStaticCell _)
    (isRegular_ofStaticCell _) (by decide) 0 ⟨?_, ?_, ?_⟩ nofun
  · rintro ⟨_ | n, hn⟩
    · intro d hd c hc _ _ _
      cases hd
      cases hc
      decide
    · exact absurd hn (by simp)
  · intro x d hd
    cases hd
  · intro x i
    exact i.elim0

def viewRow (row : DeletableRow [.atomic]) :
    MutationPartition ⟨[], [.atomic], true⟩ ℕ where
  tombstone := Tombstone.none
  staticRow := Row.empty
  staticRowContinuous := true
  rows := [⟨0, row, false, true, by simp⟩]
  rows_sorted := List.pairwise_singleton _ _
  rowTombstones := .empty

theorem isRegular_viewRow {row : DeletableRow [.atomic]} (h : row.deletedAt.IsRegular) :
    (viewRow row).IsRegular := by
  intro e he
  cases List.mem_singleton.mp he
  exact h

def counterWithoutTimestamp :
    MutationPartition { staticColumns := [.counter], regularColumns := [] } ℕ :=
  ofStaticCell (k := .counter)
    (CounterCell.live missingTimestamp ⟨[⟨1, 7, 2⟩], List.pairwise_singleton _ _⟩)

/-- Three early compactions that a reader notices: an expired cell wins as a dead one against a cell
of its timestamp that expires later; a view row without live marker loses its cell before the marker
arrives; a counter without timestamp is erased although nothing deletes it. -/
theorem liveData_ne_after_compactForCompaction :
    (let a := expiringAt 10 5
     let b := expiringAt 10 100
     a.IsRegular ∧ b.IsRegular ∧
      (b.apply (a.compactForCompaction neverGc 10 0)).liveData 20 ≠ (b.apply a).liveData 20) ∧
    (let a := viewRow ⟨RowTombstone.none, {}, fun ⟨0, _⟩ => some (AtomicCell.live 5 [])⟩
     let b := viewRow ⟨RowTombstone.none, { timestamp := 6 }, Row.empty⟩
     a.IsRegular ∧ b.IsRegular ∧
      (b.apply (a.compactForCompaction neverGc 10 0)).liveData 20 ≠ (b.apply a).liveData 20) ∧
    (let a := counterWithoutTimestamp
     let b := counterAt 5 1
     a.IsRegular ∧ b.IsRegular ∧
      (b.apply (a.compactForCompaction neverGc 10 0)).liveData 20 ≠ (b.apply a).liveData 20) := by
  refine ⟨⟨isRegular_ofStaticCell _, isRegular_ofStaticCell _, fun h => ?_⟩,
    ⟨isRegular_viewRow rfl, isRegular_viewRow rfl, fun h => ?_⟩,
    isRegular_ofStaticCell _, isRegular_ofStaticCell _, fun h => ?_⟩
  · have h0 : (none : Option AtomicCell) = some (.expiring 10 [] 100 5) :=
      congrFun (congrArg LiveData.staticRow h) ⟨0, Nat.one_pos⟩
    cases h0
  · have h0 : (none : Option AtomicCell) = some (.live 5 []) :=
      congrFun (congrArg DeletableRow.Live.cells (congrFun (congrArg LiveData.rows h) 0))
        ⟨0, Nat.one_pos⟩
    cases h0
  · have h0 : (1 : I64) = 2 := congrArg
      (fun c : Option CounterCell =>
        ((c.elim [] (CellOf.shards .counter)).map CounterShard.logicalClock).headD 0)
      (congrFun (congrArg LiveData.staticRow h) ⟨0, Nat.one_pos⟩)
    revert h0
    decide

end MutationPartition

end Scylla.Mutation
