import Scylla.Mutation.EarlyCompaction

/-!
# Rows of views with a base column in their key

The row marker, derived from the base column in the key, tells whether a row of such a view is live.
A newer live marker erases a shadowable tombstone when the two are merged, so merged rows depend on
the order of merging. A reader does not notice: all that counts is the tombstone that a live marker
leaves.
-/

namespace Scylla.Mutation

open RowMarker

namespace RowTombstone

/-- What a live marker written at `timestamp` leaves of a row tombstone. -/
def unshadowed (timestamp : I64) (t : RowTombstone) : Tombstone :=
  if t.shadowable.timestamp < timestamp then t.regular else t.shadowable

variable {a b : RowTombstone} {marker : RowMarker}

theorem unshadowed_apply {timestamp : I64} (h : marker.timestamp ≤ timestamp) :
    (a.apply b marker).unshadowed timestamp =
      (a.unshadowed timestamp).apply (b.unshadowed timestamp) := by
  obtain ⟨ra, sa, ha⟩ := a
  obtain ⟨rb, sb, hb⟩ := b
  simp only [apply, maybeShadow, unshadowed, ofRegular, Tombstone.apply_eq_max,
    Tombstone.timestamp_max]
  grind [Tombstone.timestamp_max]

theorem tomb_apply_of_isLive (h : marker.isLive = true) :
    (a.apply b marker).tomb = (a.apply b marker).unshadowed marker.timestamp := by
  unfold apply
  generalize (RowTombstone.mk _ _ _) = t
  unfold maybeShadow
  by_cases hlt : t.shadowable.timestamp < marker.timestamp
  · rw [if_pos ⟨h, hlt⟩]
    exact (ite_self _).symm
  · rw [if_neg fun hc => hlt hc.2, unshadowed, if_neg hlt]
    rfl

end RowTombstone

/-! ## What is live after a compaction -/

def CellOf.live : (k : ColumnKind) → Option (CellOf k) → ReadOf k
  | .atomic, o => o.filter AtomicCell.isLive
  | .counter, o => o.filter CounterCell.isLive
  | .collection _, o => fun key => (CollectionMutation.lookupOf o key).filter AtomicCell.isLive

def DeletableRow.live {columns : List ColumnKind} (r : DeletableRow columns) : Live columns where
  marker := r.marker.toCell.filter AtomicCell.isLive
  cells i := CellOf.live _ (r.cells i)

/-- Whether a compacted column counts a live cell. -/
def CellOf.hasLive : (k : ColumnKind) → CellOf k → Bool
  | .atomic, c => AtomicCell.isLive c
  | .counter, c => CounterCell.isLive c
  | .collection _, c => (CollectionMutation.cells c).any fun e => e.2.isLive

/-- What `deletable_row::compact_and_expire` returns about the row it leaves. -/
def DeletableRow.hasLive {columns : List ColumnKind} (r : DeletableRow columns) : Bool :=
  r.marker.isLive ||
    (List.finRange columns.length).any fun i => (r.cells i).any (CellOf.hasLive _)

theorem CollectionMutation.any_isLive_iff {kt : KeyType} (o : Option (CollectionMutation kt)) :
    (o.any fun c => c.cells.any fun e => e.2.isLive) = true ↔
      ∃ key, ((lookupOf o key).filter AtomicCell.isLive).isSome = true := by
  cases o with
  | none => simp [lookupOf]
  | some c =>
    simp only [Option.any_some, List.any_eq_true, Option.isSome_filter,
      Option.any_eq_true]
    constructor
    · rintro ⟨e, he, hlive⟩
      exact ⟨e.1, e.2, lookupBy_of_mem c.sorted he, hlive⟩
    · rintro ⟨key, d, hd, hlive⟩
      obtain ⟨e, he, -, ⟨⟩⟩ := exists_of_lookupBy_eq_some hd
      exact ⟨e, he, hlive⟩

theorem DeletableRow.hasLive_congr {columns : List ColumnKind} {a b : DeletableRow columns}
    (h : a.live = b.live) : a.hasLive = b.hasLive := by
  obtain ⟨hmarker, hcells⟩ := Live.mk.inj h
  have hcolumn : ∀ {k : ColumnKind} {o o' : Option (CellOf k)},
      CellOf.live k o = CellOf.live k o' → o.any (CellOf.hasLive k) = o'.any (CellOf.hasLive k) := by
    rintro (_ | _ | kt) o o' ho
    · exact (Option.isSome_filter ..).symm.trans ((congrArg _ ho).trans (Option.isSome_filter ..))
    · exact (Option.isSome_filter ..).symm.trans ((congrArg _ ho).trans (Option.isSome_filter ..))
    · refine Bool.eq_iff_iff.mpr ((CollectionMutation.any_isLive_iff o).trans ?_)
      refine (exists_congr fun key => ?_).trans (CollectionMutation.any_isLive_iff o').symm
      exact Bool.eq_iff_iff.mp (congrArg Option.isSome (congrFun ho key))
  have hsome : a.marker.isLive = b.marker.isLive := by
    rw [isLive_eq, isLive_eq, ← Option.isSome_filter, ← Option.isSome_filter, hmarker]
  rw [hasLive, hasLive, hsome]
  simp only [fun i => hcolumn (congrFun hcells i)]

section Run

variable (canGc : Tombstone → Bool → Id Bool) (q gcBefore : I64)

theorem filter_bind_expireCell (t : Tombstone) (o : Option AtomicCell) :
    ((o.bind (AtomicCell.survivor t)).bind fun c =>
      (expireCell canGc q gcBefore c).run).filter AtomicCell.isLive = AtomicCell.read t q o := by
  unfold AtomicCell.read
  cases o.bind (AtomicCell.survivor t) with
  | none => rfl
  | some c =>
    rw [Option.bind_some, Option.bind_some]
    simp only [expireCell, AtomicCell.liveNow, apply_ite Id.run, Id.run_bind, Id.run_pure]
    split_ifs <;> simp_all [AtomicCell.isLive]

theorem CellOf.live_compactAndExpire {k : ColumnKind} (hk : k ≠ .counter) (tomb : RowTombstone)
    (o : Option (CellOf k)) :
    live k (o.bind fun c => (compactAndExpire canGc tomb q gcBefore k c).run) =
      read tomb.tomb q k o := by
  cases k with
  | atomic =>
    cases o with
    | none => rfl
    | some c =>
      refine (congrArg (Option.filter _)
        (AtomicCell.run_compactAndExpire canGc q gcBefore tomb c)).trans ?_
      exact filter_bind_expireCell canGc q gcBefore _ (some c)
  | counter => exact absurd rfl hk
  | collection kt =>
    cases o with
    | none => rfl
    | some c =>
      funext key
      refine (congrArg (Option.filter _)
        (CollectionMutation.lookupOf_compactColumn canGc q gcBefore tomb c key)).trans ?_
      rw [filter_bind_expireCell, Tombstone.apply_eq_max, max_comm, ← Tombstone.apply_eq_max]
      rfl

theorem RowMarker.timestamp_eq_of_equal {a b : RowMarker} (h : a.equal b = true) :
    a.timestamp = b.timestamp := by
  unfold equal at h
  split_ifs at h with hts <;> exact not_not.mp hts

theorem RowMarker.toCell_compactAndExpire {a b : RowMarker} (h : a.equal b = true) (t : Tombstone) :
    (a.compactAndExpire canGc t q gcBefore).run.toCell =
      (b.compactAndExpire canGc t q gcBefore).run.toCell := by
  obtain ⟨ta, la, ea⟩ := a
  obtain ⟨tb, lb, eb⟩ := b
  simp only [equal, isMissing] at h
  simp only [compactAndExpire, toCell, isMissing]
  split_ifs at h with hts hmiss httl
  · simp_all
  · obtain rfl : ta = tb := by simpa using hts
    obtain rfl : la = lb := by simpa using httl
    obtain rfl | rfl : la = noTtl ∨ ea = eb := by simpa using h
    · have hne : noTtl ≠ deadTtl := by decide
      by_cases hle : ta ≤ t.timestamp <;> simp [*]
    · rfl

theorem RowMarker.isLive_compactAndExpire_of_not {m : RowMarker} (h : m.isLive = false)
    (t : Tombstone) : (m.compactAndExpire canGc t q gcBefore).run.isLive = false := by
  simp only [isLive, isMissing, compactAndExpire, apply_ite Id.run, Id.run_bind, Id.run_pure] at *
  split_ifs <;> simp_all

theorem DeletableRow.live_compactAndExpire {s : Schema} (hs : s.hasBaseNonPkColumnsInViewPk = true)
    (hcounter : .counter ∉ s.regularColumns) (tomb : Tombstone)
    (r : DeletableRow s.regularColumns) :
    let t := (r.deletedAt.apply (RowTombstone.ofRegular tomb) r.marker).tomb
    let marker := (r.marker.compactAndExpire canGc t q gcBefore).run
    (r.compactAndExpire canGc s tomb q gcBefore).run.live =
      ⟨marker.toCell.filter AtomicCell.isLive, fun i =>
        CellOf.read (if marker.isLive then t else Tombstone.highest) q _ (r.cells i)⟩ := by
  intro t marker
  let tomb' := cellTombstone s marker (r.deletedAt.apply (RowTombstone.ofRegular tomb) r.marker)
  have htomb : tomb'.tomb = if marker.isLive then t else Tombstone.highest := by
    simp only [tomb', cellTombstone, deadMarkerShadowsRow, hs]
    cases marker.isLive with
    | true => rfl
    | false =>
      exact (Tombstone.apply_eq_max _ _).trans (max_eq_right (Tombstone.le_highest _))
  have hrun : (r.compactAndExpire canGc s tomb q gcBefore).run.marker = marker ∧
      (r.compactAndExpire canGc s tomb q gcBefore).run.cells =
        (r.cells.compactAndExpire canGc tomb' q gcBefore).run := by
    unfold compactAndExpire
    dsimp only
    split_ifs <;> exact ⟨rfl, rfl⟩
  rw [← htomb, live, hrun.1, hrun.2]
  congr 1
  funext i
  rw [Row.run_compactAndExpire]
  exact CellOf.live_compactAndExpire canGc q gcBefore
    (fun h => hcounter (h ▸ List.get_mem _ i)) tomb' _

end Run

/-! ## Any order and grouping -/

section Columns

variable {α : Type*} {op : α → α → α} {t t' : MergeTree α}

namespace CollectionMutation

theorem read_eval {kt : KeyType} {f : α → Option (CollectionMutation kt)}
    (hf : ∀ a b, f (op a b) = Option.merge merge (f a) (f b))
    (hmem : ∀ x, x ∈ t.leaves ↔ x ∈ t'.leaves) (e : Tombstone) (q : I64) :
    read e q (f (t.eval op)) = read e q (f (t'.eval op)) := by
  have hmax (a b : α) : tombOf (f (op a b)) = max (tombOf (f a)) (tombOf (f b)) := by
    rw [hf, tombOf_merge, Tombstone.apply_eq_max]
  have htombs : MergeLaws (fun _ => True) (fun a b => tombOf (f a) = tombOf (f b)) op :=
    MergeLaws.sup.comap (fun a => tombOf (f a)) (fun _ _ => trivial) (fun _ => trivial)
      fun _ _ => hmax _ _
  have htomb := htombs.eval_eq_of_mem_iff (fun _ _ => trivial) hmem
  funext key
  rw [read, read, ← htomb]
  generalize he : e.apply (tombOf (f (t.eval op))) = e'
  -- no collection has a tombstone greater than the merged one
  have hle : ∀ x ∈ t.leaves, tombOf (f x) ≤ e' := by
    intro x hx
    have habsorbed := htombs.mem_absorbed (fun _ _ => trivial) hx
    rw [hmax, max_eq_right_iff] at habsorbed
    rw [← he, Tombstone.apply_eq_max]
    exact habsorbed.trans (le_max_right _ _)
  have hcells : MergeLaws (fun a => tombOf (f a) ≤ e') (fun a b => Option.Rel Eq
      ((lookupOf (f a) key).bind (AtomicCell.survivor e'))
      ((lookupOf (f b) key).bind (AtomicCell.survivor e'))) op := by
    refine AtomicCell.mergeLaws.option.comap
      (fun a => (lookupOf (f a) key).bind (AtomicCell.survivor e')) (fun ha hb => ?_)
      (fun _ _ _ => trivial) fun ha hb => ?_
    · exact (hmax _ _).trans_le (max_le ha hb)
    · rw [optionRel_eq, hf, survivor_lookupOf_merge ha hb, AtomicCell.survivor_merge]
  have hread := optionRel_eq.mp (hcells.eval_eq_of_mem_iff hle hmem)
  rw [AtomicCell.read, AtomicCell.read, hread]

end CollectionMutation

theorem CellOf.read_eval {k : ColumnKind} (hk : k ≠ .counter) {f : α → Option (CellOf k)}
    (hf : ∀ a b, f (op a b) = Option.merge apply (f a) (f b))
    (hmem : ∀ x, x ∈ t.leaves ↔ x ∈ t'.leaves) (e : Tombstone) (q : I64) :
    read e q k (f (t.eval op)) = read e q k (f (t'.eval op)) := by
  cases k with
  | atomic =>
    have laws : MergeLaws (fun _ => True) (fun a b => Option.Rel Eq (f a) (f b)) op :=
      AtomicCell.mergeLaws.option.comap f (fun _ _ => trivial) (fun _ _ _ => trivial)
        fun _ _ => optionRel_eq.mpr (hf _ _)
    rw [optionRel_eq.mp (laws.eval_eq_of_mem_iff (fun _ _ => trivial) hmem)]
  | counter => exact absurd rfl hk
  | collection kt => exact CollectionMutation.read_eval hf hmem e q

end Columns

namespace DeletableRow

variable {s : Schema}

theorem mergeLaws_marker : MergeLaws (fun _ => True)
    (fun a b : DeletableRow s.regularColumns => a.marker.equal b.marker) apply :=
  RowMarker.mergeLaws.comap marker (fun _ _ => trivial) (fun _ => trivial)
    fun _ _ => RowMarker.mergeLaws.refl _

theorem timestamp_marker_apply (a b : DeletableRow s.regularColumns) :
    (a.apply b).marker.timestamp = max a.marker.timestamp b.marker.timestamp :=
  key_keepGreater (fun a b h => by
    rw [compareRowMarkerForMerge, if_pos h, compare_lt_iff_lt]) a.marker b.marker

theorem mergeLaws_unshadowed (timestamp : I64) :
    MergeLaws (fun r : DeletableRow s.regularColumns => r.marker.timestamp ≤ timestamp)
      (fun a b => a.deletedAt.unshadowed timestamp = b.deletedAt.unshadowed timestamp) apply := by
  have hclosed {a b : DeletableRow s.regularColumns} (ha : a.marker.timestamp ≤ timestamp)
      (hb : b.marker.timestamp ≤ timestamp) : (a.apply b).marker.timestamp ≤ timestamp :=
    (timestamp_marker_apply a b).trans_le (max_le ha hb)
  exact Tombstone.mergeLaws.comap
    (fun r : DeletableRow s.regularColumns => r.deletedAt.unshadowed timestamp) hclosed
    (fun _ => trivial) fun ha hb => RowTombstone.unshadowed_apply (hclosed ha hb)

/-- Rows of a view with a base column in its key, merged in any order and grouping, have the same
live marker and cells after a compaction, and it finds all of them live or none. -/
theorem live_compactAndExpire_eval (hs : s.hasBaseNonPkColumnsInViewPk = true)
    (hcounter : .counter ∉ s.regularColumns) {t t' : MergeTree (DeletableRow s.regularColumns)}
    (hperm : t.leaves.Perm t'.leaves) (canGc : Tombstone → Bool → Id Bool) (tomb : Tombstone)
    (q gcBefore : I64) :
    let r := ((t.eval apply).compactAndExpire canGc s tomb q gcBefore).run
    let r' := ((t'.eval apply).compactAndExpire canGc s tomb q gcBefore).run
    r.live = r'.live ∧ r.hasLive = r'.hasLive := by
  intro r r'
  suffices h : r.live = r'.live from ⟨h, hasLive_congr h⟩
  have hmem : ∀ x, x ∈ t.leaves ↔ x ∈ t'.leaves := fun x => hperm.mem_iff
  have hcells (e : Tombstone) (i : Fin s.regularColumns.length) :
      CellOf.read e q _ ((t.eval apply).cells i) = CellOf.read e q _ ((t'.eval apply).cells i) :=
    CellOf.read_eval (f := fun r : DeletableRow s.regularColumns => r.cells i)
      (fun h => hcounter (h ▸ List.get_mem _ i)) (fun _ _ => rfl) hmem e q
  have hmarker : (t.eval apply).marker.equal (t'.eval apply).marker = true :=
    mergeLaws_marker.eval_eq_of_mem_iff (fun _ _ => trivial) hmem
  have htimestamp : ∀ x ∈ t.leaves, x.marker.timestamp ≤ (t.eval apply).marker.timestamp := by
    intro x hx
    have habsorbed := mergeLaws_marker.mem_absorbed (fun _ _ => trivial) hx
    rw [← timestamp_eq_of_equal habsorbed, timestamp_marker_apply]
    exact le_max_left _ _
  have hdeleted := (mergeLaws_unshadowed _).eval_eq_of_mem_iff htimestamp hmem
  simp only [r, r', live_compactAndExpire canGc q gcBefore hs hcounter]
  clear r r'
  generalize t.eval apply = a at *
  generalize t'.eval apply = b at *
  have hts := timestamp_eq_of_equal hmarker
  have hlive : a.marker.isLive = b.marker.isLive := by
    rw [isLive_eq, isLive_eq, equal_iff_toCell.mp hmarker]
  cases ha : a.marker.isLive with
  | false =>
    have hnone (m : RowMarker) (hm : m.isLive = false) :
        m.toCell.filter AtomicCell.isLive = none := by
      rw [isLive_eq] at hm
      cases hcell : m.toCell <;> simp_all
    have ha' := isLive_compactAndExpire_of_not canGc q gcBefore ha
    have hb' := isLive_compactAndExpire_of_not canGc q gcBefore (hlive.symm.trans ha)
    simp only [hnone _ (ha' _), hnone _ (hb' _), ha', hb', hcells, Bool.false_eq_true, if_false]
  | true =>
    have htomb : (a.deletedAt.apply (RowTombstone.ofRegular tomb) a.marker).tomb =
        (b.deletedAt.apply (RowTombstone.ofRegular tomb) b.marker).tomb := by
      rw [RowTombstone.tomb_apply_of_isLive ha,
        RowTombstone.tomb_apply_of_isLive (hlive.symm.trans ha), ← hts,
        RowTombstone.unshadowed_apply le_rfl, RowTombstone.unshadowed_apply hts.ge, hdeleted]
    have hcompacted := toCell_compactAndExpire canGc q gcBefore hmarker
      (b.deletedAt.apply (RowTombstone.ofRegular tomb) b.marker).tomb
    simp only [htomb, isLive_eq, hcompacted, hcells]

/-- A view with a base column in its key and one other column. -/
def viewSchema : Schema :=
  { staticColumns := [], regularColumns := [.atomic], hasBaseNonPkColumnsInViewPk := true }

def rowUpdate : Fin 3 → MergeTree (DeletableRow viewSchema.regularColumns)
  | 0 => .leaf ⟨⟨Tombstone.none, Tombstone.of 3 0, Tombstone.none_le _⟩, {}, Row.empty⟩
  | 1 => .leaf ⟨RowTombstone.none, { timestamp := 5 }, fun ⟨0, _⟩ => some (AtomicCell.live 2 [])⟩
  | 2 => .leaf ⟨RowTombstone.none, { timestamp := 7, ttl := RowMarker.deadTtl }, Row.empty⟩

/-- The merged rows differ: a dead marker that comes first keeps the live one from erasing the
tombstone. -/
theorem live_compactAndExpire_eval_rowUpdate :
    let t := MergeTree.node (.node (rowUpdate 0) (rowUpdate 1)) (rowUpdate 2)
    let t' := MergeTree.node (rowUpdate 0) (.node (rowUpdate 2) (rowUpdate 1))
    let r := ((t.eval apply).compactAndExpire neverGc viewSchema Tombstone.none 10 0).run
    let r' := ((t'.eval apply).compactAndExpire neverGc viewSchema Tombstone.none 10 0).run
    t.eval apply ≠ t'.eval apply ∧ r.live = r'.live ∧ r.hasLive = r'.hasLive := by
  refine ⟨by decide, live_compactAndExpire_eval rfl (by simp [viewSchema]) ?_ _ _ _ _⟩
  exact List.Perm.cons _ (List.Perm.swap _ _ _)

end DeletableRow

end Scylla.Mutation
