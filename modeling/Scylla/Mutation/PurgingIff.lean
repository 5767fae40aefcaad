import Scylla.Mutation.Purging

/-!
# When tombstones are withheld wrongly

Nothing is withheld wrongly from the partitions of a table without regular columns exactly when
the bounds for regular and shadowable tombstones agree; with regular columns there are always
partitions whose dead cells are lost under a shadowable row tombstone. Both directions are shown
on partitions with one row.
-/

namespace Scylla.Mutation

/-- A tombstone written at time 0 in the value of a column: a dead cell, or a dead element. -/
def CellOf.deadAtZero : (k : ColumnKind) → CellOf k
  | .atomic => AtomicCell.dead 0 0
  | .counter => CounterCell.dead 0 0
  | .collection kt => (⟨Tombstone.none, [([], .dead 0 0)], List.pairwise_singleton _ _⟩ :
      CollectionMutation kt)

theorem CellOf.compactAndExpire_deadAtZero {m : Type → Type} [Monad m] [LawfulMonad m]
    (canGc : Tombstone → Bool → m Bool) {tomb : RowTombstone} (h : 0 ≤ tomb.shadowable.timestamp)
    (queryTime gcBefore : I64) (k : ColumnKind) :
    compactAndExpire canGc tomb queryTime gcBefore k (deadAtZero k) = pure none := by
  cases k with
  | atomic =>
    have hcov : (AtomicCell.dead 0 0).isCoveredBy tomb.shadowable false = true := by
      rw [isCoveredBy_false]
      exact decide_eq_true h
    change AtomicCell.compactAndExpire canGc tomb queryTime gcBefore (.dead 0 0) = _
    rw [AtomicCell.compactAndExpire, if_pos hcov, ite_self]
    rfl
  | counter =>
    have hcov : (CounterCell.dead 0 0).timestamp ≤ tomb.shadowable.timestamp ∨
        tomb.shadowable.isSet = true := .inl h
    change CounterCell.compactAndExpire canGc tomb gcBefore (.dead 0 0) = _
    rw [CounterCell.compactAndExpire, if_pos hcov, ite_self]
    rfl
  | collection kt =>
    have hcov : (AtomicCell.dead 0 0).isCoveredBy tomb.shadowable false = true := by
      rw [isCoveredBy_false]
      exact decide_eq_true h
    change CollectionMutation.compactColumn canGc tomb queryTime gcBefore _ = _
    unfold CollectionMutation.compactColumn CollectionMutation.compactAndExpire
    simp [deadAtZero, Tombstone.none_le, CollectionMutation.compactElement, hcov,
      CollectionMutation.keepSurvivors]
    rfl

theorem CellOf.not_respects_deadAtZero (mp : Bool → I64) (k : ColumnKind) :
    ¬ CellOf.Respects ⟨mp, 0, true, 0⟩ Tombstone.none k (deadAtZero k) none := by
  have hlt : missingTimestamp < (0 : I64) := by decide
  have hpurge : ¬ GcParameters.Purgeable ⟨mp, 0, true, 0⟩ false 0 0 := fun h => lt_irrefl _ h.2
  intro h
  cases k with
  | atomic =>
    rcases h (.inl rfl) hlt with h | h
    · cases h
    · exact hpurge h
  | counter =>
    have hnot : ¬ ((0 : I64) ≤ Tombstone.none.timestamp ∨ Tombstone.none.isSet = true) := by decide
    rcases h 0 0 rfl hnot with h | h
    · cases h
    · exact hpurge h
  | collection kt =>
    rcases h.2 ([], .dead 0 0) List.mem_cons_self (.inl rfl) hlt with h | h
    · cases h
    · exact hpurge h

namespace CompactMutationState

variable {s : Schema} {P : Type} {g : GcParameters}

theorem consumeStaticRow_empty (st : CompactMutationState) :
    (consumeStaticRow g (Row.empty : Row s.staticColumns) :
      StateM _ (List (Emitted s P))) st = ([], st) := by
  have hrow : (Row.empty : Row s.staticColumns).compactAndExpire (canGc g)
      (RowTombstone.ofRegular st.partitionTombstone) g.queryTime g.gcBefore = pure Row.empty :=
    finTraverse_pure _
  have hempty : (Row.empty : Row s.staticColumns).isEmpty = true := by
    simp [Row.isEmpty, Row.empty]
  have hrun : (consumeStaticRow g (Row.empty : Row s.staticColumns) :
      StateM _ (List (Emitted s P))) st = ((do
        let sr ← (Row.empty : Row s.staticColumns).compactAndExpire (canGc g)
          (RowTombstone.ofRegular st.partitionTombstone) g.queryTime g.gcBefore
        if sr.isEmpty then pure [] else
          let header ← partitionIsNotEmpty g
          pure (header ++ [.staticRow sr]) : StateM _ (List (Emitted s P))) st) := rfl
  rw [hrun, hrow, pure_bind, if_pos hempty]
  rfl

def singleRow (pt : Tombstone) (x : P) (cr : DeletableRow s.regularColumns) :
    PartitionStream s P :=
  ⟨pt, Row.empty, [.clusteringRow x cr]⟩

/-- The state in which the row of such a partition is consumed. -/
def afterHeader (s : Schema) (P : Type) (g : GcParameters) (pt : Tombstone) :
    CompactMutationState :=
  if pt.isSet then
    ((consumeTombstone g pt : StateM _ (List (Emitted s P))) { emptyPartition := true }).2
  else { emptyPartition := true }

theorem fragments_singleRow (pt : Tombstone) (x : P) (cr : DeletableRow s.regularColumns)
    (st : CompactMutationState) :
    (compactPartition g (singleRow pt x cr) st).1.fragments =
      [(consumeClusteringRow g x cr (afterHeader s P g pt)).1] := by
  let a := afterHeader s P g pt
  have hrest : ∀ header : List (Emitted s P), Triple (fun st => st = a) (do
      let staticRow ← consumeStaticRow g (Row.empty : Row s.staticColumns)
      let fragments ← [Fragment.clusteringRow x cr].mapM (consume g)
      pure (⟨header, staticRow, fragments⟩ : Compacted s P)) fun out _ =>
        out.fragments = [(consumeClusteringRow g x cr a).1] := by
    refine fun header => Triple.bind (Q := fun _ st => st = a) ?_ fun staticRow => ?_
    · rintro st rfl
      exact congrArg Prod.snd (consumeStaticRow_empty a)
    · rw [List.mapM_cons, List.mapM_nil]
      refine Triple.bind (Q := fun outs _ => outs = [(consumeClusteringRow g x cr a).1]) ?_
        fun outs => Triple.pure fun _ h => h
      refine Triple.bind (Q := fun out _ => out = (consumeClusteringRow g x cr a).1) ?_
        fun out => Triple.pure fun _ h => by rw [h]
      rintro st rfl
      rfl
  have hrun : Triple (fun _ => True) (compactPartition g (singleRow pt x cr)) fun out _ =>
      out.fragments = [(consumeClusteringRow g x cr a).1] := by
    refine Triple.bind (Q := fun _ st => st = { emptyPartition := true }) (fun _ _ => rfl) fun _ => ?_
    refine Triple.ite (fun hset => ?_) fun hset => ?_
    · refine Triple.bind (Q := fun _ st => st = a) ?_ hrest
      rintro st rfl
      exact (if_pos hset).symm
    · rintro st rfl
      exact hrest [] _ (if_neg hset).symm
  exact hrun st trivial

variable {cr : DeletableRow s.regularColumns}

theorem triple_consumeClusteringRow {I : CompactMutationState → Prop}
    {Q : DeletableRow s.regularColumns → Prop} (x : P) (hempty : Q DeletableRow.empty)
    (hrow : ∀ current, Triple I (compactRow g current cr) fun cr' _ => Q cr') :
    Triple I (consumeClusteringRow g x cr) fun out _ => Q (Emitted.findClusteringRow out) := by
  refine Keeps.get.bind_triple fun st _ => Triple.bind (hrow _) fun cr' => ?_
  refine Triple.ite (fun _ => Triple.pure fun _ _ => hempty) fun _ => ?_
  intro st' hQ
  have hheader := keeps_partitionIsNotEmpty_of (g := g) (s := s) (P := P) (I := fun _ => True)
    (fun _ _ => trivial) (fun _ _ _ => ⟨trivial, trivial⟩) st' trivial
  change Q (Emitted.findClusteringRow ((partitionIsNotEmpty g st').1 ++ [.clusteringRow x cr']))
  rw [(hheader.2.find_append _).1]
  exact hQ

/-- A row tombstone below the remembered bound is removed, with its regular part. -/
theorem triple_removeTombstone (hset : cr.deletedAt.tomb.isSet = true)
    (hold : max cr.deletedAt.regular.deletionTime cr.deletedAt.shadowable.deletionTime < g.gcBefore)
    (current : Tombstone) :
    Triple (fun st => cr.deletedAt.tomb.timestamp < boundFor g cr.deletedAt.isShadowable st)
      (compactRow g current cr) fun cr' _ => cr'.deletedAt = RowTombstone.none := by
  have hrest : Triple (fun _ => True) (do
      let marker ← cr.marker.compactAndExpire (canGc g) (applyRegular cr.deletedAt current).tomb
        g.queryTime g.gcBefore
      let cells ← cr.cells.compactAndExpire (canGc g)
        (cellTombstone s marker (applyRegular cr.deletedAt current)) g.queryTime g.gcBefore
      pure (⟨RowTombstone.none, marker, cells⟩ : DeletableRow s.regularColumns))
      fun cr' _ => cr'.deletedAt = RowTombstone.none :=
    Triple.bind (Q := fun _ _ => True) (fun _ _ => trivial) fun marker =>
      Triple.bind (Q := fun _ _ => True) (fun _ _ => trivial) fun cells =>
        Triple.pure fun _ _ => rfl
  refine Triple.ite (fun _ st _ => hrest st trivial) fun _ => ?_
  refine Triple.bind (Q := fun ok _ => ok = true) (fun st hlt => ?_) ?_
  · refine (canPurgeTombstone_apply _ _ _ st).1.trans ?_
    simp [hset, hlt, hold]
  · rintro ok st rfl
    exact hrest st trivial

/-- A row whose columns hold dead cells under a shadowable tombstone. -/
def deadUnderShadowable (s : Schema) : DeletableRow s.regularColumns where
  deletedAt := ⟨Tombstone.none, ⟨0, 0, by decide⟩, Tombstone.none_le _⟩
  marker := {}
  cells := fun i => some (CellOf.deadAtZero (s.regularColumns.get i))

theorem timestamp_le_cellTombstone (s : Schema) (marker : RowMarker) (t : RowTombstone) :
    t.shadowable.timestamp ≤ (cellTombstone s marker t).shadowable.timestamp := by
  unfold cellTombstone
  split
  · have hmarker : ¬ (({} : RowMarker).isLive = true ∧
        (t.shadowable.apply Tombstone.highest).timestamp < ({} : RowMarker).timestamp) :=
      fun h => absurd h.1 (by decide)
    rw [RowTombstone.apply, RowTombstone.maybeShadow, if_neg hmarker, Tombstone.timestamp_apply]
    exact le_max_left _ _
  · exact le_rfl

theorem triple_loseCells (current : Tombstone) :
    Triple (fun _ => True) (compactRow g current (deadUnderShadowable s))
      fun cr' _ => cr'.cells = Row.empty := by
  have hcells : ∀ marker, (deadUnderShadowable s).cells.compactAndExpire (canGc g)
      (cellTombstone s marker (applyRegular (deadUnderShadowable s).deletedAt current))
      g.queryTime g.gcBefore = pure Row.empty := by
    intro marker
    have hle : (0 : I64) ≤ (cellTombstone s marker
        (applyRegular (deadUnderShadowable s).deletedAt current)).shadowable.timestamp := by
      refine le_trans ?_ (timestamp_le_cellTombstone s marker _)
      rw [applyRegular, Tombstone.timestamp_apply]
      exact le_max_left _ _
    refine Eq.trans ?_ (finTraverse_pure _)
    unfold Row.compactAndExpire
    congr 1
    funext i
    exact CellOf.compactAndExpire_deadAtZero (canGc g) hle _ _ _
  have hrest : ∀ remove : Bool, Triple (fun _ => True) (do
      let marker ← (deadUnderShadowable s).marker.compactAndExpire (canGc g)
        (applyRegular (deadUnderShadowable s).deletedAt current).tomb g.queryTime g.gcBefore
      let cells ← (deadUnderShadowable s).cells.compactAndExpire (canGc g) (cellTombstone s marker
        (applyRegular (deadUnderShadowable s).deletedAt current)) g.queryTime g.gcBefore
      pure (⟨if remove then RowTombstone.none else (deadUnderShadowable s).deletedAt, marker,
        cells⟩ : DeletableRow s.regularColumns)) fun cr' _ => cr'.cells = Row.empty := by
    refine fun remove => Triple.bind (Q := fun _ _ => True) (fun _ _ => trivial) fun marker => ?_
    rw [hcells, pure_bind]
    exact Triple.pure fun _ _ => rfl
  refine Triple.ite (fun _ => hrest true) fun _ => ?_
  exact Triple.bind (Q := fun _ _ => True) (fun _ _ => trivial) hrest

theorem respects_of_singleRow {pt : Tombstone} {x : P} {st : CompactMutationState}
    (h : (singleRow pt x cr).Respects g (compactPartition g (singleRow pt x cr) st).1) :
    cr.Respects g pt
      (Emitted.findClusteringRow (consumeClusteringRow g x cr (afterHeader s P g pt)).1) := by
  have hfragments := h.fragments
  rw [fragments_singleRow] at hfragments
  have hrow : cr.Respects g (max pt Tombstone.none) _ := hfragments.1
  rwa [max_eq_left (Tombstone.none_le pt)] at hrow

theorem maxPurgeable_afterHeader (pt : Tombstone) (hcheap : g.cheapToGetGcBefore = true)
    (hset : pt.isSet = true) (hold : pt.deletionTime < g.gcBefore)
    (hlt : pt.timestamp < g.getMaxPurgeable false) :
    (afterHeader s P g pt).maxPurgeable = g.getMaxPurgeable false := by
  let st₁ : CompactMutationState := { emptyPartition := true, partitionTombstone := pt }
  have hask : canPurgeRegular g pt st₁ =
      (true, { st₁ with maxPurgeable := g.getMaxPurgeable false }) := by
    unfold canPurgeRegular canPurgeTombstone
    rw [if_pos hcheap, if_pos hold, canGc_apply, if_pos hset]
    have hbound : boundFor g false st₁ = g.getMaxPurgeable false := if_pos rfl
    rw [hbound, decide_eq_true hlt]
  rw [afterHeader, if_pos hset]
  change ((if (canPurgeRegular g pt st₁).1 then pure [] else partitionIsNotEmpty g :
    StateM _ (List (Emitted s P))) (canPurgeRegular g pt st₁).2).2.maxPurgeable = _
  rw [hask]
  rfl

theorem removed_singleRow (g : GcParameters) (pt : Tombstone) (x : P)
    (cr : DeletableRow s.regularColumns) (hset : cr.deletedAt.tomb.isSet = true)
    (hold : max cr.deletedAt.regular.deletionTime cr.deletedAt.shadowable.deletionTime < g.gcBefore)
    (hlt : cr.deletedAt.tomb.timestamp <
      boundFor g cr.deletedAt.isShadowable (afterHeader s P g pt)) :
    (Emitted.findClusteringRow (consumeClusteringRow g x cr (afterHeader s P g pt)).1).deletedAt =
      RowTombstone.none :=
  triple_consumeClusteringRow (Q := fun cr' => cr'.deletedAt = RowTombstone.none) x rfl
    (triple_removeTombstone hset hold) _ hlt

section Pair

variable (t : I64) (ht : t ≠ missingTimestamp)

def older : Tombstone := .written t 0 ht

def younger : Tombstone := .written t 1 ht

theorem older_lt_younger : older t ht < younger t ht :=
  Tombstone.lt_iff.mpr (.inr ⟨rfl, show (0 : I64) < 1 by decide⟩)

theorem none_lt_older : Tombstone.none < older t ht := by
  refine lt_of_le_of_ne (Tombstone.none_le _) fun h => ht ?_
  exact (congrArg Tombstone.timestamp h).symm

theorem none_lt_younger : Tombstone.none < younger t ht :=
  (none_lt_older t ht).trans (older_lt_younger t ht)

theorem isSet_younger : (younger t ht).isSet = true :=
  Tombstone.isSet_of_lt (older_lt_younger t ht)

end Pair

end CompactMutationState

open CompactMutationState in
/-- Purging by `getMaxPurgeable` never withholds a tombstone wrongly exactly when the bounds agree
and the table has no regular columns. Outside of views whose rows depend on their marker, a
partition without shadowable row tombstones never loses one. -/
theorem compactPartition_respects_iff (s : Schema) (P : Type) [Inhabited P]
    (getMaxPurgeable : Bool → I64) :
    ((∀ (gcBefore : I64) (cheap : Bool) (queryTime : I64) (p : PartitionStream s P)
        (st : CompactMutationState),
        p.Respects ⟨getMaxPurgeable, gcBefore, cheap, queryTime⟩
          (compactPartition ⟨getMaxPurgeable, gcBefore, cheap, queryTime⟩ p st).1) ↔
      s.regularColumns = [] ∧ BoundsAgree getMaxPurgeable) ∧
    (s.hasBaseNonPkColumnsInViewPk = false →
      ∀ (gcBefore : I64) (cheap : Bool) (queryTime : I64) (p : PartitionStream s P)
        (st : CompactMutationState),
        (∀ position row, .clusteringRow position row ∈ p.fragments → row.deletedAt.IsRegular) →
        p.Respects ⟨getMaxPurgeable, gcBefore, cheap, queryTime⟩
          (compactPartition ⟨getMaxPurgeable, gcBefore, cheap, queryTime⟩ p st).1) := by
  have hold : max (0 : I64) 1 < 2 := by decide
  refine ⟨⟨fun h => ⟨?_, fun t ht => ⟨fun hlt => ?_, fun hlt => ?_⟩⟩, ?_⟩, ?_⟩
  · -- a dead cell in any column is lost under a shadowable row tombstone
    by_contra hne
    let g : GcParameters := ⟨getMaxPurgeable, 0, true, 0⟩
    have hrow := respects_of_singleRow
      (h 0 true 0 (singleRow Tombstone.none default (deadUnderShadowable s)) {})
    have hlost : (Emitted.findClusteringRow (consumeClusteringRow g (default : P)
        (deadUnderShadowable s) (afterHeader s P g Tombstone.none)).1).cells = Row.empty :=
      triple_consumeClusteringRow (Q := fun cr => cr.cells = Row.empty) default rfl
        triple_loseCells _ trivial
    let i : Fin s.regularColumns.length := ⟨0, List.length_pos_iff.mpr hne⟩
    have hcell := hrow.cells i _ rfl
    rw [hlost] at hcell
    exact CellOf.not_respects_deadAtZero getMaxPurgeable _ hcell
  · -- the regular part of a row tombstone goes with its shadowable part
    let cr : DeletableRow s.regularColumns :=
      ⟨⟨older t ht, younger t ht, (older_lt_younger t ht).le⟩, {}, Row.empty⟩
    have hshadowable : cr.deletedAt.isShadowable = true := decide_eq_true (older_lt_younger t ht)
    have hrow := respects_of_singleRow (h 2 true 0 (singleRow Tombstone.none (default : P) cr) {})
    have hremoved := removed_singleRow ⟨getMaxPurgeable, 2, true, 0⟩ Tombstone.none (default : P)
      cr (isSet_younger t ht) hold (by rw [hshadowable]; exact hlt)
    rcases hrow.deletedAt (none_lt_younger t ht) with heq | ⟨-, hregular⟩
    · have : Tombstone.none = younger t ht :=
        congrArg RowTombstone.shadowable (hremoved.symm.trans heq)
      exact absurd this (none_lt_younger t ht).ne
    · exact (hregular (none_lt_older t ht)).1
  · -- a shadowable row tombstone is purged by the bound that the partition tombstone asked for
    let cr : DeletableRow s.regularColumns :=
      ⟨⟨Tombstone.none, younger t ht, Tombstone.none_le _⟩, {}, Row.empty⟩
    have hshadowable : cr.deletedAt.isShadowable = true := decide_eq_true (none_lt_younger t ht)
    have hrow := respects_of_singleRow (h 2 true 0 (singleRow (older t ht) (default : P) cr) {})
    have hbound : boundFor ⟨getMaxPurgeable, 2, true, 0⟩ true
        (afterHeader s P ⟨getMaxPurgeable, 2, true, 0⟩ (older t ht)) = getMaxPurgeable false := by
      have hasked := maxPurgeable_afterHeader (s := s) (P := P)
        (g := ⟨getMaxPurgeable, 2, true, 0⟩) (older t ht) rfl
        (Tombstone.isSet_of_lt (none_lt_older t ht)) (show (0 : I64) < 2 by decide) hlt
      rw [boundFor, hasked, if_neg]
      exact ((missingTimestamp_le t).trans_lt hlt).ne'
    have hremoved := removed_singleRow ⟨getMaxPurgeable, 2, true, 0⟩ (older t ht) (default : P)
      cr (isSet_younger t ht) hold (by rw [hshadowable, hbound]; exact hlt)
    rcases hrow.deletedAt (older_lt_younger t ht) with heq | ⟨hpurge, -⟩
    · have : Tombstone.none = younger t ht :=
        congrArg RowTombstone.shadowable (hremoved.symm.trans heq)
      exact absurd this (none_lt_younger t ht).ne
    · rw [hshadowable] at hpurge
      exact hpurge.1
  · rintro ⟨hcolumns, hagree⟩ gcBefore cheap queryTime p st
    exact respects_compactPartition (fun _ _ _ => ⟨.inl hagree, .inl hcolumns⟩) st
  · intro hs gcBefore cheap queryTime p st hp
    exact respects_compactPartition (fun position row hrow =>
      ⟨.inr (hp position row hrow), .inr ⟨hs, hp position row hrow⟩⟩) st

/-- Outside the compaction, live data starts at timestamp 10 and live row markers at 100. -/
def boundsApart : GcParameters where
  getMaxPurgeable isShadowable := if isShadowable then 100 else 10
  gcBefore := 2
  cheapToGetGcBefore := true
  queryTime := 0

def shadowableThenRegular : PartitionStream ⟨[], [], false⟩ ℕ where
  tombstone := Tombstone.none
  staticRow := Row.empty
  fragments := [
    .clusteringRow 0 ⟨⟨Tombstone.none, ⟨5, 0, by decide⟩, Tombstone.none_le _⟩, {}, Row.empty⟩,
    .clusteringRow 1 ⟨RowTombstone.ofRegular ⟨50, 0, by decide⟩, {}, Row.empty⟩]

/-- The first row asks for the bound of shadowable tombstones, by which the regular tombstone of the
second is withheld although live data of timestamp 10 to 50 may be outside. -/
theorem compactPartition_withholds_regular :
    ¬ shadowableThenRegular.Respects boundsApart
      (CompactMutationState.compactPartition boundsApart shadowableThenRegular {}).1 := by
  intro h
  have hfragments := h.fragments
  have hout : (CompactMutationState.compactPartition boundsApart shadowableThenRegular
      {}).1.fragments = [[], []] := rfl
  have hrow : DeletableRow.Respects boundsApart (max Tombstone.none Tombstone.none)
      ⟨RowTombstone.ofRegular ⟨50, 0, by decide⟩, {}, Row.empty⟩ DeletableRow.empty :=
    hfragments.2.1
  rcases hrow.deletedAt (by decide) with heq | ⟨hpurge, -⟩
  · exact absurd heq (by decide)
  · exact absurd hpurge.1 (by decide)

end Scylla.Mutation
