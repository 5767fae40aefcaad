import Scylla.Mutation.Compactor

/-!
# What a compaction may withhold

A tombstone that no regular tombstone of its partition deletes may be withheld only if it is older
than `gc_before` and the bound for its own shadowability, a row tombstone with both parts also for
its regular part; and a shadowable row tombstone must not compact away dead cells. The compactor
meets this for partitions without shadowable row tombstones, but with them it does not.
-/

namespace Scylla.Mutation

open Bool

/-- The tombstone may be withheld. -/
def GcParameters.Purgeable (g : GcParameters) (isShadowable : Bool) (timestamp deletionTime : I64) :
    Prop :=
  timestamp < g.getMaxPurgeable isShadowable ∧ deletionTime < g.gcBefore

/-- The bounds for both shadowabilities allow the same tombstones to be purged. -/
def BoundsAgree (getMaxPurgeable : Bool → I64) : Prop :=
  ∀ t, t ≠ missingTimestamp → (t < getMaxPurgeable true ↔ t < getMaxPurgeable false)

section Respects

variable (g : GcParameters)

def AtomicCell.Respects (t : Tombstone) (c : AtomicCell) (c' : Option AtomicCell) : Prop :=
  (c.isLive = false ∨ c.hasExpired g.queryTime = true) → t.timestamp < c.timestamp →
    c' = some (.dead c.timestamp c.deletionTime) ∨ g.Purgeable false c.timestamp c.deletionTime

def CellOf.Respects (t : Tombstone) : (k : ColumnKind) → CellOf k → Option (CellOf k) → Prop
  | .atomic, c, c' => AtomicCell.Respects g t c c'
  | .counter, c, c' => ∀ timestamp deletionTime, c = CounterCell.dead timestamp deletionTime →
      ¬ (timestamp ≤ t.timestamp ∨ t.isSet) →
      c' = some c ∨ g.Purgeable false timestamp deletionTime
  | .collection kt, c, c' =>
    let c : CollectionMutation kt := c
    let c' : Option (CollectionMutation kt) := c'
    (t < c.tomb → CollectionMutation.tombOf c' = c.tomb ∨
      g.Purgeable false c.tomb.timestamp c.tomb.deletionTime) ∧
    ∀ e ∈ c.cells, AtomicCell.Respects g (t.apply c.tomb) e.2 (CollectionMutation.lookupOf c' e.1)

def Row.Respects {columns : List ColumnKind} (t : Tombstone) (r r' : Row columns) : Prop :=
  ∀ i, ∀ c ∈ r i, CellOf.Respects g t _ c (r' i)

/-- The same for a row under the tombstones of its partition and range. -/
structure DeletableRow.Respects {columns : List ColumnKind} (current : Tombstone)
    (r r' : DeletableRow columns) : Prop where
  deletedAt : current < r.deletedAt.tomb → r'.deletedAt = r.deletedAt ∨
    g.Purgeable r.deletedAt.isShadowable r.deletedAt.tomb.timestamp r.deletedAt.tomb.deletionTime ∧
      (current < r.deletedAt.regular →
        g.Purgeable false r.deletedAt.regular.timestamp r.deletedAt.regular.deletionTime)
  marker : ∀ c ∈ r.marker.toCell, (c.isLive = false ∨ c.hasExpired g.queryTime = true) →
    (current.apply r.deletedAt.tomb).timestamp < c.timestamp →
    r'.marker.isMissing = false ∨ g.Purgeable false c.timestamp c.deletionTime
  cells : r.cells.Respects g (current.apply r.deletedAt.regular) r'.cells

variable {s : Schema} {P : Type}

def Emitted.findStaticRow : List (Emitted s P) → Row s.staticColumns
  | [] => Row.empty
  | .staticRow r :: _ => r
  | _ :: l => findStaticRow l

def Emitted.findClusteringRow : List (Emitted s P) → DeletableRow s.regularColumns
  | [] => DeletableRow.empty
  | .clusteringRow _ r :: _ => r
  | _ :: l => findClusteringRow l

def Fragment.Respects (pt active : Tombstone) : Fragment s P → List (Emitted s P) → Prop
  | .clusteringRow _ row, out =>
    row.Respects g (max pt active) (Emitted.findClusteringRow out)
  | .rangeTombstoneChange position tomb, out => pt < tomb →
    .rangeTombstoneChange position tomb ∈ out ∨
      g.Purgeable false tomb.timestamp tomb.deletionTime

def Fragment.next (active : Tombstone) : Fragment s P → Tombstone
  | .clusteringRow .. => active
  | .rangeTombstoneChange _ tomb => tomb

/-- No tombstone of the fragments is withheld wrongly. -/
def Fragment.AllRespect (pt : Tombstone) :
    Tombstone → List (Fragment s P) → List (List (Emitted s P)) → Prop
  | active, f :: fs, out :: outs => f.Respects g pt active out ∧ AllRespect pt (f.next active) fs outs
  | _, [], [] => True
  | _, _, _ => False

structure PartitionStream.Respects (p : PartitionStream s P)
    (out : CompactMutationState.Compacted s P) : Prop where
  tombstone : p.tombstone.isSet = true → .partitionTombstone p.tombstone ∈ out.header ∨
    g.Purgeable false p.tombstone.timestamp p.tombstone.deletionTime
  staticRow : p.staticRow.Respects g p.tombstone (Emitted.findStaticRow out.staticRow)
  fragments : Fragment.AllRespect g p.tombstone Tombstone.none p.fragments out.fragments

end Respects

/-! ## Cells -/

theorem Tombstone.timestamp_of (timestamp deletionTime : I64) :
    (Tombstone.of timestamp deletionTime).timestamp = timestamp := by
  unfold Tombstone.of
  split
  · next h => exact h.symm
  · rfl

section Cells

variable {σ : Type} {I : σ → Prop} {canGc : Tombstone → Bool → StateM σ Bool} {g : GcParameters}
  (hgc : ∀ t, Keeps I (canGc t false) fun ok => ok = true → t.timestamp < g.getMaxPurgeable false)

include hgc

theorem keeps_canPurge (timestamp deletionTime : I64) :
    Keeps I (canPurge canGc g.gcBefore timestamp deletionTime)
      fun ok => ok = true → g.Purgeable false timestamp deletionTime := by
  refine Keeps.ite (fun hlt => ?_) fun _ => Keeps.pure (by simp)
  refine (hgc _).mono fun ok hok h => ⟨?_, hlt⟩
  simpa only [Tombstone.timestamp_of] using hok h

theorem keeps_expireCell (c : AtomicCell) :
    Keeps I (expireCell canGc g.queryTime g.gcBefore c) fun c' =>
      (c.isLive = false ∨ c.hasExpired g.queryTime = true) →
        c' = some (.dead c.timestamp c.deletionTime) ∨
          g.Purgeable false c.timestamp c.deletionTime := by
  have hpurge := keeps_canPurge hgc c.timestamp c.deletionTime
  refine Keeps.ite (fun _ => ?_) fun hexp => Keeps.ite (fun hdead => ?_) fun hlive => ?_
  · refine hpurge.bind fun ok hok => Keeps.ite (fun h => ?_) fun _ => ?_
    · exact Keeps.pure fun _ => .inr (hok h)
    · exact Keeps.pure fun _ => .inl rfl
  · refine hpurge.bind fun ok hok => Keeps.ite (fun h => ?_) fun _ => ?_
    · exact Keeps.pure fun _ => .inr (hok h)
    · refine Keeps.pure fun _ => .inl ?_
      cases c with
      | dead t d => rfl
      | live t v => cases hdead
      | expiring t v e l => cases hdead
  · refine Keeps.pure fun h => absurd h ?_
    simp_all

variable {tomb : RowTombstone} {t : Tombstone} {kt : KeyType}

theorem AtomicCell.keeps_compactAndExpire (ht : tomb.shadowable ≤ t) (c : AtomicCell) :
    Keeps I (compactAndExpire canGc tomb g.queryTime g.gcBefore c) (c.Respects g t) := by
  have hcovered : ∀ t' ≤ t, c.isCoveredBy t' false = true → ¬ t.timestamp < c.timestamp := by
    intro t' ht' h
    rw [isCoveredBy_false, decide_eq_true_eq] at h
    exact (h.trans (Tombstone.timestamp_mono ht')).not_gt
  refine Keeps.ite (fun h => ?_) fun _ => Keeps.ite (fun h => ?_) fun _ => ?_
  · exact Keeps.pure fun _ hlt => absurd hlt (hcovered _ (tomb.regular_le.trans ht) h)
  · exact Keeps.pure fun _ hlt => absurd hlt (hcovered _ ht h)
  · exact (keeps_expireCell hgc c).mono fun c' h hdead _ => h hdead

theorem CounterCell.keeps_compactAndExpire (ht : tomb.shadowable ≤ t) (c : CounterCell) :
    Keeps I (compactAndExpire canGc tomb g.gcBefore c) (CellOf.Respects g t .counter c) := by
  have hcovered : ∀ t' ≤ t, c.timestamp ≤ t'.timestamp ∨ t'.isSet = true →
      c.timestamp ≤ t.timestamp ∨ t.isSet = true := by
    rintro t' ht' (h | h)
    · exact .inl (h.trans (Tombstone.timestamp_mono ht'))
    · exact .inr (Tombstone.isSet_mono ht' h)
  refine Keeps.ite (fun h => ?_) fun _ => Keeps.ite (fun h => ?_) fun _ => ?_
  · refine Keeps.pure fun ts dt hc hnot => absurd (hcovered _ (tomb.regular_le.trans ht) h) ?_
    rwa [hc]
  · refine Keeps.pure fun ts dt hc hnot => absurd (hcovered _ ht h) ?_
    rwa [hc]
  · cases c with
    | dead ts dt =>
      refine (keeps_canPurge hgc ts dt).bind fun ok hok => Keeps.ite (fun h => ?_) fun _ => ?_
      · refine Keeps.pure fun ts' dt' hc _ => .inr ?_
        cases hc
        exact hok h
      · exact Keeps.pure fun _ _ _ _ => .inl rfl
    | live ts l => exact Keeps.pure fun ts' dt' hc => by cases hc

omit hgc in
theorem CollectionMutation.lookup_keepSurvivors {cells : List (Bytes × AtomicCell)}
    {verdicts : List (Option AtomicCell)} {q : Bytes × AtomicCell → Option AtomicCell → Prop}
    (hs : SortedBy kt.cmp Prod.fst cells) (h : List.Forall₂ q cells verdicts) :
    ∀ e ∈ cells, q e (lookupBy kt.cmp Prod.fst (fun e => some e.2) e.1
      (keepSurvivors cells verdicts)) := by
  induction h with
  | nil => simp
  | @cons e v cells verdicts hev h ih =>
    have hlater : ∀ x ∈ keepSurvivors cells verdicts, kt.cmp e.1 x.1 = .lt := by
      intro x hx
      obtain ⟨e', he', hfst⟩ := fst_mem_keepSurvivors hx
      rw [hfst]
      exact List.rel_of_pairwise_cons hs he'
    intro e' he'
    rcases List.mem_cons.mp he' with rfl | he'
    · cases v with
      | none =>
        have hnone : lookupBy kt.cmp Prod.fst (fun e => some e.2) e'.1
            (keepSurvivors cells verdicts) = none := lookupBy_eq_none hlater
        change q e' (lookupBy _ _ _ _ (keepSurvivors cells verdicts))
        rwa [hnone]
      | some c =>
        change q e' (lookupBy _ _ _ _ ((e'.1, c) :: keepSurvivors cells verdicts))
        rwa [lookupBy_cons, if_pos Std.ReflCmp.compare_self]
    · have hlt : kt.cmp e.1 e'.1 = .lt := List.rel_of_pairwise_cons hs he'
      have hrest := ih hs.of_cons e' he'
      cases v with
      | none => exact hrest
      | some c =>
        change q e' (lookupBy _ _ _ _ ((e.1, c) :: keepSurvivors cells verdicts))
        rwa [lookupBy_cons, if_neg (by rw [Std.OrientedCmp.gt_of_lt hlt]; decide)]

theorem CollectionMutation.keeps_compactElement {tomb shadowable : Tombstone} (htomb : tomb ≤ t)
    (hshadowable : shadowable ≤ t) (e : Bytes × AtomicCell) :
    Keeps I (compactElement canGc tomb shadowable g.queryTime g.gcBefore e)
      (e.2.Respects g t) := by
  refine Keeps.ite (fun h => ?_) fun _ => ?_
  · refine Keeps.pure fun _ hlt => absurd hlt ?_
    simp only [isCoveredBy_false, or_eq_true, decide_eq_true_eq] at h
    rcases h with h | h
    · exact (h.trans (Tombstone.timestamp_mono htomb)).not_gt
    · exact (h.trans (Tombstone.timestamp_mono hshadowable)).not_gt
  · exact (keeps_expireCell hgc e.2).mono fun c' h hdead _ => h hdead

theorem CollectionMutation.keeps_compactAndExpire (ht : tomb.shadowable ≤ t)
    (c : CollectionMutation kt) :
    Keeps I (compactAndExpire canGc tomb g.queryTime g.gcBefore c) fun c' =>
      (t < c.tomb → c'.tomb = c.tomb ∨
        g.Purgeable false c.tomb.timestamp c.tomb.deletionTime) ∧
      ∀ e ∈ c.cells, e.2.Respects g (t.apply c.tomb) (c'.lookup e.1) := by
  have hle : c.tomb.apply tomb.regular ≤ t.apply c.tomb ∧ tomb.shadowable ≤ t.apply c.tomb := by
    simp only [Tombstone.apply_eq_max]
    exact ⟨max_le (le_max_right _ _) ((tomb.regular_le.trans ht).trans (le_max_left _ _)),
      ht.trans (le_max_left _ _)⟩
  have hrest : ∀ tomb', (t < c.tomb → tomb' = c.tomb ∨
      g.Purgeable false c.tomb.timestamp c.tomb.deletionTime) →
      Keeps I (do
        let verdicts ← c.cells.mapM (compactElement canGc (c.tomb.apply tomb.regular)
          tomb.shadowable g.queryTime g.gcBefore)
        pure (⟨tomb', keepSurvivors c.cells verdicts, sorted_keepSurvivors c.sorted verdicts⟩ :
          CollectionMutation kt)) fun c' =>
        (t < c.tomb → c'.tomb = c.tomb ∨
          g.Purgeable false c.tomb.timestamp c.tomb.deletionTime) ∧
        ∀ e ∈ c.cells, e.2.Respects g (t.apply c.tomb) (c'.lookup e.1) := by
    intro tomb' htomb'
    refine (Keeps.mapM fun e _ => keeps_compactElement hgc hle.1 hle.2 e).bind fun verdicts h => ?_
    exact Keeps.pure ⟨htomb', lookup_keepSurvivors c.sorted h⟩
  refine Keeps.ite (fun hcov => ?_) fun _ => ?_
  · exact hrest _ fun hlt => absurd (hcov.trans (tomb.regular_le.trans ht)) hlt.not_ge
  · refine (keeps_canPurge hgc _ _).bind fun ok hok => Keeps.ite (fun h => ?_) fun _ => ?_
    · exact hrest _ fun _ => .inr (hok h)
    · exact hrest _ fun _ => .inl rfl

theorem CollectionMutation.keeps_compactColumn (ht : tomb.shadowable ≤ t)
    (c : CollectionMutation kt) :
    Keeps I (compactColumn canGc tomb g.queryTime g.gcBefore c)
      (CellOf.Respects g t (.collection kt) c) := by
  refine (keeps_compactAndExpire hgc ht c).bind fun c' hc' => Keeps.ite (fun herase => ?_) fun _ => ?_
  · -- what is erased has no element left and no tombstone above that of the row
    simp only [and_eq_true, List.isEmpty_iff, decide_eq_true_eq] at herase
    refine Keeps.pure ⟨fun hlt => ?_, fun e he => ?_⟩
    · rcases hc'.1 hlt with h | h
      · have : c.tomb ≤ t := h ▸ herase.2.trans ht
        exact absurd this hlt.not_ge
      · exact .inr h
    · have hlook := hc'.2 e he
      rwa [lookup, herase.1] at hlook
  · exact Keeps.pure hc'

theorem CellOf.keeps_compactAndExpire (ht : tomb.shadowable ≤ t) (k : ColumnKind) (c : CellOf k) :
    Keeps I (compactAndExpire canGc tomb g.queryTime g.gcBefore k c) (CellOf.Respects g t k c) := by
  cases k with
  | atomic => exact AtomicCell.keeps_compactAndExpire hgc ht c
  | counter => exact CounterCell.keeps_compactAndExpire hgc ht c
  | collection kt => exact CollectionMutation.keeps_compactColumn hgc ht c

theorem Row.keeps_compactAndExpire {columns : List ColumnKind}
    (ht : columns = [] ∨ tomb.shadowable ≤ t) (r : Row columns) :
    Keeps I (compactAndExpire canGc tomb g.queryTime g.gcBefore r) (r.Respects g t) := by
  refine Keeps.finTraverse (q := fun i c' => ∀ c ∈ r i, CellOf.Respects g t _ c c') fun i => ?_
  have ht' : tomb.shadowable ≤ t := by
    rcases ht with rfl | ht
    · exact i.elim0
    · exact ht
  cases hr : r i with
  | none => exact Keeps.pure fun c hc => by cases hc
  | some c =>
    refine (CellOf.keeps_compactAndExpire hgc ht' _ c).mono fun c' h d hd => ?_
    cases hd
    exact h

theorem RowMarker.keeps_compactAndExpire (t : Tombstone) (r : RowMarker) :
    Keeps I (compactAndExpire canGc t g.queryTime g.gcBefore r) fun r' =>
      ∀ c ∈ r.toCell, (c.isLive = false ∨ c.hasExpired g.queryTime = true) →
        t.timestamp < c.timestamp →
        r'.isMissing = false ∨ g.Purgeable false c.timestamp c.deletionTime := by
  refine Keeps.ite (fun hmiss => ?_) fun hmiss => Keeps.ite (fun hcov => ?_) fun _ => ?_
  · refine Keeps.pure fun c hc => ?_
    have hnone : r.toCell = none := if_pos hmiss
    rw [hnone] at hc
    cases hc
  · refine Keeps.pure fun c hc _ hlt => absurd hlt ?_
    rw [timestamp_of_toCell hc]
    exact hcov.not_gt
  · have hkept : ∀ r' : RowMarker, r'.timestamp = r.timestamp → r'.isMissing = false := by
      intro r' hr'
      simpa [isMissing, hr'] using hmiss
    by_cases hexp : (noTtl < r.ttl && r.expiry ≤ g.queryTime) = true
    · simp only [if_pos hexp]
      refine (keeps_canPurge hgc _ _).bind fun ok hok => Keeps.ite (fun h => ?_) fun _ => ?_
      · refine Keeps.pure fun c hc _ _ => .inr ?_
        simp only [and_eq_true, decide_eq_true_eq] at hexp
        rw [eq_expiring_of_toCell hc hexp.1]
        exact hok h
      · exact Keeps.pure fun c _ _ _ => .inl (hkept _ rfl)
    · simp only [if_neg hexp]
      refine Keeps.ite (fun hdead => ?_) fun hdead => ?_
      · refine (keeps_canPurge hgc _ _).bind fun ok hok => Keeps.ite (fun h => ?_) fun _ => ?_
        · refine Keeps.pure fun c hc _ _ => .inr ?_
          rw [eq_dead_of_toCell hc hdead]
          exact hok h
        · exact Keeps.pure fun c _ _ _ => .inl (hkept _ rfl)
      · exact Keeps.pure fun c _ _ _ => .inl (hkept _ rfl)

end Cells

/-! ## The compactor -/

namespace CompactMutationState

variable {s : Schema} {P : Type} {g : GcParameters} {pt active : Tombstone}

/-- The remembered bound is one that all tombstones asked about may be compared with. -/
structure Inv (g : GcParameters) (pt active : Tombstone) (st : CompactMutationState) : Prop where
  partitionTombstone : st.partitionTombstone = pt
  effectiveTombstone : max pt st.effectiveTombstone = max pt active
  maxPurgeable : st.maxPurgeable = missingTimestamp ∨
    st.maxPurgeable = g.getMaxPurgeable false ∨
    BoundsAgree g.getMaxPurgeable ∧ st.maxPurgeable = g.getMaxPurgeable true

/-- The bound that a question of this shadowability is answered by. -/
def boundFor (g : GcParameters) (isShadowable : Bool) (st : CompactMutationState) : I64 :=
  if st.maxPurgeable = missingTimestamp then g.getMaxPurgeable isShadowable else st.maxPurgeable

variable (t : Tombstone)

theorem canGc_apply (isShadowable : Bool) (st : CompactMutationState) :
    canGc g t isShadowable st = if t.isSet then
      (decide (t.timestamp < boundFor g isShadowable st),
        { st with maxPurgeable := boundFor g isShadowable st }) else (false, st) := by
  unfold canGc boundFor
  by_cases hset : t.isSet = true
  · by_cases hmiss : st.maxPurgeable = missingTimestamp
    · simp [hset, hmiss, bind, StateT.bind, get, getThe, MonadStateOf.get, StateT.get,
        modify, modifyGet, MonadStateOf.modifyGet, StateT.modifyGet, pure, StateT.pure]
    · simp [hset, hmiss, bind, StateT.bind, get, getThe, MonadStateOf.get, StateT.get, pure,
        StateT.pure]
  · simp only [hset]
    rfl

variable {isShadowable : Bool}

section

variable (hb : BoundsAgree g.getMaxPurgeable ∨ isShadowable = false)

include hb

theorem keeps_canGc :
    Keeps (Inv g pt active) (canGc g t isShadowable) fun ok => ok = true →
      t.timestamp < g.getMaxPurgeable false ∧ t.timestamp < g.getMaxPurgeable isShadowable := by
  intro st hst
  rw [canGc_apply]
  by_cases hset : t.isSet = true
  · rw [if_pos hset]
    have hbound : boundFor g isShadowable st = g.getMaxPurgeable false ∨
        BoundsAgree g.getMaxPurgeable ∧ boundFor g isShadowable st = g.getMaxPurgeable true := by
      unfold boundFor
      split
      · rcases hb with hb | hb
        · cases isShadowable
          · exact .inl rfl
          · exact .inr ⟨hb, rfl⟩
        · exact .inl (by rw [hb])
      · next hne => exact hst.maxPurgeable.resolve_left hne
    refine ⟨⟨hst.partitionTombstone, hst.effectiveTombstone, .inr hbound⟩, fun hlt => ?_⟩
    simp only [decide_eq_true_eq] at hlt
    have hts : t.timestamp ≠ missingTimestamp := by simpa [Tombstone.isSet] using hset
    have hfalse : t.timestamp < g.getMaxPurgeable false := by
      rcases hbound with h | ⟨hagree, h⟩
      · rwa [h] at hlt
      · rw [h] at hlt
        exact (hagree _ hts).mp hlt
    refine ⟨hfalse, ?_⟩
    rcases hb with hagree | rfl
    · cases isShadowable
      · exact hfalse
      · exact (hagree _ hts).mpr hfalse
    · exact hfalse
  · rw [if_neg hset]
    exact ⟨hst, fun h => by cases h⟩

theorem keeps_canPurgeTombstone
    (deletionTime : I64) :
    Keeps (Inv g pt active) (canPurgeTombstone g t isShadowable deletionTime) fun ok => ok = true →
      t.timestamp < g.getMaxPurgeable false ∧ t.timestamp < g.getMaxPurgeable isShadowable ∧
        deletionTime < g.gcBefore := by
  refine Keeps.ite (fun _ => Keeps.ite (fun hlt => ?_) fun _ => Keeps.pure (by simp)) fun _ => ?_
  · exact (keeps_canGc t hb).mono fun ok hok h => ⟨(hok h).1, (hok h).2, hlt⟩
  · refine (keeps_canGc t hb).bind fun ok hok => Keeps.pure fun h => ?_
    rw [and_eq_true, decide_eq_true_eq] at h
    exact ⟨(hok h.1).1, (hok h.1).2, h.2⟩

end

theorem keeps_canPurgeRegular :
    Keeps (Inv g pt active) (canPurgeRegular g t) fun ok => ok = true →
      g.Purgeable false t.timestamp t.deletionTime :=
  (keeps_canPurgeTombstone t (.inr rfl) _).mono fun _ hok h => ⟨(hok h).1, (hok h).2.2⟩

/-- The header of a partition has no rows or range tombstones. -/
def IsHeader (out : List (Emitted s P)) : Prop :=
  ∀ e ∈ out, e = .newPartition ∨ ∃ t, e = .partitionTombstone t

theorem keeps_partitionIsNotEmpty_of {I : CompactMutationState → Prop}
    (hmod : ∀ st, I st → I { st with emptyPartition := false })
    (hpurge : ∀ t, Keeps I (canPurgeRegular g t) fun _ => True) :
    Keeps I (partitionIsNotEmpty g : StateM _ (List (Emitted s P))) IsHeader := by
  refine Keeps.get.bind fun st _ => Keeps.ite (fun _ => ?_) fun _ => Keeps.pure (by simp [IsHeader])
  refine (Keeps.modify hmod).bind fun _ _ => ?_
  refine Keeps.get.bind fun st' _ => Keeps.ite (fun _ => ?_) fun _ => Keeps.pure (by simp [IsHeader])
  refine (hpurge _).bind fun ok _ => Keeps.ite (fun _ => ?_) fun _ => ?_
  · exact Keeps.pure (by simp [IsHeader])
  · exact Keeps.pure (by simp [IsHeader])

theorem keeps_partitionIsNotEmpty :
    Keeps (Inv g pt active) (partitionIsNotEmpty g : StateM _ (List (Emitted s P))) IsHeader :=
  keeps_partitionIsNotEmpty_of (fun _ h => ⟨h.1, h.2, h.3⟩)
    fun t => (keeps_canPurgeRegular t).mono fun _ _ => trivial

theorem IsHeader.find_append {out : List (Emitted s P)} (h : IsHeader out)
    (rest : List (Emitted s P)) :
    Emitted.findClusteringRow (out ++ rest) = Emitted.findClusteringRow rest ∧
      Emitted.findStaticRow (out ++ rest) = Emitted.findStaticRow rest := by
  induction out with
  | nil => exact ⟨rfl, rfl⟩
  | cons e out ih =>
    have hrest := ih fun e' he' => h e' (List.mem_cons_of_mem _ he')
    rcases h e List.mem_cons_self with rfl | ⟨t, rfl⟩
    · exact hrest
    · exact hrest

theorem keeps_consumeStaticRow (sr : Row s.staticColumns) :
    Keeps (Inv g pt active) (consumeStaticRow g sr : StateM _ (List (Emitted s P))) fun out =>
      sr.Respects g pt (Emitted.findStaticRow out) := by
  refine Keeps.get.bind fun st hst => ?_
  have hle : (RowTombstone.ofRegular st.partitionTombstone).shadowable ≤ pt :=
    hst.partitionTombstone.le
  refine (Row.keeps_compactAndExpire (fun t => (keeps_canGc t (.inr rfl)).mono fun _ hok h =>
    (hok h).1) (.inr hle) sr).bind fun sr' hsr' => Keeps.ite (fun hempty => ?_) fun _ => ?_
  · have hnone : sr' = Row.empty := by
      funext i
      exact Option.isNone_iff_eq_none.mp (of_decide_eq_true hempty i)
    rw [hnone] at hsr'
    exact Keeps.pure hsr'
  · refine keeps_partitionIsNotEmpty.bind fun header hheader => Keeps.pure ?_
    rwa [(hheader.find_append _).2]

theorem keeps_canPurgeRowTombstone {t : RowTombstone} (hb : BoundsAgree g.getMaxPurgeable ∨ t.IsRegular) :
    Keeps (Inv g pt active) (canPurgeRowTombstone g t) fun ok => ok = true →
      g.Purgeable t.isShadowable t.tomb.timestamp t.tomb.deletionTime ∧
        g.Purgeable false t.regular.timestamp t.regular.deletionTime := by
  have hb' : BoundsAgree g.getMaxPurgeable ∨ t.isShadowable = false := by
    refine hb.imp_right fun hr => ?_
    have hr' : t.regular = t.shadowable := hr
    simp [RowTombstone.isShadowable, hr']
  refine (keeps_canPurgeTombstone t.tomb hb' _).mono fun ok hok h => ?_
  obtain ⟨hregular, hown, hold⟩ := hok h
  rw [max_lt_iff] at hold
  have hle := Tombstone.timestamp_mono t.regular_le
  exact ⟨⟨hown, hold.2⟩, hle.trans_lt hregular, hold.1⟩

variable {cr : DeletableRow s.regularColumns}

theorem keeps_compactRow {current : Tombstone}
    (hb : BoundsAgree g.getMaxPurgeable ∨ cr.deletedAt.IsRegular)
    (hcells : s.regularColumns = [] ∨ s.hasBaseNonPkColumnsInViewPk = false ∧
      cr.deletedAt.IsRegular) :
    Keeps (Inv g pt active) (compactRow g current cr) (cr.Respects g current) := by
  have hgc : ∀ t, Keeps (Inv g pt active) (canGc g t false) fun ok => ok = true →
      t.timestamp < g.getMaxPurgeable false :=
    fun t => (keeps_canGc t (.inr rfl)).mono fun _ hok h => (hok h).1
  have hrest : ∀ remove : Bool, (remove = true → current < cr.deletedAt.tomb →
      g.Purgeable cr.deletedAt.isShadowable cr.deletedAt.tomb.timestamp
        cr.deletedAt.tomb.deletionTime ∧
      g.Purgeable false cr.deletedAt.regular.timestamp cr.deletedAt.regular.deletionTime) →
      Keeps (Inv g pt active) (do
        let marker ← cr.marker.compactAndExpire (canGc g) (applyRegular cr.deletedAt current).tomb
          g.queryTime g.gcBefore
        let cells ← cr.cells.compactAndExpire (canGc g)
          (cellTombstone s marker (applyRegular cr.deletedAt current)) g.queryTime g.gcBefore
        pure (⟨if remove then RowTombstone.none else cr.deletedAt, marker, cells⟩ :
          DeletableRow s.regularColumns)) (cr.Respects g current) := by
    intro remove hremove
    refine (RowMarker.keeps_compactAndExpire hgc _ cr.marker).bind fun marker hmarker => ?_
    have hle : s.regularColumns = [] ∨
        (cellTombstone s marker (applyRegular cr.deletedAt current)).shadowable ≤
          current.apply cr.deletedAt.regular := by
      refine hcells.imp_right fun ⟨hs, hr⟩ => ?_
      have hr' : cr.deletedAt.regular = cr.deletedAt.shadowable := hr
      simpa [cellTombstone, deadMarkerShadowsRow, hs, applyRegular, hr', Tombstone.apply_eq_max]
        using le_total _ _
    refine (Row.keeps_compactAndExpire hgc hle cr.cells).bind fun cells hcells' => Keeps.pure ?_
    refine ⟨fun hlt => ?_, fun c hc hdead hlt => hmarker c hc hdead ?_, hcells'⟩
    · cases remove with
      | false => exact .inl rfl
      | true => exact .inr ⟨(hremove rfl hlt).1, fun _ => (hremove rfl hlt).2⟩
    · have htomb : (applyRegular cr.deletedAt current).tomb =
          current.apply cr.deletedAt.tomb := by
        simp only [RowTombstone.tomb, applyRegular, Tombstone.apply_eq_max]
        exact max_comm _ _
      rwa [htomb]
  refine Keeps.ite (fun hle => ?_) fun _ => ?_
  · exact hrest true fun _ hlt => absurd hle hlt.not_ge
  · refine (keeps_canPurgeRowTombstone hb).bind fun ok hok => ?_
    exact hrest ok fun h _ => hok h

/-- What is asked of row tombstones and columns for nothing to be withheld wrongly. -/
def RowOk (g : GcParameters) (cr : DeletableRow s.regularColumns) : Prop :=
  (BoundsAgree g.getMaxPurgeable ∨ cr.deletedAt.IsRegular) ∧ (s.regularColumns = [] ∨
    s.hasBaseNonPkColumnsInViewPk = false ∧ cr.deletedAt.IsRegular)

theorem keeps_consumeClusteringRow (position : P) (hcr : RowOk g cr) :
    Keeps (Inv g pt active) (consumeClusteringRow g position cr) fun out =>
      cr.Respects g (max pt active) (Emitted.findClusteringRow out) := by
  refine Keeps.get.bind fun st hst => ?_
  rw [hst.partitionTombstone, hst.effectiveTombstone]
  refine (keeps_compactRow hcr.1 hcr.2).bind fun cr' h => Keeps.ite (fun hempty => ?_) fun _ => ?_
  · obtain ⟨hd, hm, hc⟩ := DeletableRow.isEmpty_iff.mp hempty
    refine Keeps.pure ⟨fun hlt => ?_, fun c hcell hdead hlt => ?_, ?_⟩
    · exact (h.deletedAt hlt).imp_left hd.symm.trans
    · exact .inr ((h.marker c hcell hdead hlt).resolve_left (by simp [hm]))
    · have hcells := h.cells
      rw [hc] at hcells
      exact hcells
  · refine keeps_partitionIsNotEmpty.bind fun header hheader => Keeps.pure ?_
    rwa [(hheader.find_append _).1]

theorem triple_consumeRangeTombstoneChange (position : P) (t : Tombstone) :
    Triple (Inv g pt active)
      (consumeRangeTombstoneChange g position t : StateM _ (List (Emitted s P))) fun out st =>
        Inv g pt t st ∧ (pt < t → .rangeTombstoneChange position t ∈ out ∨
          g.Purgeable false t.timestamp t.deletionTime) := by
  refine Keeps.get.bind_triple fun st hst => ?_
  rw [hst.partitionTombstone]
  have htomb : max pt (if t ≤ pt then Tombstone.none else t) = max pt t ∧
      (pt < t → (if t ≤ pt then Tombstone.none else t) = t) := by
    split
    · next h => exact ⟨by rw [max_eq_left h, max_eq_left (Tombstone.none_le _)],
        fun hlt => absurd h hlt.not_ge⟩
    · exact ⟨rfl, fun _ => rfl⟩
  dsimp only
  generalize (if t ≤ pt then Tombstone.none else t) = tomb at htomb
  refine Triple.bind (Triple.modify (Q := fun _ => Inv g pt t) ?_) fun _ => ?_
  · intro st' hst'
    exact ⟨hst'.partitionTombstone, htomb.1, hst'.maxPurgeable⟩
  -- the rest of the function, for a tombstone that was purged or kept
  have hrest : ∀ canPurge : Bool,
      (canPurge = true → g.Purgeable false tomb.timestamp tomb.deletionTime) →
      Keeps (Inv g pt t) (do
        if (← get).currentEmittedTombstone.isSet ||
            (if canPurge then Tombstone.none else tomb).isSet then
          let header ← partitionIsNotEmpty g
          modify fun st => { st with
            currentEmittedTombstone := if canPurge then Tombstone.none else tomb }
          pure (header ++ [.rangeTombstoneChange position
            (if canPurge then Tombstone.none else tomb)])
        else pure [] : StateM CompactMutationState (List (Emitted s P))) fun out =>
        pt < t → .rangeTombstoneChange position t ∈ out ∨
          g.Purgeable false t.timestamp t.deletionTime := by
    intro canPurge hpurge
    refine Keeps.get.bind fun st' _ => Keeps.ite (fun _ => ?_) fun hnot => ?_
    · refine keeps_partitionIsNotEmpty.bind fun header _ => ?_
      refine (Keeps.modify fun st'' h => ⟨h.1, h.2, h.3⟩).bind fun _ _ => Keeps.pure fun hlt => ?_
      cases canPurge with
      | false => exact .inl (by simp [htomb.2 hlt])
      | true => exact .inr (htomb.2 hlt ▸ hpurge rfl)
    · refine Keeps.pure fun hlt => .inr ?_
      cases canPurge with
      | false =>
        rw [if_neg Bool.false_ne_true, htomb.2 hlt] at hnot
        simp [Tombstone.isSet_of_lt hlt] at hnot
      | true => exact htomb.2 hlt ▸ hpurge rfl
  refine Keeps.ite (fun hset => ?_) fun hset => ?_
  · exact (keeps_canPurgeRegular tomb).bind hrest
  · exact hrest false (by simp)

theorem triple_mapM_consume {fragments : List (Fragment s P)}
    (h : ∀ position cr, .clusteringRow position cr ∈ fragments → RowOk g cr) :
    Triple (Inv g pt active) (fragments.mapM (consume g)) fun outs _ =>
      Fragment.AllRespect g pt active fragments outs := by
  induction fragments generalizing active with
  | nil => exact Triple.pure fun _ _ => trivial
  | cons f fragments ih =>
    rw [List.mapM_cons]
    have hstep : Triple (Inv g pt active) (consume g f) fun out st =>
        Inv g pt (f.next active) st ∧ f.Respects g pt active out := by
      cases f with
      | clusteringRow position cr =>
        exact keeps_consumeClusteringRow position (h position cr List.mem_cons_self)
      | rangeTombstoneChange position t => exact triple_consumeRangeTombstoneChange position t
    refine hstep.bind fun out st hst => ?_
    exact ⟨hst.2, ih (fun position cr hcr => h position cr (List.mem_cons_of_mem _ hcr)) st hst.1⟩

theorem boundFor_boundFor (isShadowable : Bool) (st : CompactMutationState) :
    boundFor g isShadowable { st with maxPurgeable := boundFor g isShadowable st } =
      boundFor g isShadowable st := by
  unfold boundFor
  by_cases hmiss : st.maxPurgeable = missingTimestamp
  · simp [hmiss]
  · simp [hmiss]

theorem canPurgeTombstone_apply (isShadowable : Bool) (deletionTime : I64)
    (st : CompactMutationState) :
    (canPurgeTombstone g t isShadowable deletionTime st).1 =
      (t.isSet && decide (t.timestamp < boundFor g isShadowable st) &&
        decide (deletionTime < g.gcBefore)) ∧
    ∃ m, boundFor g isShadowable { st with maxPurgeable := m } = boundFor g isShadowable st ∧
      (canPurgeTombstone g t isShadowable deletionTime st).2 = { st with maxPurgeable := m } := by
  have hgc : (canGc g t isShadowable st).1 =
      (t.isSet && decide (t.timestamp < boundFor g isShadowable st)) ∧
      ∃ m, boundFor g isShadowable { st with maxPurgeable := m } = boundFor g isShadowable st ∧
        (canGc g t isShadowable st).2 = { st with maxPurgeable := m } := by
    rw [canGc_apply]
    cases hset : t.isSet with
    | true => exact ⟨by simp, _, boundFor_boundFor isShadowable st, rfl⟩
    | false => exact ⟨by simp, st.maxPurgeable, rfl, rfl⟩
  unfold canPurgeTombstone
  by_cases hcheap : g.cheapToGetGcBefore = true
  · rw [if_pos hcheap]
    by_cases hold : deletionTime < g.gcBefore
    · rw [if_pos hold]
      simpa [hold] using hgc
    · rw [if_neg hold]
      exact ⟨by simp [hold]; rfl, st.maxPurgeable, rfl, rfl⟩
  · rw [if_neg hcheap]
    refine ⟨?_, hgc.2⟩
    rw [← hgc.1]
    rfl

theorem triple_consumeTombstone {t : Tombstone} (ht : t.isSet = true) :
    Triple (fun st => st = { emptyPartition := true })
      (consumeTombstone g t : StateM _ (List (Emitted s P))) fun out st =>
        Inv g t Tombstone.none st ∧ (.partitionTombstone t ∈ out ∨
          g.Purgeable false t.timestamp t.deletionTime) := by
  refine Triple.bind (Triple.modify (Q := fun _ st =>
    st = { emptyPartition := true, partitionTombstone := t }) ?_) fun _ => ?_
  · rintro st rfl
    rfl
  rintro st rfl
  let st₁ : CompactMutationState := { emptyPartition := true, partitionTombstone := t }
  have hinv : Inv g t Tombstone.none st₁ := ⟨rfl, rfl, .inl rfl⟩
  obtain ⟨hinv₂, hpurge⟩ := keeps_canPurgeRegular t st₁ hinv
  obtain ⟨hok, m, hm, hst₂⟩ :=
    canPurgeTombstone_apply (g := g) t false t.deletionTime st₁
  change Inv g t Tombstone.none
    ((if (canPurgeRegular g t st₁).1 then pure [] else partitionIsNotEmpty g :
      StateM _ (List (Emitted s P))) (canPurgeRegular g t st₁).2).2 ∧ (_ ∈ 
    ((if (canPurgeRegular g t st₁).1 then pure [] else partitionIsNotEmpty g :
      StateM _ (List (Emitted s P))) (canPurgeRegular g t st₁).2).1 ∨ _)
  cases hans : (canPurgeRegular g t st₁).1 with
  | true => exact ⟨hinv₂, .inr (hpurge hans)⟩
  | false =>
    rw [if_neg Bool.false_ne_true]
    refine ⟨(keeps_partitionIsNotEmpty _ hinv₂).1, .inl ?_⟩
    -- the header asks about the same tombstone again
    have hst₂' : (canPurgeRegular g t st₁).2 = { st₁ with maxPurgeable := m } := hst₂
    have hagain : (canPurgeRegular g t { st₁ with maxPurgeable := m, emptyPartition := false }).1 =
        false := by
      rw [← hans]
      refine (canPurgeTombstone_apply (g := g) t false t.deletionTime _).1.trans (Eq.trans ?_ hok.symm)
      rw [← hm]
      rfl
    have hout : (partitionIsNotEmpty g { st₁ with maxPurgeable := m }).1 =
        ([.newPartition, .partitionTombstone t] : List (Emitted s P)) := by
      unfold partitionIsNotEmpty
      change ((if t.isSet then (do
        if ← canPurgeRegular g t then pure [.newPartition]
        else pure [.newPartition, .partitionTombstone t]) else pure [.newPartition] :
        StateM CompactMutationState (List (Emitted s P)))
          { st₁ with maxPurgeable := m, emptyPartition := false }).1 = _
      rw [if_pos ht]
      change ((if (canPurgeRegular g t
          { st₁ with maxPurgeable := m, emptyPartition := false }).1 then pure [.newPartition]
        else pure [.newPartition, .partitionTombstone t] :
        StateM CompactMutationState (List (Emitted s P))) _).1 = _
      rw [hagain]
      rfl
    rw [hst₂', hout]
    simp

theorem respects_compactPartition {p : PartitionStream s P}
    (h : ∀ position cr, .clusteringRow position cr ∈ p.fragments → RowOk g cr)
    (st : CompactMutationState) : p.Respects g (compactPartition g p st).1 := by
  have hstart : Triple (fun _ => True) consumeNewPartition fun _ st =>
      st = { emptyPartition := true } := fun _ _ => rfl
  have hrest : ∀ header : List (Emitted s P), Triple (fun st =>
      Inv g p.tombstone Tombstone.none st ∧
        (p.tombstone.isSet = true → .partitionTombstone p.tombstone ∈ header ∨
          g.Purgeable false p.tombstone.timestamp p.tombstone.deletionTime))
      (do
        let staticRow ← consumeStaticRow g p.staticRow
        let fragments ← p.fragments.mapM (consume g)
        pure (⟨header, staticRow, fragments⟩ : Compacted s P)) fun out _ => p.Respects g out := by
    refine fun header => Triple.of_imp fun hheader => ?_
    refine (keeps_consumeStaticRow p.staticRow).bind_triple fun staticRow hstatic => ?_
    refine (triple_mapM_consume h).bind fun outs => Triple.pure fun st' houts => ?_
    exact ⟨hheader, hstatic, houts⟩
  have hrun : Triple (fun _ => True) (compactPartition g p) fun out _ => p.Respects g out := by
    refine hstart.bind fun _ => Triple.ite (fun hset => ?_) fun hset => ?_
    · refine Triple.bind ((triple_consumeTombstone hset).mono fun out st' h' => ?_) hrest
      exact ⟨h'.1, fun _ => h'.2⟩
    · rintro st' rfl
      have hnone := Tombstone.eq_none_of_not_isSet (not_eq_true _ ▸ hset)
      exact hrest [] _ ⟨⟨hnone.symm, rfl, .inl rfl⟩, fun h' => absurd h' hset⟩
  exact hrun st trivial

end CompactMutationState

end Scylla.Mutation
