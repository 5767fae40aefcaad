import Scylla.Mutation.EarlyCompaction

/-!
# Reading several versions of a partition

A partition is spread over several sources, and a reader sees what their merge shows. At every place
the newest cell wins, and it is visible if it is newer than all tombstones over it. A source can be
left out if it shows nothing itself and everything visible elsewhere is newer than all it has.
Counters are different: any tombstone and any dead cell deletes them.
-/

namespace Scylla.Mutation

open List

/-! ## Merging a list -/

def foldMerge {α : Type*} (op : α → α → α) (xs : List (Option α)) : Option α :=
  xs.foldl (Option.merge op) none

section

variable {α : Type*} {op : α → α → α}

theorem foldMerge_concat (xs : List (Option α)) (x : Option α) :
    foldMerge op (xs ++ [x]) = Option.merge op (foldMerge op xs) x := by
  rw [foldMerge, foldl_append]
  rfl

variable {xs : List (Option α)}

theorem foldMerge_ne_none {x : α} (hx : some x ∈ xs) :
    foldMerge op xs ≠ none := by
  induction xs using reverseRecOn with
  | nil => cases hx
  | append_singleton xs y ih =>
    rw [foldMerge_concat]
    rcases mem_append.mp hx with hx | hx
    · obtain ⟨b, hb⟩ := Option.ne_none_iff_exists'.mp (ih hx)
      rw [hb]
      cases y <;> simp
    · rw [← mem_singleton.mp hx]
      cases foldMerge op xs <;> simp

theorem foldMerge_induct {motive : List (Option α) → α → Prop}
    (first : ∀ xs x, (∀ y, some y ∉ xs) → motive (xs ++ [some x]) x)
    (skip : ∀ xs c, motive xs c → motive (xs ++ [none]) c)
    (more : ∀ xs c x, motive xs c → motive (xs ++ [some x]) (op c x)) {c : α}
    (h : foldMerge op xs = some c) : motive xs c := by
  induction xs using reverseRecOn generalizing c with
  | nil => cases h
  | append_singleton xs x ih =>
    rw [foldMerge_concat] at h
    cases x with
    | none => exact skip xs c (ih (by rwa [Option.merge_none_right] at h))
    | some x =>
      cases hxs : foldMerge op xs with
      | none =>
        rw [hxs, Option.merge_none_left] at h
        exact Option.some.inj h ▸ first xs x fun y hy => foldMerge_ne_none hy hxs
      | some b =>
        rw [hxs, Option.merge_some_some] at h
        exact Option.some.inj h ▸ more xs b x (ih hxs)

theorem exists_mem_of_foldMerge {x : α} (h : foldMerge op xs = some x) :
    ∃ y, some y ∈ xs :=
  foldMerge_induct (motive := fun xs _ => ∃ y, some y ∈ xs) (fun _ x _ => ⟨x, by simp⟩)
    (fun _ _ ⟨y, hy⟩ => ⟨y, by simp [hy]⟩) (fun _ _ x _ => ⟨x, by simp⟩) h

theorem foldMerge_map_filter {ι : Type*} (f : ι → Option α) (keep : ι → Bool) (srcs : List ι)
    (h : ∀ i ∈ srcs, keep i = false → f i = none) :
    foldMerge op ((srcs.filter keep).map f) = foldMerge op (srcs.map f) := by
  induction srcs using reverseRecOn with
  | nil => rfl
  | append_singleton srcs i ih =>
    have ih := ih fun j hj => h j (mem_append_left _ hj)
    rw [map_append, map_singleton, foldMerge_concat, ← ih, filter_append]
    cases hi : keep i with
    | false => simp [hi, h i (mem_append_right _ mem_cons_self) hi]
    | true => simp [hi, foldMerge_concat]

end

def Tombstone.applyAll (ts : List Tombstone) : Tombstone := ts.foldl Tombstone.apply Tombstone.none

namespace Tombstone

theorem applyAll_concat (ts : List Tombstone) (t : Tombstone) :
    applyAll (ts ++ [t]) = max (applyAll ts) t := by
  rw [applyAll, foldl_append, ← applyAll]
  exact apply_eq_max _ _

variable {ts : List Tombstone}

theorem applyAll_le_iff {e : Tombstone} : applyAll ts ≤ e ↔ ∀ t ∈ ts, t ≤ e := by
  induction ts using reverseRecOn with
  | nil => exact ⟨fun _ t ht => absurd ht not_mem_nil, fun _ => none_le e⟩
  | append_singleton ts t ih =>
    rw [applyAll_concat, max_le_iff, ih]
    simp only [mem_append, mem_singleton, or_imp, forall_and, forall_eq]

theorem applyAll_mem_or (ts : List Tombstone) : applyAll ts = none ∨ applyAll ts ∈ ts := by
  induction ts using reverseRecOn with
  | nil => exact .inl rfl
  | append_singleton ts t ih =>
    rw [applyAll_concat]
    rcases le_total (applyAll ts) t with h | h
    · rw [max_eq_right h]
      exact .inr (mem_append_right _ mem_cons_self)
    · rw [max_eq_left h]
      exact ih.imp_right fun h => mem_append_left _ h

theorem timestamp_applyAll_lt_iff {x : I64} (hx : missingTimestamp < x) :
    (applyAll ts).timestamp < x ↔ ∀ t ∈ ts, t.timestamp < x := by
  constructor
  · intro h t ht
    exact (timestamp_mono (applyAll_le_iff.mp le_rfl t ht)).trans_lt h
  · intro h
    rcases applyAll_mem_or ts with hnone | hmem
    · rw [hnone]
      exact hx
    · exact h _ hmem

theorem applyAll_mono {ts' : List Tombstone} (h : ts ⊆ ts') : applyAll ts ≤ applyAll ts' :=
  applyAll_le_iff.mpr fun _ ht => applyAll_le_iff.mp le_rfl _ (h ht)

theorem applyAll_map_max {ι : Type*} (f g : ι → Tombstone) (srcs : List ι) :
    applyAll (srcs.map fun i => max (f i) (g i)) =
      max (applyAll (srcs.map f)) (applyAll (srcs.map g)) := by
  induction srcs using reverseRecOn with
  | nil => rfl
  | append_singleton srcs i ih =>
    simp only [map_append, map_singleton, applyAll_concat, ih]
    exact max_max_max_comm _ _ _ _

end Tombstone

namespace AtomicCell

theorem timestamp_le_of_mergeKey_le {c d : AtomicCell} (h : c.mergeKey ≤ d.mergeKey) :
    c.timestamp ≤ d.timestamp := by
  have hfst : ∀ c : AtomicCell, (ofLex c.mergeKey).1 = c.timestamp := by rintro (_ | _ | _) <;> rfl
  rw [← hfst, ← hfst]
  exact Prod.Lex.monotone_fst _ _ h

variable {xs : List (Option AtomicCell)}

theorem foldMerge_eq_some {c : AtomicCell} (h : foldMerge apply xs = some c) :
    some c ∈ xs ∧ ∀ d, some d ∈ xs → d.mergeKey ≤ c.mergeKey := by
  refine foldMerge_induct
    (motive := fun xs c => some c ∈ xs ∧ ∀ d, some d ∈ xs → d.mergeKey ≤ c.mergeKey)
    (fun xs x hxs => ⟨by simp, fun d hd => ?_⟩) (fun xs c ih => by simpa using ih) ?_ h
  · rcases mem_append.mp hd with hd | hd
    · exact absurd hd (hxs d)
    · rw [Option.some.inj (mem_singleton.mp hd)]
  · rintro xs c x ⟨hmem, hmax⟩
    refine ⟨?_, fun d hd => ?_⟩
    · rcases apply_eq_or c x with hc | hx
      · rw [hc]
        exact mem_append_left _ hmem
      · simp [hx]
    · rw [mergeKey_apply]
      rcases mem_append.mp hd with hd | hd
      · exact le_max_of_le_left (hmax d hd)
      · rw [Option.some.inj (mem_singleton.mp hd)]
        exact le_max_right _ _

theorem read_foldMerge_eq {t t' : Tombstone} {q : I64} {ys : List (Option AtomicCell)}
    (hsub : ∀ c, some c ∈ ys → some c ∈ xs) (htt' : t.timestamp ≤ t'.timestamp)
    (hdead : ∀ c, some c ∈ xs → some c ∈ ys ∨ liveNow q c = none)
    (hnew : ∀ c, some c ∈ ys → liveNow q c ≠ none → t.timestamp < c.timestamp →
      t'.timestamp < c.timestamp ∧ ∀ d, some d ∈ xs → some d ∈ ys ∨ d.timestamp < c.timestamp) :
    read t q (foldMerge apply ys) = read t' q (foldMerge apply xs) := by
  -- the greatest cell of all is the greatest of those that are kept, if it is kept
  have hsame : ∀ {c d}, foldMerge apply xs = some c → foldMerge apply ys = some d →
      some c ∈ ys → c = d := by
    intro c d hc hd hmem
    obtain ⟨-, hmax⟩ := foldMerge_eq_some hc
    obtain ⟨hdmem, hdmax⟩ := foldMerge_eq_some hd
    exact mergeKey_injective (le_antisymm (hdmax c hmem) (hmax d (hsub d hdmem)))
  refine Option.ext fun c => ?_
  rw [read_eq_some_iff, read_eq_some_iff]
  constructor
  · rintro ⟨hc, hlt, hlive⟩
    obtain ⟨hmem, -⟩ := foldMerge_eq_some hc
    obtain ⟨hlt', hbelow⟩ := hnew c hmem hlive hlt
    obtain ⟨w, hw⟩ := Option.ne_none_iff_exists'.mp (foldMerge_ne_none (hsub c hmem))
    obtain ⟨hwmem, hwmax⟩ := foldMerge_eq_some hw
    refine ⟨?_, hlt', hlive⟩
    rcases hbelow w hwmem with hwy | hwlt
    · rw [hw, hsame hw hc hwy]
    · exact absurd (timestamp_le_of_mergeKey_le (hwmax c (hsub c hmem))) (not_le.mpr hwlt)
  · rintro ⟨hc, hlt, hlive⟩
    have hmem := (hdead c (foldMerge_eq_some hc).1).resolve_right hlive
    obtain ⟨w, hw⟩ := Option.ne_none_iff_exists'.mp (foldMerge_ne_none hmem)
    exact ⟨by rw [hw, hsame hc hw hmem], htt'.trans_lt hlt, hlive⟩

end AtomicCell

namespace CounterCell

theorem isLive_apply (a b : CounterCell) : (a.apply b).isLive = (a.isLive && b.isLive) := by
  cases a with
  | live t x => cases b <;> rfl
  | dead t d =>
    cases b with
    | live t' x => rfl
    | dead t' d' =>
      rw [apply]
      split <;> rfl

variable {xs : List (Option CounterCell)}

theorem isLive_of_foldMerge {c : CounterCell} (h : foldMerge apply xs = some c)
    (hlive : c.isLive = true) : ∀ d, some d ∈ xs → d.isLive = true := by
  revert hlive
  refine foldMerge_induct
    (motive := fun xs c => c.isLive = true → ∀ d, some d ∈ xs → d.isLive = true)
    (fun xs x hxs hlive d hd => ?_) (fun xs c ih => by simpa using ih)
    (fun xs c x ih hlive d hd => ?_) h
  · rcases mem_append.mp hd with hd | hd
    · exact absurd hd (hxs d)
    · rwa [Option.some.inj (mem_singleton.mp hd)]
  · rw [isLive_apply, Bool.and_eq_true] at hlive
    rcases mem_append.mp hd with hd | hd
    · exact ih hlive.1 d hd
    · rw [Option.some.inj (mem_singleton.mp hd)]
      exact hlive.2

theorem read_foldMerge_eq_none (t : Tombstone) (h : ∀ d, some d ∈ xs → d.isLive = false) :
    read t (foldMerge apply xs) = none := by
  cases hr : read t (foldMerge apply xs) with
  | none => rfl
  | some c =>
    obtain ⟨hc, hlive⟩ := Option.filter_eq_some_iff.mp hr
    obtain ⟨e, he, hsurvive⟩ := Option.bind_eq_some_iff.mp hc
    obtain ⟨-, hec⟩ := Option.ite_none_left_eq_some.mp hsurvive
    cases hec
    have hall := isLive_of_foldMerge he hlive
    obtain ⟨d, hd⟩ := exists_mem_of_foldMerge he
    have hd' := isLive_of_foldMerge he hlive d hd
    rw [h d hd] at hd'
    cases hd'

end CounterCell

namespace CollectionMutation

variable {kt : KeyType}

theorem tombOf_foldMerge (xs : List (Option (CollectionMutation kt))) :
    tombOf (foldMerge merge xs) = Tombstone.applyAll (xs.map tombOf) := by
  induction xs using reverseRecOn with
  | nil => rfl
  | append_singleton xs x ih =>
    rw [foldMerge_concat, tombOf_merge, ih, map_append, map_singleton,
      Tombstone.applyAll_concat, Tombstone.apply_eq_max]

theorem survivor_lookupOf_foldMerge {e : Tombstone} {xs : List (Option (CollectionMutation kt))}
    (h : ∀ x ∈ xs, tombOf x ≤ e) (k : Bytes) :
    (lookupOf (foldMerge merge xs) k).bind (AtomicCell.survivor e) =
      (foldMerge AtomicCell.apply (xs.map fun x => lookupOf x k)).bind
        (AtomicCell.survivor e) := by
  induction xs using reverseRecOn with
  | nil => rfl
  | append_singleton xs x ih =>
    have hxs : tombOf (foldMerge merge xs) ≤ e := by
      rw [tombOf_foldMerge]
      refine Tombstone.applyAll_le_iff.mpr fun t ht => ?_
      obtain ⟨y, hy, rfl⟩ := mem_map.mp ht
      exact h y (mem_append_left _ hy)
    have hx : tombOf x ≤ e := h x (mem_append_right _ mem_cons_self)
    rw [foldMerge_concat, survivor_lookupOf_merge hxs hx, AtomicCell.survivor_merge,
      ih fun y hy => h y (mem_append_left _ hy), ← AtomicCell.survivor_merge,
      map_append, map_singleton, foldMerge_concat]

theorem read_foldMerge (t : Tombstone) (q : I64) (xs : List (Option (CollectionMutation kt)))
    (k : Bytes) :
    read t q (foldMerge merge xs) k =
      AtomicCell.read (max t (Tombstone.applyAll (xs.map tombOf))) q
        (foldMerge AtomicCell.apply (xs.map fun x => lookupOf x k)) := by
  rw [read, tombOf_foldMerge, Tombstone.apply_eq_max, AtomicCell.read, AtomicCell.read,
    survivor_lookupOf_foldMerge]
  intro x hx
  exact le_max_of_le_right (Tombstone.applyAll_le_iff.mp le_rfl _ (mem_map_of_mem hx))

end CollectionMutation

/-! ## Bounds on contents -/

/-- What cells, counters and tombstones satisfy. -/
structure Limits where
  cell : AtomicCell → Prop
  counter : CounterCell → Prop
  tombstone : Tombstone → Prop

namespace Limits

/-- Nothing is visible at `q`. -/
def dead (q : I64) : Limits where
  cell c := AtomicCell.liveNow q c = none
  counter c := c.isLive = false
  tombstone _ := True

/-- Nothing has a timestamp above `b`. -/
def atMost (b : I64) : Limits where
  cell c := c.timestamp ≤ b
  counter c := c.timestamp ≤ b
  tombstone t := t.timestamp ≤ b

/-- What is live at `q` has a timestamp above `b`. -/
def liveAbove (q b : I64) : Limits where
  cell c := AtomicCell.liveNow q c ≠ none → b < c.timestamp
  counter _ := True
  tombstone _ := True

def noLiveCounter : Limits where
  cell _ := True
  counter c := c.isLive = false
  tombstone _ := True

def blank : Limits where
  cell _ := False
  counter _ := False
  tombstone t := t = Tombstone.none

/-- Expiring cells have a time to live. -/
def ttlPositive : Limits where
  cell c := c.isLiveAndHasTtl = true → 0 < c.ttl
  counter _ := True
  tombstone _ := True

/-- Every limit of the first is one of the second. -/
structure Le (l l' : Limits) : Prop where
  cell : ∀ c, l.cell c → l'.cell c
  counter : ∀ c, l.counter c → l'.counter c
  tombstone : ∀ t, l.tombstone t → l'.tombstone t

end Limits

def CellOf.Within (l : Limits) : (k : ColumnKind) → Option (CellOf k) → Prop
  | .atomic, (x : Option AtomicCell) => ∀ c ∈ x, l.cell c
  | .counter, (x : Option CounterCell) => ∀ c ∈ x, l.counter c
  | .collection _, (x : Option (CollectionMutation _)) =>
    l.tombstone (CollectionMutation.tombOf x) ∧
      ∀ key, ∀ c ∈ CollectionMutation.lookupOf x key, l.cell c

theorem CellOf.Within.mono {l l' : Limits} (hle : l.Le l') :
    {k : ColumnKind} → {x : Option (CellOf k)} → CellOf.Within l k x → CellOf.Within l' k x
  | .atomic, _, h => fun c hc => hle.cell c (h c hc)
  | .counter, _, h => fun c hc => hle.counter c (h c hc)
  | .collection _, _, h =>
    ⟨hle.tombstone _ h.1, fun key c hc => hle.cell c (h.2 key c hc)⟩

structure DeletableRow.Within {columns : List ColumnKind} (l : Limits) (r : DeletableRow columns) :
    Prop where
  deletedAt : l.tombstone r.deletedAt.shadowable
  marker : ∀ c ∈ r.marker.toCell, l.cell c
  cells : ∀ i, CellOf.Within l _ (r.cells i)

structure MutationPartition.Within {s : Schema} {P : Type*} [LinearOrder P] (l : Limits)
    (p : MutationPartition s P) : Prop where
  tombstone : l.tombstone p.tombstone
  staticRow : ∀ i, CellOf.Within l _ (p.staticRow i)
  range : ∀ x, l.tombstone (p.rangeTombstoneForRow x)
  rows : ∀ x, (p.rowOf x).Within l

theorem MutationPartition.Within.mono {s : Schema} {P : Type*} [LinearOrder P] {l l' : Limits}
    (hle : l.Le l') {p : MutationPartition s P} (h : p.Within l) : p.Within l' where
  tombstone := hle.tombstone _ h.tombstone
  staticRow i := (h.staticRow i).mono hle
  range x := hle.tombstone _ (h.range x)
  rows x := ⟨hle.tombstone _ (h.rows x).deletedAt, fun c hc => hle.cell c ((h.rows x).marker c hc),
    fun i => ((h.rows x).cells i).mono hle⟩

/-! ## Leaving out sources -/

section

variable {ι : Type*} {srcs : List ι} {keep : ι → Bool} {q : I64}

variable {tomb : ι → Tombstone}

theorem AtomicCell.read_filter {f : ι → Option AtomicCell}
    (hdead : ∀ j ∈ srcs, keep j = false → ∀ c ∈ f j, liveNow q c = none)
    (hold : ∀ i ∈ srcs, keep i = true → ∀ j ∈ srcs, keep j = false → ∃ b, (tomb j).timestamp ≤ b ∧
      (∀ c ∈ f j, c.timestamp ≤ b) ∧ ∀ c ∈ f i, liveNow q c ≠ none → b < c.timestamp) :
    read (Tombstone.applyAll ((srcs.filter keep).map tomb)) q
        (foldMerge apply ((srcs.filter keep).map f)) =
      read (Tombstone.applyAll (srcs.map tomb)) q (foldMerge apply (srcs.map f)) := by
  have hsub : ∀ {β : Type _} (g : ι → β), (srcs.filter keep).map g ⊆ srcs.map g := fun g =>
    map_subset g (filter_subset_self srcs)
  have hkept : ∀ i ∈ srcs, keep i = true → f i ∈ (srcs.filter keep).map f := fun i hi hk =>
    mem_map_of_mem (mem_filter.mpr ⟨hi, hk⟩)
  refine read_foldMerge_eq (fun c hc => hsub f hc)
    (Tombstone.timestamp_mono (Tombstone.applyAll_mono (hsub tomb))) ?_ ?_
  · intro c hc
    obtain ⟨i, hi, hfi⟩ := mem_map.mp hc
    cases hk : keep i with
    | true => exact .inl (hfi ▸ hkept i hi hk)
    | false => exact .inr (hdead i hi hk c hfi)
  · intro c hc hlive hlt
    obtain ⟨i, hi, hfi⟩ := mem_map.mp hc
    obtain ⟨hi, hk⟩ := mem_filter.mp hi
    have hset : missingTimestamp < c.timestamp := (missingTimestamp_le _).trans_lt hlt
    constructor
    · refine (Tombstone.timestamp_applyAll_lt_iff hset).mpr fun t ht => ?_
      obtain ⟨j, hj, rfl⟩ := mem_map.mp ht
      cases hkj : keep j with
      | true =>
        refine (Tombstone.timestamp_applyAll_lt_iff hset).mp hlt (tomb j) ?_
        exact mem_map_of_mem (mem_filter.mpr ⟨hj, hkj⟩)
      | false =>
        obtain ⟨b, htomb, -, habove⟩ := hold i hi hk j hj hkj
        exact htomb.trans_lt (habove c hfi hlive)
    · intro d hd
      obtain ⟨j, hj, hfj⟩ := mem_map.mp hd
      cases hkj : keep j with
      | true => exact .inl (hfj ▸ hkept j hj hkj)
      | false =>
        obtain ⟨b, -, hbelow, habove⟩ := hold i hi hk j hj hkj
        exact .inr ((hbelow d hfj).trans_lt (habove c hfi hlive))

theorem CollectionMutation.read_filter {kt : KeyType} {f : ι → Option (CollectionMutation kt)}
    (hdead : ∀ j ∈ srcs, keep j = false → ∀ key, ∀ c ∈ lookupOf (f j) key, AtomicCell.liveNow q c =
      none)
    (hold : ∀ i ∈ srcs, keep i = true → ∀ j ∈ srcs, keep j = false → ∃ b, (tomb j).timestamp ≤ b ∧
      (tombOf (f j)).timestamp ≤ b ∧ (∀ key, ∀ c ∈ lookupOf (f j) key, c.timestamp ≤ b) ∧ ∀ key,
      ∀ c ∈ lookupOf (f i) key, AtomicCell.liveNow q c ≠ none → b < c.timestamp) :
    read (Tombstone.applyAll ((srcs.filter keep).map tomb)) q
        (foldMerge merge ((srcs.filter keep).map f)) =
      read (Tombstone.applyAll (srcs.map tomb)) q (foldMerge merge (srcs.map f)) := by
  funext key
  rw [read_foldMerge, read_foldMerge, map_map, map_map, map_map, map_map]
  have hmax := Tombstone.applyAll_map_max tomb (tombOf ∘ f)
  rw [← hmax, ← hmax]
  refine AtomicCell.read_filter (fun j hj hkj => hdead j hj hkj key) fun i hi hk j hj hkj => ?_
  obtain ⟨b, htomb, hown, hleft, hkept⟩ := hold i hi hk j hj hkj
  refine ⟨b, ?_, hleft key, hkept key⟩
  rw [Tombstone.timestamp_max]
  exact max_le htomb hown

theorem Tombstone.applyAll_filter (h : ∀ j ∈ srcs, keep j = false → tomb j = Tombstone.none) :
    applyAll ((srcs.filter keep).map tomb) = applyAll (srcs.map tomb) := by
  refine le_antisymm (applyAll_mono (map_subset tomb (filter_subset_self srcs))) ?_
  refine applyAll_le_iff.mpr fun t ht => ?_
  obtain ⟨j, hj, rfl⟩ := mem_map.mp ht
  cases hk : keep j with
  | true =>
    exact applyAll_le_iff.mp le_rfl _ (mem_map_of_mem (mem_filter.mpr ⟨hj, hk⟩))
  | false =>
    rw [h j hj hk]
    exact none_le _

structure CellOf.Obsolete (q : I64) (k : ColumnKind) (tomb : Tombstone)
    (left kept : Option (CellOf k)) : Prop where
  bound : ∃ b, tomb.timestamp ≤ b ∧ CellOf.Within (.atMost b) k left ∧
    CellOf.Within (.liveAbove q b) k kept
  counters : CellOf.Within .noLiveCounter k kept ∨
    tomb = Tombstone.none ∧ CellOf.Within .blank k left

theorem CellOf.read_filter {k : ColumnKind} {f : ι → Option (CellOf k)}
    (hdead : ∀ j ∈ srcs, keep j = false → CellOf.Within (.dead q) k (f j))
    (hold : ∀ i ∈ srcs, keep i = true → ∀ j ∈ srcs, keep j = false →
      CellOf.Obsolete q k (tomb j) (f j) (f i)) :
    CellOf.read (Tombstone.applyAll ((srcs.filter keep).map tomb)) q k
        (foldMerge CellOf.apply ((srcs.filter keep).map f)) =
      CellOf.read (Tombstone.applyAll (srcs.map tomb)) q k
        (foldMerge CellOf.apply (srcs.map f)) := by
  cases k with
  | atomic =>
    exact AtomicCell.read_filter hdead fun i hi hk j hj hkj => (hold i hi hk j hj hkj).bound
  | counter =>
    by_cases hlive : ∃ i ∈ srcs, keep i = true ∧ ¬CellOf.Within .noLiveCounter .counter (f i)
    · -- next to a live counter the sources left out have nothing
      obtain ⟨i, hi, hk, hcounter⟩ := hlive
      have hblank := fun j hj hkj => (hold i hi hk j hj hkj).counters.resolve_left hcounter
      have hnone : ∀ j ∈ srcs, keep j = false → f j = none := by
        intro j hj hkj
        cases hf : f j with
        | none => rfl
        | some c => exact ((hblank j hj hkj).2 c hf).elim
      rw [Tombstone.applyAll_filter fun j hj hkj => (hblank j hj hkj).1,
        foldMerge_map_filter f keep srcs hnone]
    · have hall : ∀ i ∈ srcs, ∀ c, f i = some c → CounterCell.isLive c = false := by
        intro i hi c hc
        cases hk : keep i with
        | true =>
          by_contra hne
          exact hlive ⟨i, hi, hk, fun hw => hne (hw c hc)⟩
        | false => exact hdead i hi hk c hc
      have hkept : ∀ d, some d ∈ (srcs.filter keep).map f → CounterCell.isLive d = false := by
        intro d hd
        obtain ⟨i, hi, hfi⟩ := mem_map.mp hd
        exact hall i (mem_filter.mp hi).1 d hfi
      have hevery : ∀ d, some d ∈ srcs.map f → CounterCell.isLive d = false := by
        intro d hd
        obtain ⟨i, hi, hfi⟩ := mem_map.mp hd
        exact hall i hi d hfi
      exact (CounterCell.read_foldMerge_eq_none _ hkept).trans
        (CounterCell.read_foldMerge_eq_none _ hevery).symm
  | collection kt =>
    refine CollectionMutation.read_filter (fun j hj hkj => (hdead j hj hkj).2)
      fun i hi hk j hj hkj => ?_
    obtain ⟨b, htomb, hleft, hkept⟩ := (hold i hi hk j hj hkj).bound
    exact ⟨b, htomb, hleft.1, hleft.2, hkept.2⟩

end

/-! ## Partitions -/

namespace MutationPartition

variable {s : Schema} {P : Type*} [LinearOrder P]

def empty : MutationPartition s P where
  tombstone := Tombstone.none
  staticRow := Row.empty
  staticRowContinuous := true
  rows := []
  rows_sorted := List.Pairwise.nil
  rowTombstones := .empty

def applyAll (ps : List (MutationPartition s P)) : MutationPartition s P := ps.foldl apply empty

variable (ps : List (MutationPartition s P))

theorem applyAll_concat (p : MutationPartition s P) :
    applyAll (ps ++ [p]) = (applyAll ps).apply p := by
  rw [applyAll, foldl_append]
  rfl

variable {ps : List (MutationPartition s P)}

theorem IsRegular.applyAll (h : ∀ p ∈ ps, p.IsRegular) : (applyAll ps).IsRegular := by
  induction ps using reverseRecOn with
  | nil => rintro e ⟨⟩
  | append_singleton ps p ih =>
    rw [applyAll_concat]
    exact (ih fun p' hp' => h p' (mem_append_left _ hp')).apply
      (h p (mem_append_right _ mem_cons_self))

theorem tombstone_applyAll :
    (applyAll ps).tombstone = Tombstone.applyAll (ps.map tombstone) := by
  induction ps using reverseRecOn with
  | nil => rfl
  | append_singleton ps p ih =>
    rw [applyAll_concat, map_append, map_singleton, Tombstone.applyAll_concat, ← ih]
    exact Tombstone.apply_eq_max _ _

theorem rangeTombstoneForRow_applyAll (x : P) :
    (applyAll ps).rangeTombstoneForRow x =
      Tombstone.applyAll (ps.map fun p => p.rangeTombstoneForRow x) := by
  induction ps using reverseRecOn with
  | nil => rfl
  | append_singleton ps p ih =>
    rw [applyAll_concat, rangeTombstoneForRow_apply, map_append, map_singleton,
      Tombstone.applyAll_concat, ih]

theorem staticRow_applyAll (i : Fin s.staticColumns.length) :
    (applyAll ps).staticRow i = foldMerge CellOf.apply (ps.map fun p => p.staticRow i) := by
  induction ps using reverseRecOn with
  | nil => rfl
  | append_singleton ps p ih =>
    rw [applyAll_concat, map_append, map_singleton, foldMerge_concat, ← ih]
    rfl

theorem rowOf_applyAll (h : ∀ p ∈ ps, p.IsRegular) (x : P) :
    ((applyAll ps).rowOf x).deletedAt.shadowable =
        Tombstone.applyAll (ps.map fun p => (p.rowOf x).deletedAt.shadowable) ∧
      ((applyAll ps).rowOf x).marker.toCell =
        foldMerge AtomicCell.apply (ps.map fun p => (p.rowOf x).marker.toCell) ∧
      ∀ i, ((applyAll ps).rowOf x).cells i =
        foldMerge CellOf.apply (ps.map fun p => (p.rowOf x).cells i) := by
  induction ps using reverseRecOn with
  | nil => exact ⟨rfl, rfl, fun _ => rfl⟩
  | append_singleton ps p ih =>
    have hps : ∀ p' ∈ ps, p'.IsRegular := fun p' hp' => h p' (mem_append_left _ hp')
    have hp : p.IsRegular := h p (mem_append_right _ mem_cons_self)
    have hall := IsRegular.applyAll hps
    obtain ⟨hdel, hmarker, hcells⟩ := ih hps
    obtain ⟨hdel', hmarker', hcells'⟩ := DeletableRow.equalBy_eq_iff.mp (rowOf_apply hall hp x)
    simp only [applyAll_concat, map_append, map_singleton, foldMerge_concat,
      Tombstone.applyAll_concat, ← hdel, ← hmarker, ← hcells]
    refine ⟨hdel'.trans ?_, hmarker'.trans (RowMarker.toCell_apply _ _), fun i => ?_⟩
    · exact (RowTombstone.shadowable_apply (hall.rowOf x) (hp.rowOf x) _).trans
        (Tombstone.apply_eq_max _ _)
    · exact congrFun hcells' i

/-- The tombstone over a row: of the partition, of ranges and of the row itself. -/
def tombstoneOver (p : MutationPartition s P) (x : P) : Tombstone :=
  max (p.rangeTombstoneForRow x) (p.rowOf x).deletedAt.shadowable

variable {p : MutationPartition s P}

theorem Within.tombstoneOver_le {b : I64} (h : p.Within (.atMost b))
    (x : P) : (p.tombstoneOver x).timestamp ≤ b := by
  rw [tombstoneOver, Tombstone.timestamp_max]
  exact max_le (h.range x) (h.rows x).deletedAt

theorem Within.tombstoneOver_eq_none (h : p.Within .blank) (x : P) :
    p.tombstoneOver x = Tombstone.none := by
  have hrange : p.rangeTombstoneForRow x = Tombstone.none := h.range x
  have hdel : (p.rowOf x).deletedAt.shadowable = Tombstone.none := (h.rows x).deletedAt
  rw [tombstoneOver, hrange, hdel, max_self]

theorem rows_liveData_applyAll (hps : ∀ p ∈ ps, p.IsRegular)
    (hpositive : ∀ p ∈ ps, p.Within .ttlPositive) (x : P) (q : I64) :
    ((applyAll ps).liveData q).rows x =
      let t := Tombstone.applyAll (ps.map fun p => p.tombstoneOver x)
      let seen := AtomicCell.read t q
        (foldMerge AtomicCell.apply (ps.map fun p => (p.rowOf x).marker.toCell))
      ⟨seen, fun i => CellOf.read t q _
        (if s.hasBaseNonPkColumnsInViewPk && seen.isNone then none
          else foldMerge CellOf.apply (ps.map fun p => (p.rowOf x).cells i))⟩ := by
  obtain ⟨hdel, hmarker, hcells⟩ := rowOf_applyAll hps x
  have hsome : ∀ c ∈ ((applyAll ps).rowOf x).marker.toCell,
      c.isLiveAndHasTtl = true → 0 < c.ttl := by
    intro c hc
    rw [hmarker] at hc
    obtain ⟨p, hp, hpc⟩ := mem_map.mp (AtomicCell.foldMerge_eq_some hc).1
    exact ((hpositive p hp).rows x).marker c hpc
  have htombs : ((applyAll ps).rangeTombstoneForRow x).apply
      ((applyAll ps).rowOf x).deletedAt.shadowable =
        Tombstone.applyAll (ps.map fun p => p.tombstoneOver x) := by
    rw [Tombstone.apply_eq_max, rangeTombstoneForRow_applyAll, hdel]
    exact (Tombstone.applyAll_map_max _ _ _).symm
  refine (DeletableRow.read_of_isRegular ((IsRegular.applyAll hps).rowOf x) (fun _ => hsome) _
    q).trans ?_
  simp only [htombs, hmarker, hcells]

/-- What makes a version of a partition that is left out obsolete next to one that is kept. -/
structure Obsolete (q : I64) (left kept : MutationPartition s P) : Prop where
  bound : ∃ b, left.Within (.atMost b) ∧ kept.Within (.liveAbove q b)
  counters : kept.Within .noLiveCounter ∨ left.Within .blank

section

variable {ι : Type*} {srcs : List ι} {keep : ι → Bool} {content : ι → MutationPartition s P}
  {q : I64}

theorem liveData_applyAll_static (hdead : ∀ j ∈ srcs, keep j = false → (content j).Within (.dead q))
    (hold : ∀ i ∈ srcs, keep i = true → ∀ j ∈ srcs, keep j = false →
      Obsolete q (content j) (content i)) (i : Fin s.staticColumns.length) :
    CellOf.read (applyAll ((srcs.filter keep).map content)).tombstone q _
        ((applyAll ((srcs.filter keep).map content)).staticRow i) =
      CellOf.read (applyAll (srcs.map content)).tombstone q _
        ((applyAll (srcs.map content)).staticRow i) := by
  simp only [tombstone_applyAll, staticRow_applyAll, map_map]
  refine CellOf.read_filter (fun j hj hk => (hdead j hj hk).staticRow i)
    fun a ha hk j hj hkj => ?_
  have hobsolete := hold a ha hk j hj hkj
  obtain ⟨b, hleft, hkept⟩ := hobsolete.bound
  refine ⟨⟨b, hleft.tombstone, hleft.staticRow i, hkept.staticRow i⟩, ?_⟩
  exact hobsolete.counters.imp (fun h => h.staticRow i) fun h => ⟨h.tombstone, h.staticRow i⟩

section

variable (hregular : ∀ j ∈ srcs, (content j).IsRegular)
  (hpositive : ∀ j ∈ srcs, (content j).Within .ttlPositive)
  (hdead : ∀ j ∈ srcs, keep j = false → (content j).Within (.dead q))
  (hold : ∀ i ∈ srcs, keep i = true → ∀ j ∈ srcs, keep j = false → Obsolete q (content j) (content i))

include hregular hpositive hdead hold

theorem liveData_applyAll_row (x : P) :
    ((applyAll ((srcs.filter keep).map content)).liveData q).rows x =
      ((applyAll (srcs.map content)).liveData q).rows x := by
  have hseen : AtomicCell.read
        (Tombstone.applyAll ((srcs.filter keep).map fun j => (content j).tombstoneOver x)) q
        (foldMerge AtomicCell.apply
          ((srcs.filter keep).map fun j => ((content j).rowOf x).marker.toCell)) =
      AtomicCell.read (Tombstone.applyAll (srcs.map fun j => (content j).tombstoneOver x)) q
        (foldMerge AtomicCell.apply (srcs.map fun j => ((content j).rowOf x).marker.toCell)) := by
    refine AtomicCell.read_filter (fun j hj hkj => ((hdead j hj hkj).rows x).marker)
      fun i hi hk j hj hkj => ?_
    obtain ⟨b, hleft, hkept⟩ := (hold i hi hk j hj hkj).bound
    exact ⟨b, hleft.tombstoneOver_le x, (hleft.rows x).marker, (hkept.rows x).marker⟩
  have hfilter : ∀ p ∈ (srcs.filter keep).map content, p.IsRegular ∧ p.Within .ttlPositive := by
    intro p hp
    obtain ⟨j, hj, rfl⟩ := mem_map.mp hp
    exact ⟨hregular j (mem_filter.mp hj).1, hpositive j (mem_filter.mp hj).1⟩
  have hall : ∀ p ∈ srcs.map content, p.IsRegular ∧ p.Within .ttlPositive := by
    intro p hp
    obtain ⟨j, hj, rfl⟩ := mem_map.mp hp
    exact ⟨hregular j hj, hpositive j hj⟩
  rw [rows_liveData_applyAll (fun p hp => (hfilter p hp).1) (fun p hp => (hfilter p hp).2),
    rows_liveData_applyAll (fun p hp => (hall p hp).1) (fun p hp => (hall p hp).2)]
  simp only [map_map, Function.comp_def, hseen]
  congr 1
  funext i
  split
  · exact (CellOf.read_highest _ q none).symm.trans (CellOf.read_highest _ q none)
  · refine CellOf.read_filter (fun j hj hkj => ((hdead j hj hkj).rows x).cells i)
      fun a ha hk j hj hkj => ?_
    have hobsolete := hold a ha hk j hj hkj
    obtain ⟨b, hleft, hkept⟩ := hobsolete.bound
    refine ⟨⟨b, hleft.tombstoneOver_le x, (hleft.rows x).cells i, (hkept.rows x).cells i⟩, ?_⟩
    exact hobsolete.counters.imp (fun h => (h.rows x).cells i) fun h =>
      ⟨h.tombstoneOver_eq_none x, (h.rows x).cells i⟩

theorem liveData_applyAll_filter :
    (applyAll ((srcs.filter keep).map content)).liveData q =
      (applyAll (srcs.map content)).liveData q :=
  LiveData.ext (funext (liveData_applyAll_static hdead hold))
    (funext (liveData_applyAll_row hregular hpositive hdead hold))

end

end

end MutationPartition

end Scylla.Mutation
