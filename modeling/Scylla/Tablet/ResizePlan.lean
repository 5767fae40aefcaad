import Mathlib

/-!
# The plan of tablet resizes

`make_resize_plan` takes the tables that need a split or a merge from a heap and emits decisions as
long as there are shards left for them. After a table is popped its shards are subtracted through a
reference to the front of the heap, where the next table is by then: the first table is never
charged, and every other one is before it is asked for.
-/

namespace Scylla.Tablet

open List

/-! ## Tables and their sizes -/

inductive ResizeWay where
  | none
  | split
  | merge
  deriving DecidableEq

structure ResizeDecision where
  way : ResizeWay := .none
  sequenceNumber : ℤ := 0

structure TableLoadStats where
  sizeInBytes : ℕ
  splitReadySeqNumber : ℤ

structure TableInfo (Id : Type*) where
  id : Id
  replicas : List ℕ
  resizeDecision : ResizeDecision
  stats : Option TableLoadStats

structure TableSizeDesc where
  targetMaxTabletSize : ℕ
  avgTabletSize : ℕ
  resizeDecision : ResizeDecision
  tabletCount : ℕ
  shardCount : ℕ

structure Cluster (Id : Type*) where
  balancingEnabled : Bool
  tables : List (TableInfo Id)
  nodup : (tables.map TableInfo.id).Nodup
  nodeShardCounts : List ℕ
  targetTabletSize : ℕ
  /-- `target_min_tablet_size`, which computes with a `double`. -/
  targetMinTabletSize : ℕ → ℕ

/-- `table_resize_plan`, the decisions in the order they are made. -/
structure TableResizePlan (Id : Type*) where
  resize : List (Id × ResizeDecision) := []
  finalizeResize : List Id := []

/-- `table_id_and_size_desc`, with what is looked up under the id. -/
abbrev Entry (Id : Type*) := TableInfo Id × TableSizeDesc

structure HeapOrder (Id : Type*) {U : Type*} [LinearOrder U] (urgency : TableSizeDesc → U) where
  order : List (Entry Id) → List (Entry Id)
  perm : ∀ l, (order l).Perm l
  sorted : ∀ l, (order l).Pairwise fun a b => urgency b.2 ≤ urgency a.2

/-! ## The plan -/

section

variable {Id : Type*}

def shardSum (l : List (Entry Id)) : ℕ := (l.map (·.2.shardCount)).sum

def maxNewResizeRequests : ℕ := 10

/-- The loop that emits new decisions, on the tables of the heap in their order. -/
def emitLoop : List (Entry Id) → ℤ → List (Entry Id) → List (Entry Id)
  | [], _, emitted => emitted
  | x :: heap, availableShards, emitted =>
    if emitted.length < maxNewResizeRequests then
      if 0 < emitted.length ∧ availableShards < x.2.shardCount then emitted
      -- the reference to the front now refers to the next table
      else emitLoop heap (availableShards - (heap.headD x).2.shardCount) (emitted ++ [x])
    else emitted

def Fits (available : ℤ) (before : List (Entry Id)) (x : Entry Id) : Prop :=
  before ≠ [] → shardSum (before ++ [x]).tail + x.2.shardCount ≤ available

namespace Cluster

variable (c : Cluster Id)

def tableNeedsMerge (d : TableSizeDesc) : Bool :=
  1 < d.tabletCount && d.avgTabletSize < c.targetMinTabletSize d.targetMaxTabletSize

def tableNeedsSplit (d : TableSizeDesc) : Bool := d.targetMaxTabletSize < d.avgTabletSize

def tableNeedsResizeCancellation (d : TableSizeDesc) : Bool :=
  match d.resizeDecision.way with
  | .split => d.avgTabletSize < d.targetMaxTabletSize / 2
  | .merge => c.targetMinTabletSize d.targetMaxTabletSize * 2 < d.avgTabletSize
  | .none => false

def toResizeDecision (d : TableSizeDesc) : ResizeDecision :=
  if tableNeedsSplit d then { way := .split }
  else if c.tableNeedsMerge d then { way := .merge } else {}

/-- The tables whose load is known, with their sizes. -/
def sizeDescs : List (Entry Id) :=
  c.tables.filterMap fun t => t.stats.map fun stats =>
    (t, ⟨c.targetTabletSize * 2, stats.sizeInBytes / max t.replicas.length 1, t.resizeDecision,
      t.replicas.length, t.replicas.sum⟩)

def tablesBeingResized : List (Entry Id) :=
  c.sizeDescs.filter (·.2.resizeDecision.way ≠ .none)

def tablesNeedResize : List (Entry Id) :=
  c.sizeDescs.filter fun x => x.2.resizeDecision.way = .none ∧
    (c.tableNeedsMerge x.2 || tableNeedsSplit x.2)

def totalShardCount : ℕ := c.nodeShardCounts.sum

def availableShards : ℤ := max (c.totalShardCount - shardSum c.tablesBeingResized : ℤ) 0

variable {U : Type*} [LinearOrder U] {urgency : TableSizeDesc → U} (heap : HeapOrder Id urgency)

/-- The tables that new decisions are emitted for, in this order. -/
def emitted : List (Entry Id) :=
  if c.balancingEnabled then emitLoop (heap.order c.tablesNeedResize) c.availableShards [] else []

def makeResizePlan : TableResizePlan Id :=
  if c.balancingEnabled then
    { resize := (c.emitted heap).map (fun x => (x.1.id, c.toResizeDecision x.2)) ++
        (c.tablesBeingResized.filter fun x => c.tableNeedsResizeCancellation x.2).map
          fun x => (x.1.id, {})
      finalizeResize := (c.tablesBeingResized.filter fun x =>
        !c.tableNeedsResizeCancellation x.2 &&
          x.1.stats.any (·.splitReadySeqNumber = x.1.resizeDecision.sequenceNumber)).map (·.1.id) }
  else {}

/-- The plan keeps to the shards of the cluster. -/
structure ResizesWithinBudget : Prop where
  way : ∀ x ∈ c.emitted heap, (c.toResizeDecision x.2).way ≠ .none
  sorted : (c.emitted heap).Pairwise fun x y => urgency y.2 ≤ urgency x.2
  /-- No table is left out for a less urgent one. -/
  most_urgent : ∀ x ∈ c.emitted heap, ∀ y ∈ c.tablesNeedResize, y ∉ c.emitted heap →
    urgency y.2 ≤ urgency x.2
  length_le : (c.emitted heap).length ≤ 10
  shards : ∀ before x after, c.emitted heap = before ++ x :: after → before ≠ [] →
    shardSum c.tablesBeingResized + shardSum before + x.2.shardCount ≤ c.totalShardCount
  /-- No decision is both revoked and finalized. -/
  revoked : ∀ e ∈ (c.makeResizePlan heap).resize, e.2.way = .none →
    e.1 ∉ (c.makeResizePlan heap).finalizeResize

def FirstSmallest : Prop :=
  ∀ first rest, heap.order c.tablesNeedResize = first :: rest → ∀ x ∈ rest.take 9,
    0 < x.2.shardCount ∧ first.2.shardCount ≤ x.2.shardCount

theorem emitLoop_spec {A available : ℤ} (rest before : List (Entry Id))
    (havailable : rest ≠ [] → available = A - shardSum (before ++ rest.take 1).tail) :
    ∃ p q, rest = p ++ q ∧ emitLoop rest available before = before ++ p ∧
      ∀ p₁ y p₂, p = p₁ ++ y :: p₂ → Fits A (before ++ p₁) y ∧ (before ++ p₁).length < 10 := by
  induction rest generalizing before available with
  | nil => exact ⟨[], [], rfl, by simp [emitLoop], by simp⟩
  | cons x rest ih =>
    have hx : available = A - shardSum (before ++ [x]).tail := havailable (cons_ne_nil _ _)
    have hfits : Fits A before x ↔ ¬(0 < before.length ∧ available < x.2.shardCount) := by
      rw [Fits, length_pos_iff, not_and, hx]
      refine imp_congr_right fun _ => ?_
      omega
    rw [emitLoop]
    split_ifs with hlen hfew
    · exact ⟨[], x :: rest, rfl, by simp, by simp⟩
    · have hnext : rest ≠ [] → available - (rest.headD x).2.shardCount =
          A - shardSum (before ++ [x] ++ rest.take 1).tail := by
        intro hne
        obtain ⟨y, ys, rfl⟩ := exists_cons_of_ne_nil hne
        have htail : (before ++ [x] ++ [y]).tail = (before ++ [x]).tail ++ [y] :=
          tail_append_of_ne_nil (by simp)
        change _ = A - (shardSum (before ++ [x] ++ [y]).tail : ℤ)
        rw [hx, htail]
        simp only [shardSum, map_append, sum_append, map_cons, map_nil, sum_singleton, headD_cons]
        omega
      obtain ⟨p, q, rfl, hemit, hrest⟩ := ih (before ++ [x]) hnext
      refine ⟨x :: p, q, rfl, by simpa using hemit, fun p₁ y p₂ heq => ?_⟩
      cases p₁ with
      | nil =>
        cases heq
        simpa using ⟨hfits.mpr hfew, hlen⟩
      | cons z p₁ =>
        cases heq
        simpa using hrest p₁ y p₂ rfl
    · exact ⟨[], x :: rest, rfl, by simp, by simp⟩

theorem emitted_spec : ∃ q, heap.order c.tablesNeedResize = c.emitted heap ++ q ∧
    ∀ b y b', c.emitted heap = b ++ y :: b' → Fits c.availableShards b y ∧ b.length < 10 := by
  rw [emitted]
  split_ifs with hon
  · have hfirst : heap.order c.tablesNeedResize ≠ [] → c.availableShards =
        c.availableShards - shardSum ([] ++ (heap.order c.tablesNeedResize).take 1).tail := by
      cases heap.order c.tablesNeedResize <;> simp [shardSum]
    obtain ⟨p, q, hrest, hemit, hfits⟩ := emitLoop_spec _ [] hfirst
    rw [hemit]
    exact ⟨q, hrest, hfits⟩
  · exact ⟨_, rfl, by simp⟩

theorem exists_emitted {first second : Entry Id} {rest : List (Entry Id)}
    (hon : c.balancingEnabled = true)
    (horder : heap.order c.tablesNeedResize = first :: second :: rest)
    (havailable : c.availableShards = second.2.shardCount + second.2.shardCount) :
    ∃ after, c.emitted heap = [first] ++ second :: after := by
  have hloop : c.emitted heap = emitLoop rest
      (second.2.shardCount - (rest.headD second).2.shardCount : ℤ) [first, second] := by
    rw [emitted, if_pos hon, horder, havailable]
    simp [emitLoop, maxNewResizeRequests]
  obtain ⟨p, -, -, hemit, -⟩ := emitLoop_spec rest [first, second] fun _ =>
    (Int.add_sub_cancel (second.2.shardCount - (rest.headD second).2.shardCount : ℤ)
      (shardSum ([first, second] ++ rest.take 1).tail)).symm
  exact ⟨p, hloop.trans hemit⟩

variable {c}

theorem eq_of_id_eq {x y : Entry Id} (hx : x ∈ c.sizeDescs) (hy : y ∈ c.sizeDescs)
    (h : x.1.id = y.1.id) : x = y := by
  obtain ⟨t, ht, hx⟩ := mem_filterMap.mp hx
  obtain ⟨u, hu, hy⟩ := mem_filterMap.mp hy
  obtain ⟨stats, hstats, rfl⟩ := Option.map_eq_some_iff.mp hx
  obtain ⟨stats', hstats', rfl⟩ := Option.map_eq_some_iff.mp hy
  obtain rfl : t = u := inj_on_of_nodup_map c.nodup ht hu h
  cases hstats.symm.trans hstats'
  rfl

/-- The plan keeps to the shards of the cluster if the most urgent table, which is not charged, is
the smallest. If the second is smaller, there is a number of shards that the plan does not keep
to. -/
theorem resizesWithinBudget_firstSmallest (c : Cluster Id) (heap : HeapOrder Id urgency) :
    ((c.balancingEnabled = true → c.FirstSmallest heap) → c.ResizesWithinBudget heap) ∧
    ∀ first second rest, c.balancingEnabled = true →
      heap.order c.tablesNeedResize = first :: second :: rest →
      second.2.shardCount < first.2.shardCount →
      ∃ nodeShardCounts, ¬ Cluster.ResizesWithinBudget { c with nodeShardCounts } heap := by
  refine ⟨fun h => ?_, fun first second rest hon horder hlt => ?_⟩
  · obtain ⟨q, horder, hfits⟩ := c.emitted_spec heap
    have hmem : ∀ y, y ∈ c.tablesNeedResize ↔ y ∈ c.emitted heap ∨ y ∈ q := fun y => by
      rw [← (heap.perm _).mem_iff, horder, mem_append]
    have hsorted := horder ▸ heap.sorted c.tablesNeedResize
    rw [pairwise_append] at hsorted
    have hway : ∀ x ∈ c.emitted heap, (c.toResizeDecision x.2).way ≠ .none := by
      intro x hx
      have hneeds := (mem_filter.mp ((hmem x).mpr (.inl hx))).2
      unfold toResizeDecision
      split_ifs <;> simp_all
    have hten : (c.emitted heap).length ≤ 10 := by
      rcases eq_nil_or_concat (c.emitted heap) with hnil | ⟨b, y, hlast⟩
      · simp [hnil]
      · have := (hfits b y [] (by simpa using hlast)).2
        simp [hlast]
        omega
    refine ⟨hway, hsorted.1, fun x hx y hy hno => ?_, hten, fun before x after hemitted hne => ?_, ?_⟩
    · exact hsorted.2.2 x hx y (((hmem y).mp hy).resolve_left hno)
    · have hon : c.balancingEnabled = true := by
        by_contra hoff
        simp [emitted, hoff] at hemitted
      obtain ⟨hfit, hlen⟩ := hfits before x after hemitted
      have havailable := hfit hne
      obtain ⟨first, b, rfl⟩ := exists_cons_of_ne_nil hne
      have hx : x ∈ (b ++ x :: (after ++ q)).take 9 := by
        rw [length_cons] at hlen
        refine mem_take_iff_getElem.mpr ⟨b.length, by simp; omega, by simp⟩
      obtain ⟨hpos, hle⟩ := h hon first _ (by simp [horder, hemitted]) x hx
      simp only [cons_append, tail_cons, shardSum, map_append, sum_append, map_cons, map_nil,
        sum_cons, availableShards] at havailable ⊢
      omega
    · intro e he hnone hfin
      unfold makeResizePlan at he hfin
      by_cases hon : c.balancingEnabled = true
      · rw [if_pos hon] at he hfin
        obtain he | he := mem_append.mp he
        · obtain ⟨x, hx, rfl⟩ := mem_map.mp he
          exact hway x hx hnone
        · obtain ⟨x, hx, rfl⟩ := mem_map.mp he
          obtain ⟨y, hy, hid⟩ := mem_map.mp hfin
          obtain ⟨hx, hcancel⟩ := mem_filter.mp hx
          obtain ⟨hy, hready⟩ := mem_filter.mp hy
          obtain rfl := eq_of_id_eq (mem_of_mem_filter hy) (mem_of_mem_filter hx) hid
          simp [hcancel] at hready
      · rw [if_neg hon] at he
        cases he
  · let few : Cluster Id := { c with
      nodeShardCounts := [shardSum c.tablesBeingResized + second.2.shardCount * 2] }
    have havailable : few.availableShards = second.2.shardCount + second.2.shardCount := by
      change max ((([shardSum c.tablesBeingResized + second.2.shardCount * 2].sum : ℕ) : ℤ) -
        shardSum c.tablesBeingResized) 0 = _
      rw [sum_singleton]
      omega
    obtain ⟨after, hemitted⟩ := few.exists_emitted heap hon horder havailable
    refine ⟨few.nodeShardCounts, fun h => ?_⟩
    have hshards := h.shards [first] second after hemitted (cons_ne_nil _ _)
    change shardSum c.tablesBeingResized + [first.2.shardCount].sum + second.2.shardCount ≤
      [shardSum c.tablesBeingResized + second.2.shardCount * 2].sum at hshards
    rw [sum_singleton, sum_singleton] at hshards
    omega

end Cluster

end

/-! ## More shards than there are -/

namespace Overdrawn

def cluster : Cluster ℕ where
  balancingEnabled := true
  tables := [⟨0, [4, 4], {}, some ⟨20, 0⟩⟩, ⟨1, [5], {}, some ⟨5, 0⟩⟩]
  nodup := by decide
  nodeShardCounts := [10]
  targetTabletSize := 1
  targetMinTabletSize max := max / 2 / 2

/-- The more urgent table has fewer shards. -/
def evened : Cluster ℕ :=
  { cluster with
    tables := [⟨0, [4, 4], {}, some ⟨10, 0⟩⟩, ⟨1, [5], {}, some ⟨6, 0⟩⟩]
    nodup := by decide
    nodeShardCounts := [20] }

def heap : HeapOrder ℕ TableSizeDesc.avgTabletSize where
  order l := l.insertionSort fun a b => b.2.avgTabletSize ≤ a.2.avgTabletSize
  perm := perm_insertionSort _
  sorted := pairwise_insertionSort _

/-- The same tables in the order of their shards keep to twenty shards. -/
theorem resizesWithinBudget_evened : (evened.emitted heap).length = 2 ∧
    evened.ResizesWithinBudget heap := by
  refine ⟨rfl, (Cluster.resizesWithinBudget_firstSmallest evened heap).1 fun _ first rest h => ?_⟩
  cases h
  decide

/-- Eight shards and five are both found among ten. -/
theorem not_resizesWithinBudget : ¬cluster.ResizesWithinBudget heap := fun h =>
  absurd (h.shards [_] _ [] rfl (cons_ne_nil _ _)) (by decide)

end Overdrawn

end Scylla.Tablet
