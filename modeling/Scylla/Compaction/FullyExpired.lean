import Scylla.Core.SortedDifference
import Scylla.Mutation.Versions

/-!
# Fully expired sstables

`get_fully_expired_sstables` decides from statistics which of the sstables being compacted can be
dropped without being read. `mem_getFullyExpiredSstables` states the outcome of its loops: a
candidate has nothing younger than the garbage collection horizon, and it is dropped if all it has
is older than what the sstables that are not expired have.
-/

namespace Scylla.Compaction

open List
open Mutation

def noDeletionTime : I64 := 2147483647

/-- What the statistics of an sstable say about its contents. -/
structure Sstable (T B : Type*) [LinearOrder T] [LinearOrder B] where
  generation : ℕ
  /-- The first decorated key: a token and the key itself. -/
  first : T ×ₗ B
  last : T ×ₗ B
  minTimestamp : I64
  maxTimestamp : I64
  maxLocalDeletionTime : I64
  /-- The generations it was compacted from by this process. -/
  compactionAncestors : List ℕ
  first_le_last : first ≤ last
  minTimestamp_set : missingTimestamp < minTimestamp
  minTimestamp_le : minTimestamp ≤ maxTimestamp
  maxLocalDeletionTime_le : maxLocalDeletionTime ≤ noDeletionTime
  deriving DecidableEq

structure Memtable (T B : Type*) where
  hasKey : T ×ₗ B → Bool
  minLiveTimestamp : I64
  minLiveTimestamp_set : missingTimestamp < minLiveTimestamp

structure GcBeforeForRange where
  minGcBefore : I64
  knowsEntireRange : Bool

structure TableState (T B : Type*) [LinearOrder T] [LinearOrder B] where
  /-- The sstables of the set for tombstone garbage collection. -/
  sstables : List (Sstable T B)
  /-- The sstables that were compacted but are not deleted yet. -/
  compactedUndeleted : List (Sstable T B)
  memtables : List (Memtable T B)
  /-- The garbage collection horizon of a token range at a time. -/
  getGcBeforeForRange : T → T → I64 → GcBeforeForRange
  generations : (sstables ++ compactedUndeleted).Pairwise fun x y => x.generation ≠ y.generation

variable {T B : Type*} [LinearOrder T] [LinearOrder B]

def token (k : T ×ₗ B) : T := (ofLex k).1

theorem token_mono {k l : T ×ₗ B} (h : k ≤ l) : token k ≤ token l :=
  (Prod.Lex.toLex_le_toLex.mp h).elim le_of_lt fun h => h.1.le

variable {x y d : Sstable T B} {xs : List (Sstable T B)}

namespace Sstable

/-- Whether the sstable may have the key. -/
def Covers (x : Sstable T B) (k : T ×ₗ B) : Prop := x.first ≤ k ∧ k ≤ x.last

instance (x : Sstable T B) (k : T ×ₗ B) : Decidable (x.Covers k) :=
  inferInstanceAs (Decidable (_ ∧ _))

def sortByGeneration (xs : List (Sstable T B)) : List (Sstable T B) :=
  xs.insertionSort fun x y => x.generation ≤ y.generation

theorem mem_sortByGeneration :
    x ∈ sortByGeneration xs ↔ x ∈ xs := (perm_insertionSort _ xs).mem_iff

theorem sorted_sortByGeneration (xs : List (Sstable T B)) :
    (sortByGeneration xs).Pairwise fun x y => x.generation ≤ y.generation :=
  pairwise_insertionSort _ xs

theorem strictlySorted_sortByGeneration (xs : List (Sstable T B))
    (h : xs.Pairwise fun x y => x.generation ≠ y.generation) :
    (sortByGeneration xs).Pairwise fun x y => x.generation < y.generation := by
  have hne : (sortByGeneration xs).Pairwise fun x y => x.generation ≠ y.generation :=
    (perm_insertionSort _ xs).symm.pairwise h fun hxy => hxy.symm
  exact ((sorted_sortByGeneration xs).and hne).imp fun hxy => lt_of_le_of_ne hxy.1 hxy.2

/-- `leveled_manifest::overlapping` of a token range. -/
def overlappingRange (first last : T) (others : List (Sstable T B)) : List (Sstable T B) :=
  others.filter fun x => token x.first ≤ last ∧ first ≤ token x.last

def tokenSpan (x : Sstable T B) (xs : List (Sstable T B)) : T × T :=
  xs.foldl (fun r y =>
    (if r.1 ≤ token y.first then r.1 else token y.first,
      if token y.last ≤ r.2 then r.2 else token y.last))
    (token x.first, token x.last)

/-- `leveled_manifest::overlapping` of candidates. -/
def overlapping (candidates others : List (Sstable T B)) : List (Sstable T B) :=
  match candidates with
  | [] => []
  | x :: xs => overlappingRange (tokenSpan x xs).1 (tokenSpan x xs).2 others

theorem tokenSpan_covers (x : Sstable T B) (xs : List (Sstable T B)) (hy : y ∈ x :: xs) :
    (tokenSpan x xs).1 ≤ token y.first ∧ token y.last ≤ (tokenSpan x xs).2 := by
  induction xs using reverseRecOn with
  | nil =>
    obtain rfl := mem_singleton.mp hy
    exact ⟨le_rfl, le_rfl⟩
  | append_singleton xs z ih =>
    have hspan : tokenSpan x (xs ++ [z]) =
        (min (tokenSpan x xs).1 (token z.first), max (tokenSpan x xs).2 (token z.last)) := by
      simp only [tokenSpan, foldl_append, foldl_cons, foldl_nil, min_def, max_def']
    rw [hspan]
    rw [← cons_append, mem_append, mem_singleton] at hy
    rcases hy with hy | rfl
    · exact ⟨min_le_of_left_le (ih hy).1, le_max_of_le_left (ih hy).2⟩
    · exact ⟨min_le_right _ _, le_max_right _ _⟩

theorem mem_overlapping {candidates others : List (Sstable T B)}
    (hd : d ∈ candidates) (hx : x ∈ others) {k : T ×ₗ B} (hdk : d.Covers k) (hxk : x.Covers k) :
    x ∈ overlapping candidates others := by
  cases candidates with
  | nil => cases hd
  | cons c cs =>
    obtain ⟨hfirst, hlast⟩ := tokenSpan_covers c cs hd
    refine mem_filter.mpr ⟨hx, decide_eq_true ⟨?_, ?_⟩⟩
    · exact (token_mono (hxk.1.trans hdk.2)).trans hlast
    · exact hfirst.trans (token_mono (hdk.1.trans hxk.2))

end Sstable

namespace TableState

variable (t : TableState T B) (compacting : List (Sstable T B)) (compactionTime : I64)

def allSstables : List (Sstable T B) := t.sstables ++ t.compactedUndeleted

def getUncompactingSstables : List (Sstable T B) :=
  setDifference Sstable.generation (Sstable.sortByGeneration t.allSstables)
    (Sstable.sortByGeneration compacting)

def getGcBeforeForFullyExpire (x : Sstable T B) : I64 :=
  if x.maxLocalDeletionTime = noDeletionTime then I64.lowest
  else
    let res := t.getGcBeforeForRange (token x.first) (token x.last) compactionTime
    if res.knowsEntireRange then res.minGcBefore else I64.lowest

/-- Whether an sstable this one was compacted from is not deleted yet. -/
def hasUndeletedAncestor (candidate : Sstable T B) : Bool :=
  let compactedUndeletedGens := t.compactedUndeleted.map Sstable.generation
  candidate.compactionAncestors.any fun gen => gen ∈ compactedUndeletedGens

/-- The test that makes an sstable a candidate. -/
def isExpired (x : Sstable T B) : Bool :=
  x.maxLocalDeletionTime < t.getGcBeforeForFullyExpire compactionTime x &&
    !t.hasUndeletedAncestor x

/-- The loop over the overlapping sstables. -/
def minTimestampOf (overlapping : List (Sstable T B)) : I64 :=
  overlapping.foldl (fun minTimestamp x =>
    if t.getGcBeforeForFullyExpire compactionTime x ≤ x.maxLocalDeletionTime
    then min minTimestamp x.minTimestamp else minTimestamp) I64.highest

def collectCandidates (minTimestamp : I64) : List (Sstable T B) × I64 :=
  compacting.foldl (fun r x =>
    if t.isExpired compactionTime x then (r.1.insert x, r.2) else (r.1, min r.2 x.minTimestamp))
    ([], minTimestamp)

def getFullyExpiredSstables : List (Sstable T B) :=
  if compacting.isEmpty then []
  else
    let overlapping := Sstable.overlapping compacting (t.getUncompactingSstables compacting)
    let r := t.collectCandidates compacting compactionTime
      (t.minTimestampOf compactionTime overlapping)
    r.1.filter fun candidate => !(r.2 ≤ candidate.maxTimestamp)

/-! ## The outcome as a condition on the table -/

structure Droppable (d : Sstable T B) : Prop where
  mem : d ∈ compacting
  expired : t.isExpired compactionTime d = true
  highest : d.maxTimestamp < I64.highest
  older : ∀ x ∈ compacting, t.isExpired compactionTime x = false →
    d.maxTimestamp < x.minTimestamp
  olderOverlapping : ∀ x ∈ Sstable.overlapping compacting
      (t.allSstables.filter fun x => x ∉ compacting),
    t.getGcBeforeForFullyExpire compactionTime x ≤ x.maxLocalDeletionTime →
      d.maxTimestamp < x.minTimestamp

variable {t compacting compactionTime}

theorem generation_inj (hx : x ∈ t.allSstables) (hy : y ∈ t.allSstables)
    (h : x.generation = y.generation) : x = y := by
  by_contra hne
  have : Std.Symm fun x y : Sstable T B => x.generation ≠ y.generation := ⟨fun _ _ h => h.symm⟩
  exact t.generations.forall hx hy hne h

theorem mem_getUncompactingSstables (hsub : compacting ⊆ t.sstables) :
    x ∈ t.getUncompactingSstables compacting ↔ x ∈ t.allSstables ∧ x ∉ compacting := by
  have hall : compacting ⊆ t.allSstables := subset_append_of_subset_left _ hsub
  have hsorted := Sstable.strictlySorted_sortByGeneration t.allSstables t.generations
  rw [getUncompactingSstables, mem_setDifference hsorted (Sstable.sorted_sortByGeneration _),
    Sstable.mem_sortByGeneration]
  refine and_congr_right fun hx => ⟨fun h hmem => ?_, fun h y hy heq => ?_⟩
  · exact h x (Sstable.mem_sortByGeneration.mpr hmem) rfl
  · have hy' := Sstable.mem_sortByGeneration.mp hy
    exact h (generation_inj (hall hy') hx heq ▸ hy')

theorem lt_minTimestampOf {b : I64} :
    b < t.minTimestampOf compactionTime xs ↔ b < I64.highest ∧ ∀ x ∈ xs,
      t.getGcBeforeForFullyExpire compactionTime x ≤ x.maxLocalDeletionTime →
        b < x.minTimestamp := by
  induction xs using reverseRecOn with
  | nil => simp [minTimestampOf]
  | append_singleton xs x ih =>
    have hstep : t.minTimestampOf compactionTime (xs ++ [x]) =
        if t.getGcBeforeForFullyExpire compactionTime x ≤ x.maxLocalDeletionTime
        then min (t.minTimestampOf compactionTime xs) x.minTimestamp
        else t.minTimestampOf compactionTime xs := by
      rw [minTimestampOf, foldl_append]
      rfl
    rw [hstep, forall_mem_append, forall_mem_singleton, ← and_assoc, ← ih]
    split
    · next h => rw [lt_min_iff, forall_prop_of_true h]
    · next h => simp only [h, false_implies, and_true]

variable (t compacting compactionTime) in
theorem collectCandidates_spec (m : I64) :
    (∀ d, d ∈ (t.collectCandidates compacting compactionTime m).1 ↔
      d ∈ compacting ∧ t.isExpired compactionTime d = true) ∧
    ∀ b, b < (t.collectCandidates compacting compactionTime m).2 ↔
      b < m ∧ ∀ x ∈ compacting, t.isExpired compactionTime x = false → b < x.minTimestamp := by
  induction compacting using reverseRecOn with
  | nil => simp [collectCandidates]
  | append_singleton xs x ih =>
    obtain ⟨hmem, hlt⟩ := ih
    have hstep : t.collectCandidates (xs ++ [x]) compactionTime m =
        let r := t.collectCandidates xs compactionTime m
        if t.isExpired compactionTime x then (r.1.insert x, r.2)
        else (r.1, min r.2 x.minTimestamp) := by
      rw [collectCandidates, foldl_append]
      rfl
    cases hx : t.isExpired compactionTime x with
    | true =>
      rw [hx, if_pos rfl] at hstep
      refine ⟨fun d => ?_, fun b => ?_⟩
      · rw [hstep, mem_insert_iff, hmem, mem_append, mem_singleton, or_and_right, or_comm]
        exact or_congr_right ⟨fun h => ⟨h, h ▸ hx⟩, And.left⟩
      · rw [hstep, hlt, forall_mem_append, forall_mem_singleton]
        simp [hx]
    | false =>
      rw [hx, if_neg Bool.false_ne_true] at hstep
      refine ⟨fun d => ?_, fun b => ?_⟩
      · rw [hstep, hmem, mem_append, mem_singleton, or_and_right]
        refine (or_iff_left ?_).symm
        rintro ⟨rfl, hd⟩
        exact Bool.false_ne_true (hx.symm.trans hd)
      · rw [hstep, lt_min_iff, hlt, forall_mem_append, forall_mem_singleton, and_assoc,
          forall_prop_of_true hx]

theorem mem_overlapping_congr {ys : List (Sstable T B)} (h : ∀ x, x ∈ xs ↔ x ∈ ys) :
    x ∈ Sstable.overlapping compacting xs ↔ x ∈ Sstable.overlapping compacting ys := by
  cases compacting with
  | nil => rfl
  | cons c cs =>
    simp only [Sstable.overlapping, Sstable.overlappingRange, mem_filter, h]

theorem mem_getFullyExpiredSstables (hsub : compacting ⊆ t.sstables) :
    d ∈ t.getFullyExpiredSstables compacting compactionTime ↔
      t.Droppable compacting compactionTime d := by
  have hother : ∀ x, x ∈ t.getUncompactingSstables compacting ↔
      x ∈ t.allSstables.filter fun x => x ∉ compacting := by
    intro x
    rw [mem_getUncompactingSstables hsub, mem_filter, decide_eq_true_iff]
  unfold getFullyExpiredSstables
  split
  · next hempty =>
    rw [List.isEmpty_iff] at hempty
    simp only [not_mem_nil, false_iff]
    intro h
    exact not_mem_nil (hempty ▸ h.mem)
  · obtain ⟨hmem, hlt⟩ := t.collectCandidates_spec compacting compactionTime
      (t.minTimestampOf compactionTime
        (Sstable.overlapping compacting (t.getUncompactingSstables compacting)))
    simp only [mem_filter, hmem, Bool.not_eq_true', decide_eq_false_iff_not, not_le, hlt,
      lt_minTimestampOf, mem_overlapping_congr hother]
    constructor
    · rintro ⟨⟨hd, hexpired⟩, ⟨hhighest, hoverlapping⟩, holder⟩
      exact ⟨hd, hexpired, hhighest, holder, hoverlapping⟩
    · rintro ⟨hd, hexpired, hhighest, holder, hoverlapping⟩
      exact ⟨⟨hd, hexpired⟩, ⟨hhighest, hoverlapping⟩, holder⟩

end TableState

end Scylla.Compaction
