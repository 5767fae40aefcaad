import Scylla.Cql.Filter

/-!
# When filtering is exact

The decision for a row is the conjunction of all restrictions as long as the limits are not used
up: the flags that the filter keeps within a partition only repeat what the restrictions of the
partition key and of the static columns say. So the rows added are the expected ones except where a
static row is judged by the clustering key of an earlier row.
-/

namespace Scylla.Cql.Filtering

open List
open Restrictions
open Nat

/-! ## Evaluation -/

variable {es : List (Option Bool)}

theorem evaluateConjunction_eq_some_true {b : Bool} :
    evaluateConjunction b es = some true ↔ b = false ∧ ∀ e ∈ es, e = some true := by
  induction es generalizing b with
  | nil => cases b <;> simp [evaluateConjunction]
  | cons e es ih =>
    match e with
    | none => simp [evaluateConjunction, ih]
    | some false => simp [evaluateConjunction]
    | some true => simp [evaluateConjunction, ih]

theorem isSatisfied_iff : isSatisfied es = true ↔ ∀ e ∈ es, e = some true := by
  rw [isSatisfied, beq_iff_eq, evaluateConjunction_eq_some_true]
  exact and_iff_right rfl

namespace Restrictions

variable {r : Restrictions} {inp inp' : Inputs} {c : Column}

theorem mem_restricted (h : r.checks c = true) : c ∈ r.restricted :=
  of_decide_eq_true (Bool.and_eq_true_iff.mp h).1

theorem columnSatisfied_of_null (h : r.checks c = true) (hnull : inp.extractColumnValue c = none) :
    r.columnSatisfied inp c = false := by
  obtain ⟨rel, hrel⟩ := exists_mem_of_ne_nil _ (r.relations_ne_nil c (mem_restricted h))
  rw [Bool.eq_false_iff]
  intro hsat
  have hval := isSatisfied_iff.mp hsat _ (mem_map_of_mem hrel)
  rw [hnull] at hval
  cases hval

theorem columnSatisfied_congr (h : inp.extractColumnValue c = inp'.extractColumnValue c) :
    r.columnSatisfied inp c = r.columnSatisfied inp' c := by
  unfold columnSatisfied
  rw [h]

theorem not_satisfied_of_column (h : r.checks c = true) (hcol : r.columnSatisfied inp c = false) :
    r.satisfied inp = false := by
  rw [Bool.eq_false_iff]
  intro hsat
  have hall := all_eq_true.mp (Bool.and_eq_true_iff.mp hsat).2 c (mem_restricted h)
  rw [h, hcol] at hall
  cases hall

end Restrictions

variable {i : ℕ}

variable {st : List (Option Bytes)} {k limit : ℕ}

section

variable {selection : List Column}

theorem getNonPkValues_static
    {row row' : Option (List (Option Bytes))} (h : selection[k]? = some (.staticColumn i)) :
    (getNonPkValues selection st row)[k]? = (getNonPkValues selection st row')[k]? := by
  induction selection generalizing k st row row' with
  | nil => cases h
  | cons c cs ih =>
    cases k with
    | zero =>
      cases h
      rfl
    | succ k =>
      have hk : cs[k]? = some (.staticColumn i) := h
      cases c with
      | staticColumn j => exact ih hk
      | regularColumn j => cases row <;> cases row' <;> exact ih hk
      | partitionKey j => exact ih hk
      | clusteringKey j => exact ih hk

theorem getNonPkValues_regular
    (h : selection[k]? = some (.regularColumn i)) :
    (getNonPkValues selection st none)[k]?.join = none := by
  induction selection generalizing k st with
  | nil => cases h
  | cons c cs ih =>
    cases k with
    | zero =>
      cases h
      rfl
    | succ k =>
      have hk : cs[k]? = some (.regularColumn i) := h
      cases c <;> exact ih hk

theorem getElem?_idxOf_of_mem {c : Column} (h : c ∈ selection) :
    selection[selection.idxOf c]? = some c := by
  rw [getElem?_eq_getElem (idxOf_lt_length_of_mem h), getElem_idxOf]

end

/-! ## One row -/

section

variable {r : Restrictions} {selection : List Column} {p : Partition} {row : Option Row}
  {key : List Bytes} {f : FilterState} {c : Column}

theorem checkColumn_eq_none_iff (hc : c ∈ selection) :
    checkColumn r (inputs selection p row key) row.isSome c = none ↔
      (r.checks c = true → r.columnSatisfied (inputs selection p row key) c = true) := by
  unfold checkColumn
  cases hchecks : r.checks c with
  | false => simp
  | true =>
    have hnone : r.columnSatisfied (inputs selection p row key) c = false →
        (some Mismatch.clusteringKey = none ↔
          r.columnSatisfied (inputs selection p row key) c = true) := by
      intro hcol
      rw [hcol]
      simp
    cases c with
    | partitionKey i => simp
    | staticColumn i => simp
    | regularColumn i =>
      cases row with
      | some row => simp
      | none =>
        have hnull : r.columnSatisfied (inputs selection p none key) (.regularColumn i) = false :=
          r.columnSatisfied_of_null hchecks (getNonPkValues_regular (getElem?_idxOf_of_mem hc))
        simp [hnull]
    | clusteringKey i =>
      cases hkey : (inputs selection p row key).clusteringKey with
      | cons w k => simp
      | nil =>
        have hnull : (inputs selection p row key).extractColumnValue (.clusteringKey i) = none := by
          rw [Inputs.extractColumnValue, hkey]
          rfl
        simpa using hnone (r.columnSatisfied_of_null hchecks hnull)

theorem checkColumn_mismatch {m : Mismatch} (hc : c ∈ selection)
    (h : checkColumn r (inputs selection p row key) row.isSome c = some m)
    (hm : m = .partitionKey ∨ m = .cell true) (row' : Option Row) (key' : List Bytes) :
    r.satisfied (inputs selection p row' key') = false := by
  have hnot : ¬ (r.checks c = true → r.columnSatisfied (inputs selection p row key) c = true) := by
    rw [← checkColumn_eq_none_iff hc, h]
    exact fun h => nomatch h
  rw [Classical.not_imp] at hnot
  obtain ⟨hchecks, hcol⟩ := hnot
  rw [Bool.not_eq_true] at hcol
  refine r.not_satisfied_of_column hchecks (Eq.trans (columnSatisfied_congr ?_) hcol)
  cases c with
  | partitionKey i => rfl
  | staticColumn i =>
    exact congrArg Option.join (getNonPkValues_static (getElem?_idxOf_of_mem hc))
  | regularColumn i =>
    unfold checkColumn at h
    obtain rfl | rfl := hm <;> simp [hchecks] at h <;> split at h <;> simp_all
  | clusteringKey i =>
    unfold checkColumn at h
    obtain rfl | rfl := hm <;> simp [hchecks] at h <;> split at h <;> simp_all

/-- The flags of the filter are only set for a partition none of whose rows can match. -/
def FlagsSound (r : Restrictions) (selection : List Column) (p : Partition) (f : FilterState) :
    Prop :=
  f.currentPartitionKeyDoesNotMatch = true ∨ f.currentStaticRowDoesNotMatch = true →
    ∀ row key, r.satisfied (inputs selection p row key) = false

theorem FlagsSound.doFilter (hsound : FlagsSound r selection p f) (row : Option Row)
    (key : List Bytes) :
    FlagsSound r selection p (f.doFilter r (inputs selection p row key) row.isSome).2 := by
  unfold FilterState.doFilter
  split
  · exact hsound
  · split
    · exact hsound
    · split
      · exact hsound
      next h =>
        obtain ⟨c, hc, hmismatch⟩ := exists_of_findSome?_eq_some h
        exact fun _ => checkColumn_mismatch hc hmismatch (.inl rfl)
      · exact hsound
      next isStatic h =>
        obtain ⟨c, hc, hmismatch⟩ := exists_of_findSome?_eq_some h
        rintro (hflag | hflag)
        · exact hsound (.inl hflag)
        · have hflag : isStatic = true := hflag
          exact checkColumn_mismatch hc (hflag ▸ hmismatch) (.inr rfl)

theorem FlagsSound.filter (hsound : FlagsSound r selection p f) (row : Option Row)
    (key : List Bytes) :
    FlagsSound r selection p (f.filter r (inputs selection p row key) row.isSome).2 := by
  have h := hsound.doFilter row key
  unfold FilterState.filter
  dsimp only
  split <;> exact h

end

/-! ## One partition -/

variable {x : Added}

section

variable {page : Page} {selection : List Column} {p : Partition} {v : Visitor} {n : ℕ}

def addedRow (selection : List Column) (n : ℕ) (p : Partition) (c : Option Row × ℕ) : Added :=
  ⟨n, c.2, candidateValues selection p c.1⟩

def matchingRows (page : Page) (selection : List Column) (n m : ℕ) (p : Partition)
    (rows : List Row) : List Added :=
  (((rows.map some).zipIdx m).filter fun c =>
    page.restrictions.satisfied (inputs selection p c.1 (keyOf c.1))).map (addedRow selection n p)

variable {m : ℕ}

/-- The visitor has added the given rows of one partition and has counted them. -/
structure Advances (v v' : Visitor) (out : List Added) : Prop where
  added : v'.added = v.added ++ out
  remaining : v'.filter.remaining = v.filter.remaining - out.length
  perPartitionRemaining :
    v'.filter.perPartitionRemaining = v.filter.perPartitionRemaining - out.length
  isFirstPartitionOnPage : v'.filter.isFirstPartitionOnPage = v.filter.isFirstPartitionOnPage

theorem Advances.refl (v : Visitor) : Advances v v [] where
  added := (append_nil _).symm
  remaining := rfl
  perPartitionRemaining := rfl
  isFirstPartitionOnPage := rfl

theorem Advances.trans {v v' v'' : Visitor} {out out' : List Added} (h : Advances v v' out)
    (h' : Advances v' v'' out') : Advances v v'' (out ++ out') where
  added := by rw [h'.added, h.added, append_assoc]
  remaining := by
    rw [h'.remaining, h.remaining, length_append]
    omega
  perPartitionRemaining := by
    rw [h'.perPartitionRemaining, h.perPartitionRemaining, length_append]
    omega
  isFirstPartitionOnPage := h'.isFirstPartitionOnPage.trans h.isFirstPartitionOnPage

/-- The clustering key that the visitor has after some rows. -/
def lastKey (left : List Bytes) (rows : List Row) : List Bytes :=
  (rows.getLast?.map Row.key).getD left

def partitionOutput (page : Page) (selection : List Column) (n remaining : ℕ) (left : List Bytes)
    (p : Partition) : List Added :=
  (if p.rows.isEmpty then
    if page.restrictions.satisfied (inputs selection p none left) then
      [addedRow selection n p (none, 0)] else []
  else matchingRows page selection n 0 p p.rows).take (min remaining (page.allowance n p))

end

/-! ## Whole results -/

section

variable {page : Page} {selection : List Column} {p : Partition} {v : Visitor} {n : ℕ}

def output (page : Page) (selection : List Column) :
    ℕ → ℕ → List Bytes → List Partition → List Added
  | _, _, _, [] => []
  | n, remaining, left, p :: ps =>
    partitionOutput page selection n remaining left p ++
      output page selection (n + 1)
        (remaining - (partitionOutput page selection n remaining left p).length)
        (lastKey left p.rows) ps

variable {ps : List Partition} {remaining : ℕ} {left : List Bytes}

end

/-! ## A static row judged by the key of another partition -/

namespace StaleKey

/-- `WHERE c = 1 AND d = 5`, checked by the coordinator. -/
def page : Page where
  restrictions :=
    { restricted := [.clusteringKey 0, .clusteringKey 1]
      relations := fun c => [⟨fun v => some (decide (v = if c = .clusteringKey 0 then [1] else [5]))⟩]
      tuples := []
      pkNeedFiltering := false
      ckNeedFiltering := true
      relations_ne_nil := fun _ _ => cons_ne_nil _ _ }
  perPartitionLimit := maxLimit
  isLastPartition := fun _ => false
  rowsFetchedForLastPartition := 0
  limit_lt := by decide
  fetched_le := Nat.zero_le _

def selection : List Column :=
  [.partitionKey 0, .clusteringKey 0, .clusteringKey 1, .staticColumn 0]

def twoRows : Partition := ⟨[[1]], [some [7]], [⟨[[1], [5]], []⟩, ⟨[[1], [6]], []⟩]⟩

end StaleKey

end Scylla.Cql.Filtering
