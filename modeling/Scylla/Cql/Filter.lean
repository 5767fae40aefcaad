import Mathlib

/-!
# Filtering of query results

The rows that the visitor of a result set adds when the coordinator checks the restrictions of a
statement. The filter keeps flags and counters across the rows of a partition, and the visitor the
keys of the row it stands on. A partition without clustering rows is offered as one row of static
cells, while the visitor still has the clustering key of the last row before it.
-/

namespace Scylla.Cql

abbrev Bytes := List (Fin 256)

end Scylla.Cql

namespace Scylla.Cql.Filtering

/-! ## Restrictions and their evaluation -/

/-- A column, with its position among the columns of its kind. -/
inductive Column where
  | partitionKey (i : ℕ)
  | clusteringKey (i : ℕ)
  | staticColumn (i : ℕ)
  | regularColumn (i : ℕ)
  deriving DecidableEq

structure ColumnRelation where
  onValue : Bytes → Option Bool

/-- A column that is null gives null. -/
def ColumnRelation.evaluate (r : ColumnRelation) (v : Option Bytes) : Option Bool :=
  v.bind r.onValue

structure TupleRelation where
  columns : List ℕ
  onTuple : List (Option Bytes) → Option Bool

/-- A conjunction of truth values, some of which may be null, from left to right. -/
def evaluateConjunction (hasNull : Bool) : List (Option Bool) → Option Bool
  | [] => if hasNull then none else some true
  | none :: es => evaluateConjunction true es
  | some false :: _ => some false
  | some true :: es => evaluateConjunction hasNull es

def isSatisfied (es : List (Option Bool)) : Bool := evaluateConjunction false es == some true

/-- The restrictions of a statement that are not left to the ranges it reads. -/
structure Restrictions where
  restricted : List Column
  relations : Column → List ColumnRelation
  tuples : List TupleRelation
  /-- `pk_restrictions_need_filtering`. -/
  pkNeedFiltering : Bool
  /-- `ck_restrictions_need_filtering`. -/
  ckNeedFiltering : Bool
  relations_ne_nil : ∀ c ∈ restricted, relations c ≠ []

def Restrictions.checks (r : Restrictions) (c : Column) : Bool :=
  decide (c ∈ r.restricted) &&
    match c with
    | .partitionKey _ => r.pkNeedFiltering
    | .clusteringKey _ => r.ckNeedFiltering
    | .staticColumn _ | .regularColumn _ => true

/-! ## Rows -/

structure Row where
  key : List Bytes
  cells : List (Option Bytes)

structure Partition where
  key : List Bytes
  staticRow : List (Option Bytes)
  rows : List Row

def getNonPkValues : List Column → List (Option Bytes) → Option (List (Option Bytes)) →
    List (Option Bytes)
  | [], _, _ => []
  | .staticColumn _ :: cs, st, row => st.head?.join :: getNonPkValues cs st.tail row
  | .regularColumn _ :: cs, st, some row =>
    row.head?.join :: getNonPkValues cs st (some row.tail)
  | _ :: cs, st, row => none :: getNonPkValues cs st row

structure Inputs where
  selection : List Column
  partitionKey : List Bytes
  clusteringKey : List Bytes
  staticAndRegularColumns : List (Option Bytes)

def Inputs.extractColumnValue (inp : Inputs) : Column → Option Bytes
  | .partitionKey i => inp.partitionKey[i]?
  | .clusteringKey i => inp.clusteringKey[i]?
  | c => (inp.staticAndRegularColumns[inp.selection.idxOf c]?).join

/-- What the filter is given of a row, or of the static row of a partition. -/
def inputs (selection : List Column) (p : Partition) (row : Option Row) (key : List Bytes) :
    Inputs :=
  ⟨selection, p.key, key, getNonPkValues selection p.staticRow (row.map Row.cells)⟩

def Restrictions.columnSatisfied (r : Restrictions) (inp : Inputs) (c : Column) : Bool :=
  isSatisfied ((r.relations c).map fun rel => rel.evaluate (inp.extractColumnValue c))

/-- Whether the restrictions of several clustering columns are satisfied. -/
def Restrictions.tuplesSatisfied (r : Restrictions) (inp : Inputs) : Bool :=
  isSatisfied (r.tuples.map fun t =>
    t.onTuple (t.columns.map fun i => inp.extractColumnValue (.clusteringKey i)))

def Restrictions.satisfied (r : Restrictions) (inp : Inputs) : Bool :=
  r.tuplesSatisfied inp && r.restricted.all fun c => !r.checks c || r.columnSatisfied inp c

/-! ## The filter -/

/-- The limit that stands for none. -/
def maxLimit : ℕ := 2 ^ 64 - 1

structure Page where
  restrictions : Restrictions
  perPartitionLimit : ℕ
  /-- The last partition of the page before, compared as the schema does. -/
  isLastPartition : List Bytes → Bool
  /-- The rows of that partition that were added so far. -/
  rowsFetchedForLastPartition : ℕ
  limit_lt : perPartitionLimit < 2 ^ 64
  fetched_le : rowsFetchedForLastPartition ≤ perPartitionLimit

structure FilterState where
  currentPartitionKeyDoesNotMatch : Bool
  currentStaticRowDoesNotMatch : Bool
  rowsDropped : ℕ
  remaining : ℕ
  perPartitionRemaining : ℕ
  isFirstPartitionOnPage : Bool

inductive Mismatch where
  | partitionKey
  | clusteringKey
  | cell (isStatic : Bool)

def checkColumn (r : Restrictions) (inp : Inputs) (hasRow : Bool) (c : Column) : Option Mismatch :=
  if !r.checks c then none
  else
    match c with
    | .staticColumn _ => if r.columnSatisfied inp c then none else some (.cell true)
    | .regularColumn _ =>
      -- No restriction of a regular column is satisfied if the column is null.
      if !hasRow then some (.cell false)
      else if r.columnSatisfied inp c then none else some (.cell false)
    | .partitionKey _ => if r.columnSatisfied inp c then none else some .partitionKey
    | .clusteringKey _ =>
      if inp.clusteringKey.isEmpty then some .clusteringKey
      else if r.columnSatisfied inp c then none else some .clusteringKey

def FilterState.doFilter (f : FilterState) (r : Restrictions) (inp : Inputs) (hasRow : Bool) :
    Bool × FilterState :=
  if f.currentPartitionKeyDoesNotMatch || f.currentStaticRowDoesNotMatch || f.remaining == 0 ||
      f.perPartitionRemaining == 0 then (false, f)
  else if !r.tuples.isEmpty && !r.tuplesSatisfied inp then (false, f)
  else
    match inp.selection.findSome? (checkColumn r inp hasRow) with
    | none => (true, f)
    | some .partitionKey => (false, { f with currentPartitionKeyDoesNotMatch := true })
    | some .clusteringKey => (false, f)
    | some (.cell isStatic) => (false, { f with currentStaticRowDoesNotMatch := isStatic })

/-- `operator()`. -/
def FilterState.filter (f : FilterState) (r : Restrictions) (inp : Inputs) (hasRow : Bool) :
    Bool × FilterState :=
  let (accepted, f) := f.doFilter r inp hasRow
  if !accepted then (false, { f with rowsDropped := f.rowsDropped + 1 })
  else
    (true, { f with
      remaining := f.remaining - 1
      perPartitionRemaining := f.perPartitionRemaining - 1 })

/-- `reset`. The subtraction wraps. -/
def FilterState.reset (f : FilterState) (page : Page) (key : List Bytes) : FilterState :=
  let f := { f with
    currentPartitionKeyDoesNotMatch := false
    currentStaticRowDoesNotMatch := false
    rowsDropped := 0
    perPartitionRemaining := page.perPartitionLimit }
  if f.isFirstPartitionOnPage && page.perPartitionLimit < maxLimit then
    let f := { f with isFirstPartitionOnPage := false }
    if page.isLastPartition key then
      { f with perPartitionRemaining :=
          (page.perPartitionLimit + 2 ^ 64 - page.rowsFetchedForLastPartition) % 2 ^ 64 }
    else f
  else f

/-! ## The visitor -/

structure Added where
  partition : ℕ
  row : ℕ
  values : List (Option Bytes)
  deriving DecidableEq

def rowValues (pk ck : List Bytes) : List Column → List (Option Bytes) → List (Option Bytes) →
    List (Option Bytes)
  | [], _, _ => []
  | .partitionKey i :: cs, st, row => pk[i]? :: rowValues pk ck cs st row
  | .clusteringKey i :: cs, st, row => ck[i]? :: rowValues pk ck cs st row
  | .regularColumn _ :: cs, st, row => row.head?.join :: rowValues pk ck cs st row.tail
  | .staticColumn _ :: cs, st, row => st.head?.join :: rowValues pk ck cs st.tail row

def staticRowValues (pk : List Bytes) : List Column → List (Option Bytes) → List (Option Bytes)
  | [], _ => []
  | .partitionKey i :: cs, st => pk[i]? :: staticRowValues pk cs st
  | .staticColumn _ :: cs, st => st.head?.join :: staticRowValues pk cs st.tail
  | _ :: cs, st => none :: staticRowValues pk cs st

/-- `result_set_builder::visitor`, with the rows added to the result set. -/
structure Visitor where
  partitionKey : List Bytes
  clusteringKey : List Bytes
  rowCount : ℕ
  filter : FilterState
  added : List Added

namespace Visitor

def acceptNewPartition (v : Visitor) (page : Page) (key : List Bytes) (rowCount : ℕ) : Visitor :=
  { v with partitionKey := key, rowCount, filter := v.filter.reset page key }

def addIfAccepted (v : Visitor) (page : Page) (inp : Inputs) (hasRow : Bool) (x : Added) :
    Visitor :=
  { v with
    filter := (v.filter.filter page.restrictions inp hasRow).2
    added := v.added ++ if (v.filter.filter page.restrictions inp hasRow).1 then [x] else [] }

/-- `accept_new_row`, for the `m`-th row of the `n`-th partition. -/
def acceptNewRow (v : Visitor) (page : Page) (selection : List Column) (n m : ℕ)
    (staticRow : List (Option Bytes)) (row : Row) : Visitor :=
  let v := { v with clusteringKey := row.key }
  v.addIfAccepted page
    ⟨selection, v.partitionKey, v.clusteringKey,
      getNonPkValues selection staticRow (some row.cells)⟩ true
    ⟨n, m, rowValues v.partitionKey v.clusteringKey selection staticRow row.cells⟩

def acceptPartitionEnd (v : Visitor) (page : Page) (selection : List Column) (n : ℕ)
    (staticRow : List (Option Bytes)) : Visitor :=
  if v.rowCount = 0 then
    v.addIfAccepted page
      ⟨selection, v.partitionKey, v.clusteringKey, getNonPkValues selection staticRow none⟩ false
      ⟨n, 0, staticRowValues v.partitionKey selection staticRow⟩
  else v

def acceptRows (v : Visitor) (page : Page) (selection : List Column) (n m : ℕ)
    (staticRow : List (Option Bytes)) : List Row → Visitor
  | [] => v
  | row :: rows =>
    (v.acceptNewRow page selection n m staticRow row).acceptRows page selection n (m + 1) staticRow
      rows

def consumePartition (v : Visitor) (page : Page) (selection : List Column) (n : ℕ)
    (p : Partition) : Visitor :=
  ((v.acceptNewPartition page p.key p.rows.length).acceptRows page selection n 0 p.staticRow
    p.rows).acceptPartitionEnd page selection n p.staticRow

/-- `result_view::consume`, from the `n`-th partition on. -/
def consume (v : Visitor) (page : Page) (selection : List Column) (n : ℕ) :
    List Partition → Visitor
  | [] => v
  | p :: ps => (v.consumePartition page selection n p).consume page selection (n + 1) ps

end Visitor

def Partition.candidates (p : Partition) : List (Option Row × ℕ) :=
  if p.rows.isEmpty then [(none, 0)] else (p.rows.map some).zipIdx

def candidateValues (selection : List Column) (p : Partition) : Option Row → List (Option Bytes)
  | some row => rowValues p.key row.key selection p.staticRow row.cells
  | none => staticRowValues p.key selection p.staticRow

/-- The clustering key of a row; the clustering columns of a static row are null. -/
def keyOf : Option Row → List Bytes
  | some row => row.key
  | none => []

/-- The rows of a partition that may still be added. -/
def Page.allowance (page : Page) (n : ℕ) (p : Partition) : ℕ :=
  if n = 0 ∧ page.perPartitionLimit < maxLimit ∧ page.isLastPartition p.key = true then
    page.perPartitionLimit - page.rowsFetchedForLastPartition
  else page.perPartitionLimit

end Scylla.Cql.Filtering
