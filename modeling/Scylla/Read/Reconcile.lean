import Scylla.Mutation.EarlyCompaction

/-!
# Reconciling the replies of replicas

Every replica replies with the prefix of its data that the limits of the command allow: it stops
after the last row or partition allowed in total, and leaves out the rest of a partition after the
last row allowed in it. `data_read_resolver` merges the replies and has to notice when it is about
to return a row that some replica has not got to. A reversed read runs on the reversed schema, so
that rows are always sent in the order of their positions.
-/

namespace Scylla.Read

/-- What a partition holds at a clustering position, the tombstones in effect included. -/
structure RowOps (R : Type*) where
  merge : R → R → R
  empty : R
  /-- Whether there is a live row. -/
  isLive : R → Bool
  /-- Whether compaction leaves nothing of the row. -/
  isPurged : R → Bool
  not_isPurged : ∀ r, isLive r = true → isPurged r = false

def RowOps.mergeAll {R : Type*} (ops : RowOps R) : List R → R
  | [] => ops.empty
  | r :: rs => rs.foldl ops.merge r

/-- The rows of a table; a row without a deletion, a marker and cells is not kept. -/
def rowOps (columns : List Mutation.ColumnKind) : RowOps (Mutation.DeletableRow columns) where
  merge := Mutation.DeletableRow.apply
  empty := Mutation.DeletableRow.empty
  isLive := Mutation.DeletableRow.isLive
  isPurged := Mutation.DeletableRow.isEmpty
  not_isPurged r h := by
    refine Bool.eq_false_iff.mpr fun hempty => ?_
    obtain ⟨-, hmarker, hcells⟩ := Mutation.DeletableRow.isEmpty_iff.mp hempty
    simp [Mutation.DeletableRow.isLive, Mutation.RowMarker.isLive, hmarker, hcells,
      Mutation.Row.empty] at h

/-- The limits of a read; a limit that is not set is not there. -/
structure Limits where
  rows : ℕ
  perPartition : Option ℕ
  partitions : Option ℕ
  rows_pos : 0 < rows
  perPartition_pos : ∀ n ∈ perPartition, 0 < n
  partitions_pos : ∀ n ∈ partitions, 0 < n

/-- The order of a retry: the limits of the command have only been raised. -/
structure Limits.Le (a b : Limits) : Prop where
  rows : a.rows ≤ b.rows
  perPartition : ∀ n ∈ b.perPartition, ∃ m ∈ a.perPartition, m ≤ n
  partitions : ∀ n ∈ b.partitions, ∃ m ∈ a.partitions, m ≤ n

/-- The keys up to the last one allowed, when only keys of live rows count. -/
def takeLive {P : Type*} (live : P → Bool) : ℕ → List P → List P
  | 0, _ => []
  | _ + 1, [] => []
  | n + 1, x :: xs => if live x then x :: takeLive live n xs else x :: takeLive live (n + 1) xs

structure Content (P R : Type*) where
  keys : List P
  rowAt : P → R
  /-- What the partition tombstone leaves at every position. -/
  partition : R
  static : R

namespace Content

variable {P R : Type*} (ops : RowOps R) (c : Content P R)

def live (x : P) : Bool := ops.isLive (c.rowAt x)

def liveCount : ℕ := (c.keys.filter (c.live ops)).length

def rowCount (returnStatic : Bool) : ℕ :=
  if c.liveCount ops = 0 && ops.isLive c.static && returnStatic then 1 else c.liveCount ops

def cut [LinearOrder P] (n : ℕ) : Content P R :=
  if c.liveCount ops < n then c
  else
    let keys := takeLive (c.live ops) n c.keys
    { c with keys, rowAt := fun x => if keys.any (x ≤ ·) then c.rowAt x else c.partition }

end Content

structure Sent (K P R : Type*) where
  key : K
  content : Content P R
  rowCount : ℕ

/-- The data of a replica: partitions in ring order, with rows in clustering order. -/
structure Data (K P : Type*) {R : Type*} [LinearOrder K] [LinearOrder P] (ops : RowOps R) where
  partitions : List (K × Content P R)
  sorted : partitions.Pairwise (·.1 < ·.1)
  rows_sorted : ∀ p ∈ partitions, p.2.keys.Pairwise (· < ·)
  partition_dead : ∀ p ∈ partitions, ops.isLive p.2.partition = false

section

variable {K P R : Type*} [LinearOrder K] [LinearOrder P] (ops : RowOps R)

def Data.find (d : Data K P ops) (k : K) : Option (Content P R) :=
  (d.partitions.find? (·.1 = k)).map Prod.snd

def totalRows (reply : List (Sent K P R)) : ℕ := (reply.map Sent.rowCount).sum

def liveParts (reply : List (Sent K P R)) : ℕ := reply.countP fun p => 0 < p.rowCount

def reachedEnd (cmd : Limits) (reply : List (Sent K P R)) : Bool :=
  totalRows reply < cmd.rows && cmd.partitions.all fun n => liveParts reply < n

def findSent (reply : List (Sent K P R)) (k : K) : Option (Sent K P R) := reply.find? (·.key = k)

def reachedPartitionEnd (cmd : Limits) (p : Sent K P R) : Bool :=
  cmd.perPartition.all fun n => p.rowCount < n

def mergeKeys {α : Type*} [LinearOrder α] (ls : List (List α)) : List α :=
  ls.foldr (combine compare id fun a _ => a) []

def mergeContents (cs : List (Content P R)) : Content P R where
  keys := mergeKeys (cs.map Content.keys)
  rowAt x := ops.mergeAll (cs.map (·.rowAt x))
  partition := ops.mergeAll (cs.map Content.partition)
  static := ops.mergeAll (cs.map Content.static)

/-- A reconciled partition with its versions in the order of replicas. -/
structure Reconciled (K P R : Type*) where
  key : K
  /-- What each replica has sent of it. -/
  versions : List (Option (Sent K P R))
  content : Content P R

/-- The partitions of all replies, each merged from its versions. -/
def reconcile (replies : List (List (Sent K P R))) : List (Reconciled K P R) :=
  (mergeKeys (replies.map (·.map Sent.key))).map fun k =>
    let versions := replies.map (findSent · k)
    { key := k
      versions
      content := mergeContents ops (versions.filterMap (·.map Sent.content)) }

def liveRowCount (c : Content P R) : ℕ := c.rowCount ops true

/-- `total_live_count`. -/
def totalLiveCount (rp : List (Reconciled K P R)) : ℕ :=
  (rp.map fun m => liveRowCount ops m.content).sum

/-- `live_partition_count`. -/
def livePartitionCount (rp : List (Reconciled K P R)) : ℕ :=
  rp.countP fun m => 0 < liveRowCount ops m.content

def hasDiff [DecidableEq R] (otherDiffers : Content P R → Option (Content P R) → Bool)
    (rp : List (Reconciled K P R)) : Bool :=
  rp.any fun m => m.versions.any fun v =>
    otherDiffers m.content (v.map Sent.content) ||
      m.content.keys.any fun x => (v.map (·.content.rowAt x)) ≠ some (m.content.rowAt x)

/-! ## Incomplete information -/

/-- `primary_key::less_compare_clustering`. -/
def clusteringLess (reversed : Bool) : Option P → Option P → Bool
  | _, none => false
  | none, some _ => true
  | some a, some b => if reversed then b < a else a < b

/-- `primary_key::less_compare`. -/
def primaryLess (reversed : Bool) (a b : K × Option P) : Bool :=
  a.1 < b.1 || (a.1 = b.1 && clusteringLess reversed a.2 b.2)

/-- The row that `get_last_row` and `get_last_reconciled_row` take for the last one. -/
def lastKey (reversed : Bool) (keys : List P) : Option P :=
  if reversed then keys.head? else keys.getLast?

/-- The rows `compact_for_query` leaves with a limit. -/
def compactKeys (limit : ℕ) (c : Content P R) : List P :=
  (takeLive (c.live ops) limit c.keys).filter fun x => !ops.isPurged (c.rowAt x)

def gotIncompleteInformationInPartition (cmd : Limits) (reversed : Bool) (last : Option P)
    (versions : List (Option (Sent K P R))) : Bool :=
  versions.any fun v => v.any fun p =>
    !reachedPartitionEnd cmd p && clusteringLess reversed (lastKey reversed p.content.keys) last

/-- Where the loop of `got_incomplete_information` ends. -/
inductive Scan (K P : Type*) where
  /-- A replica was stopped too early in a partition. -/
  | incomplete
  /-- A limit runs out in a partition; its last row. -/
  | limit (key : K) (last : Option P)
  | through
  deriving DecidableEq

/-- The loop of `got_incomplete_information` with the original limits. -/
def scan (cmd orig : Limits) (reversed : Bool) :
    ℕ → Option ℕ → List (Reconciled K P R) → Scan K P
  | _, _, [] => .through
  | rowsLeft, partitionsLeft, m :: rest =>
    let rowCount := liveRowCount ops m.content
    let live := if 0 < rowCount then 1 else 0
    if rowCount < rowsLeft && partitionsLeft.all (live < ·) then
      let incomplete := orig.perPartition.any fun n =>
        gotIncompleteInformationInPartition cmd reversed
          (lastKey reversed (compactKeys ops n m.content)) m.versions
      if incomplete then .incomplete
      else scan cmd orig reversed (rowsLeft - rowCount) (partitionsLeft.map (· - live)) rest
    else .limit m.key (lastKey reversed (compactKeys ops rowsLeft m.content))

def lastReconciledRow (reversed : Bool) (rp : List (Reconciled K P R)) :
    Scan K P → Option (K × Option P)
  | .limit k last => some (k, last)
  | .through => rp.getLast?.map fun m => (m.key, lastKey reversed m.content.keys)
  | .incomplete => none

def lastRow (reversed : Bool) (reply : List (Sent K P R)) : Option (K × Option P) :=
  reply.getLast?.map fun p => (p.key, lastKey reversed p.content.keys)

/-- The last rows of the replicas that were stopped before a row. -/
def stoppedBefore (cmd : Limits) (reversed : Bool) (replies : List (List (Sent K P R)))
    (last : K × Option P) : List (K × Option P) :=
  (replies.filter fun r => !reachedEnd cmd r).filterMap fun r =>
    (lastRow reversed r).filter (primaryLess reversed · last)

def shortestRead (reversed : Bool) : List (K × Option P) → Option (K × Option P)
  | [] => none
  | r :: rs => some (rs.foldl (fun s r => if primaryLess reversed r s then r else s) r)

/-- Remove what is past the shortest read. -/
def trim (reversed : Bool) (s : K × Option P) (rp : List (Reconciled K P R)) :
    List (Reconciled K P R) :=
  rp.filterMap fun m =>
    if m.key < s.1 then some m
    else if m.key = s.1 then
      s.2.map fun c =>
        { m with content := { m.content with
            keys := m.content.keys.filter fun x =>
              (if reversed then decide (c ≤ x) else decide (x ≤ c)) &&
                !ops.isPurged (m.content.rowAt x) } }
    else none

def gotIncompleteInformation (cmd orig : Limits) (reversed shortReads : Bool)
    (replies : List (List (Sent K P R))) (rp : List (Reconciled K P R)) :
    Option (List (Reconciled K P R)) :=
  let scanned := scan ops cmd orig reversed orig.rows orig.partitions rp
  if scanned = .incomplete then none
  else
    match lastReconciledRow reversed rp scanned with
    | none => some rp
    | some last =>
      match shortestRead reversed (stoppedBefore cmd reversed replies last) with
      | none => some rp
      | some s => if shortReads then some (trim ops reversed s rp) else none

end

end Scylla.Read
