import Scylla.Core.Reachable
import Scylla.Sstables.ReaderSelector

/-!
# Merging the readers of a set

`mutation_reader_merger` merges the fragments of the readers it has and asks the reader selector
for more readers between partitions. What a reader returns is up to its sstable, so a step gets it
from outside; the merger decides which readers to ask and when to have new ones created.
-/

namespace Scylla.Sstables

variable {T K Q : Type*} [LinearOrder T] [LinearOrder K] [LinearOrder Q]

/-- A fragment inside of a partition. -/
inductive Inner (Q : Type*) where
  | row (position : Q)
  | partitionEnd
  deriving DecidableEq

def Inner.position : Inner Q → WithTop Q
  | row q => q
  | partitionEnd => ⊤

inductive Fragment (T K Q : Type*) where
  | partitionStart (key : DecoratedKey T K)
  | inner (f : Inner Q)

inductive Kind where
  | partitionStart
  | row
  | partitionEnd
  deriving DecidableEq

def Inner.kind : Inner Q → Kind
  | row _ => .row
  | partitionEnd => .partitionEnd

/-- `reader_and_last_fragment_kind`; a reader is named by its sstable. -/
structure ReaderAndLastFragmentKind (T K : Type*) [LinearOrder T] [LinearOrder K] where
  reader : Sstable T K
  lastKind : Kind

def ReaderAndLastFragmentKind.ofInner (x : Sstable T K × Inner Q) : ReaderAndLastFragmentKind T K :=
  ⟨x.1, x.2.kind⟩

structure Merger (T K Q : Type*) [LinearOrder T] [LinearOrder K] where
  selector : ReaderSelector T K
  allReaders : List (Sstable T K)
  /-- The readers at the start of a later partition, in the order of their partitions. -/
  readerHeap : List (Sstable T K × DecoratedKey T K)
  /-- The readers in the current partition, in the order of their fragments. -/
  fragmentHeap : List (Sstable T K × Inner Q)
  next : List (ReaderAndLastFragmentKind T K)
  haltedReaders : List (ReaderAndLastFragmentKind T K)
  singleReader : Option (ReaderAndLastFragmentKind T K)
  gallopingReader : Option (ReaderAndLastFragmentKind T K)
  gallopModeHits : ℕ
  /-- `streamed_mutation::forwarding`. -/
  fwdSm : Bool
  /-- `mutation_reader::forwarding`. -/
  fwdMr : Bool

/-- The fragments the merger returns at once; none at the end of the stream. -/
abbrev Batch (T K Q : Type*) [LinearOrder T] [LinearOrder K] :=
  List (Sstable T K × Fragment T K Q)

inductive SingleRead (Q : Type*) where
  | endOfStream
  | fill
  | fragment (f : Inner Q)

namespace Merger

def gallopModeEnteringThreshold : ℕ := 3

def inGallopMode (m : Merger T K Q) : Bool := gallopModeEnteringThreshold ≤ m.gallopModeHits

def addReaders (m : Merger T K Q) (newReaders : List (Sstable T K)) : Merger T K Q :=
  { m with
    allReaders := m.allReaders ++ newReaders
    next := m.next ++ newReaders.map fun r => ⟨r, .partitionEnd⟩ }

def maybeAddReaders (m : Merger T K Q) (pos : Option (RingPosition T K)) :
    Option (Merger T K Q) :=
  if m.selector.hasNewReaders pos then
    (m.selector.createNewReaders pos).map fun r => { m with selector := r.1 }.addReaders r.2
  else some m

def nextPartitionPosition (m : Merger T K Q) : Option (RingPosition T K) :=
  m.readerHeap.head?.map fun x => .ofKey x.2 false

def maybeAddReadersAtPartitionBoundary (m : Merger T K Q) : Option (Merger T K Q) :=
  if m.fragmentHeap.isEmpty && m.haltedReaders.isEmpty then
    m.maybeAddReaders m.nextPartitionPosition
  else some m

/-- The end of a reader's stream in `prepare_one`. -/
def endOfReader (m : Merger T K Q) (rk : ReaderAndLastFragmentKind T K) : Merger T K Q :=
  if m.fwdSm && rk.lastKind ≠ .partitionEnd then
    { m with haltedReaders := m.haltedReaders ++ [rk] }
  else if !m.fwdMr then { m with allReaders := m.allReaders.erase rk.reader }
  else m

/-- Push a reader to the heap of its partition or of its fragment. -/
def push (m : Merger T K Q) (r : Sstable T K) : Fragment T K Q → Merger T K Q
  | .partitionStart key =>
    { m with readerHeap := m.readerHeap.orderedInsert (fun a b => a.2 ≤ b.2) (r, key) }
  | .inner f =>
    { m with
      fragmentHeap := m.fragmentHeap.orderedInsert (fun a b => a.2.position ≤ b.2.position) (r, f) }

/-- `prepare_one` of a reader that is not galloping. -/
def prepareOne (m : Merger T K Q) (rk : ReaderAndLastFragmentKind T K) :
    Option (Fragment T K Q) → Merger T K Q
  | some f => m.push rk.reader f
  | none => m.endOfReader rk

/-- `prepare_one` of the galloping reader: the batch, if the reader keeps winning. -/
def prepareGalloping (m : Merger T K Q) (rk : ReaderAndLastFragmentKind T K) :
    Option (Fragment T K Q) → Merger T K Q × Option (Batch T K Q)
  | some (.inner f) =>
    if m.fragmentHeap.head?.all fun x => f.position < x.2.position then
      ({ m with gallopingReader := some ⟨rk.reader, f.kind⟩ }, some [(rk.reader, .inner f)])
    else ({ m.push rk.reader (.inner f) with gallopModeHits := 0 }, none)
  | mfo => ({ m.prepareOne rk mfo with gallopModeHits := 0 }, none)

def prepareNext (m : Merger T K Q) (read : Sstable T K → Option (Fragment T K Q)) :
    Option (Merger T K Q) :=
  let m' := m.next.foldl (fun m' rk => m'.prepareOne rk (read rk.reader)) m
  { m' with next := [] }.maybeAddReadersAtPartitionBoundary

/-- Another reader contributed the last fragment. -/
def contribute (m : Merger T K Q) (reader : Sstable T K) : Merger T K Q :=
  let lastKind := (m.gallopingReader.map (·.lastKind)).getD .partitionEnd
  { m with gallopingReader := some ⟨reader, lastKind⟩, gallopModeHits := 1 }

/-- The readers of a batch become the next ones to be asked, or one of them gallops. -/
def emit (m : Merger T K Q) (rk : ReaderAndLastFragmentKind T K)
    (rks : List (ReaderAndLastFragmentKind T K)) : Merger T K Q :=
  if rks.isEmpty && m.gallopingReader.map (·.reader) = some rk.reader then
    let m := { m with gallopModeHits := m.gallopModeHits + 1 }
    if m.inGallopMode then { m with gallopingReader := some rk, next := [] }
    else { m with next := [rk] }
  else { m.contribute rk.reader with next := rk :: rks }

/-- `maybe_produce_batch`: nothing, or a batch. -/
def maybeProduceBatch (m : Merger T K Q) (read : Sstable T K → Option (Fragment T K Q))
    (buffer : SingleRead Q) : Option (Merger T K Q × Option (Batch T K Q)) :=
  match m.singleReader with
  | some rk =>
    match buffer with
    | .endOfStream => some (m, some [])
    | .fill => some (m, none)
    | .fragment .partitionEnd =>
      some ({ m with singleReader := none, next := m.next ++ [⟨rk.reader, .partitionEnd⟩] },
        some [(rk.reader, .inner .partitionEnd)])
    | .fragment f =>
      some ({ m with singleReader := some ⟨rk.reader, f.kind⟩ }, some [(rk.reader, .inner f)])
  | none =>
    if m.inGallopMode then
      m.gallopingReader.bind fun rk =>
        let r := m.prepareGalloping rk (read rk.reader)
        r.1.maybeAddReadersAtPartitionBoundary.map fun m => (m, r.2)
    else if !m.next.isEmpty then (m.prepareNext read).map fun m => (m, none)
    else
      match m.fragmentHeap with
      | x :: xs =>
        let same := xs.takeWhile fun y => y.2.position = x.2.position
        let rest := xs.dropWhile fun y => y.2.position = x.2.position
        let batch := (x :: same).map fun y => (y.1, Fragment.inner y.2)
        some ({ m with fragmentHeap := rest }.emit (.ofInner x) (same.map .ofInner), some batch)
      | [] =>
        if !m.haltedReaders.isEmpty then some (m, some [])
        else
          match m.readerHeap with
          | [] => some (m, some [])
          | x :: xs =>
            let same := xs.takeWhile fun y => y.2 = x.2
            let m := { m with readerHeap := xs.dropWhile fun y => y.2 = x.2 }
            let batch := (x :: same).map fun y => (y.1, Fragment.partitionStart y.2)
            if same.isEmpty then
              some ({ m with singleReader := some ⟨x.1, .partitionStart⟩, gallopModeHits := 0 },
                some batch)
            else
              some (m.emit ⟨x.1, .partitionStart⟩ (same.map fun y => ⟨y.1, .partitionStart⟩),
                some batch)

def prepareForwardableReaders (m : Merger T K Q) : Merger T K Q :=
  { m with
    next := m.next ++ m.haltedReaders ++ m.singleReader.toList ++
      (if m.inGallopMode then m.gallopingReader.toList else []) ++
      m.fragmentHeap.map .ofInner
    singleReader := none
    gallopModeHits := if m.inGallopMode then 0 else m.gallopModeHits
    haltedReaders := []
    fragmentHeap := [] }

def nextPartition (m : Merger T K Q) : Merger T K Q :=
  let m := m.prepareForwardableReaders
  { m with next := m.next.map fun rk => { rk with lastKind := .partitionEnd } }

def fastForwardTo (m : Merger T K Q) (pr : PartitionRange T K) : Option (Merger T K Q) :=
  (m.selector.fastForwardTo pr).map fun r =>
    { m with
      selector := r.1
      singleReader := none
      gallopModeHits := 0
      next := m.allReaders.map fun r => ⟨r, .partitionEnd⟩
      haltedReaders := []
      fragmentHeap := []
      readerHeap := [] }.addReaders r.2

def initial (sstables : SstableSet T K) (pr : PartitionRange T K) (fwdSm fwdMr : Bool) :
    Merger T K Q where
  selector := .create sstables pr
  allReaders := []
  readerHeap := []
  fragmentHeap := []
  next := []
  haltedReaders := []
  singleReader := none
  gallopingReader := none
  gallopModeHits := 0
  fwdSm
  fwdMr

def create (sstables : SstableSet T K) (pr : PartitionRange T K) (fwdSm fwdMr : Bool) :
    Option (Merger T K Q) :=
  (initial sstables pr fwdSm fwdMr).maybeAddReaders none

end Merger

inductive Action (T K Q : Type*) [LinearOrder T] [LinearOrder K] where
  | produce (read : Sstable T K → Option (Fragment T K Q)) (buffer : SingleRead Q)
  | nextPartition
  | fastForwardTo (pr : PartitionRange T K)
  /-- `fast_forward_to` a position range of the partition. -/
  | fastForwardToPosition

def Merger.step (m : Merger T K Q) : Action T K Q → Option (Merger T K Q)
  | .produce read buffer => (m.maybeProduceBatch read buffer).map Prod.fst
  | .nextPartition => some m.nextPartition
  | .fastForwardTo pr => m.fastForwardTo pr
  | .fastForwardToPosition => some m.prepareForwardableReaders

def Merger.Allowed (m : Merger T K Q) : Action T K Q → Prop
  | .fastForwardTo pr => m.fwdMr = true ∧
      m.selector.pr.startPosition ≤ pr.startPosition ∧ pr.startPosition ≠ .max
  | _ => True

end Scylla.Sstables
