import Mathlib.Data.List.Nodup
import Mathlib.Order.Lattice

/-!
# The log of a server

A snapshot of a prefix of the log, and entries with consecutive indexes, some of which may be older
than the snapshot. The indexes of the last two configuration entries are kept along, so that a
truncated log can go back to the configuration before. The size of entries decides how many of them
stay behind a snapshot.
-/

namespace Scylla.Raft

/-- Server ids; the null id is no id. -/
abbrev ServerId := ℕ

abbrev Command := List (Fin 256)

structure ConfigMember where
  id : ServerId
  canVote : Bool
  deriving DecidableEq

/-- `config_member_set`: members are told apart by their ids. -/
structure ConfigMemberSet where
  members : List ConfigMember
  nodup : (members.map ConfigMember.id).Nodup
  deriving DecidableEq

namespace ConfigMemberSet

def empty : ConfigMemberSet := ⟨[], List.nodup_nil⟩

def find (c : ConfigMemberSet) (id : ServerId) : Option ConfigMember :=
  c.members.find? (·.id = id)

def voters (c : ConfigMemberSet) : List ServerId :=
  (c.members.filter ConfigMember.canVote).map ConfigMember.id

end ConfigMemberSet

structure Configuration where
  current : ConfigMemberSet
  previous : ConfigMemberSet
  deriving DecidableEq

namespace Configuration

def isJoint (c : Configuration) : Bool := !c.previous.members.isEmpty

def canVote (c : Configuration) (id : ServerId) : Bool :=
  (c.current.find id).any ConfigMember.canVote || (c.previous.find id).any ConfigMember.canVote

/-- `check`: a configuration needs a voter. -/
def check (c : ConfigMemberSet) : Bool := !c.members.isEmpty && !c.voters.isEmpty

def enterJoint (c : Configuration) (new : ConfigMemberSet) : Configuration := ⟨new, c.current⟩

def leaveJoint (c : Configuration) : Configuration := { c with previous := .empty }

end Configuration

inductive EntryData where
  | command (c : Command)
  | configuration (c : Configuration)
  | dummy
  deriving DecidableEq

def EntryData.configuration? : EntryData → Option Configuration
  | configuration c => some c
  | command _ | dummy => none

structure LogEntry where
  term : ℕ
  idx : ℕ
  data : EntryData
  deriving DecidableEq

def LogEntry.isConf (e : LogEntry) : Bool := e.data.configuration?.isSome

structure SnapshotDescriptor where
  idx : ℕ
  term : ℕ
  config : Configuration
  id : ℕ
  deriving DecidableEq

structure Log where
  snapshot : SnapshotDescriptor
  entries : List LogEntry
  /-- The index of the first entry in memory, or of the next one if there are none. -/
  firstIdx : ℕ
  /-- The index of the last entry that is persisted. -/
  stableIdx : ℕ
  /-- The index of the last configuration after the snapshot, `0` if there is none. -/
  lastConfIdx : ℕ
  /-- The one before it; `0` if there is none or it is not known. -/
  prevConfIdx : ℕ
  deriving DecidableEq

namespace Log

def lastIdx (l : Log) : ℕ := l.entries.length + l.firstIdx - 1

def nextIdx (l : Log) : ℕ := l.lastIdx + 1

/-- `get_entry`, for indexes in the log. -/
def getEntry (l : Log) (i : ℕ) : Option LogEntry :=
  if l.firstIdx ≤ i then l.entries[i - l.firstIdx]? else none

def emplaceBack (l : Log) (e : LogEntry) : Log :=
  let l := { l with entries := l.entries ++ [e] }
  if e.isConf then { l with prevConfIdx := l.lastConfIdx, lastConfIdx := l.lastIdx } else l

def lastTerm (l : Log) : ℕ := (l.entries.getLast?.map LogEntry.term).getD l.snapshot.term

/-- `is_up_to_date`: whether a log that ends with this entry is at least as recent. -/
def isUpToDate (l : Log) (idx term : ℕ) : Bool :=
  l.lastTerm < term || (term = l.lastTerm && l.lastIdx ≤ idx)

def truncateUncommitted (l : Log) (i : ℕ) : Log :=
  let l := { l with entries := l.entries.take (i - l.firstIdx) }
  let l := { l with stableIdx := min l.stableIdx l.lastIdx }
  if l.lastIdx < l.lastConfIdx then { l with lastConfIdx := l.prevConfIdx, prevConfIdx := 0 } else l

/-- `init_last_conf_idx`: the last two configurations after the snapshot. -/
def initLastConfIdx (l : Log) : Log :=
  let confs := (l.entries.reverse.takeWhile (·.idx ≠ l.snapshot.idx)).filter LogEntry.isConf
  { l with
    lastConfIdx := (confs.map LogEntry.idx)[0]?.getD 0
    prevConfIdx := (confs.map LogEntry.idx)[1]?.getD 0 }

def stableTo (l : Log) (i : ℕ) : Log := { l with stableIdx := i }

/-- The log loaded from disk; entries after the snapshot must not be missing. -/
def load (snp : SnapshotDescriptor) (entries : List LogEntry) : Option Log :=
  let firstIdx := (entries.head?.map LogEntry.idx).getD (snp.idx + 1)
  if 0 < firstIdx && firstIdx ≤ snp.idx + 1 then
    let l : Log := ⟨snp, entries, firstIdx, 0, 0, 0⟩
    some (l.stableTo l.lastIdx).initLastConfIdx
  else none

def matchTerm (l : Log) (idx term : ℕ) : Bool :=
  if idx = 0 then true
  else if idx < l.snapshot.idx then true
  else if idx = l.snapshot.idx then l.snapshot.term = term
  else (l.getEntry idx).any (·.term = term)

def termFor (l : Log) (idx : ℕ) : Option ℕ :=
  if !l.entries.isEmpty && l.firstIdx ≤ idx then (l.getEntry idx).map LogEntry.term
  else if idx = l.snapshot.idx then some l.snapshot.term
  else none

/-- `last_conf_idx`. -/
def confIdx (l : Log) : ℕ := if l.lastConfIdx ≠ 0 then l.lastConfIdx else l.snapshot.idx

def confAt (l : Log) (i : ℕ) : Option Configuration :=
  (l.getEntry i).bind (·.data.configuration?)

def getConfiguration (l : Log) : Configuration :=
  if l.lastConfIdx ≠ 0 then (l.confAt l.lastConfIdx).getD l.snapshot.config else l.snapshot.config

def getPrevConfiguration (l : Log) : Option Configuration :=
  if l.prevConfIdx ≠ 0 then l.confAt l.prevConfIdx
  else if l.snapshot.idx < l.lastConfIdx then some l.snapshot.config
  else none

def maybeAppend : List LogEntry → Log → Option Log
  | [], l => some l
  | e :: es, l =>
    if e.idx ≤ l.lastIdx then
      if e.idx < l.firstIdx then maybeAppend es l
      else if (l.getEntry e.idx).map LogEntry.term = some e.term then maybeAppend es l
      else if l.snapshot.idx < e.idx then maybeAppend es ((l.truncateUncommitted e.idx).emplaceBack e)
      else none
    else if e.idx = l.nextIdx then maybeAppend es (l.emplaceBack e)
    else none

def entriesToRemove (usage : LogEntry → ℕ) (maxBytes : ℕ) : ℕ → ℕ → List LogEntry → ℕ
  | 0, _, l => l.length
  | _ + 1, _, [] => 0
  | n + 1, bytes, e :: l =>
    if maxBytes < bytes + usage e then l.length + 1
    else entriesToRemove usage maxBytes n (bytes + usage e) l

/-- The entries that stay after a snapshot: none of a log that ends before it. -/
def dropCovered (usage : LogEntry → ℕ) (l : Log) (idx maxTrailingEntries maxTrailingBytes : ℕ) :
    Log :=
  if l.lastIdx < idx then { l with entries := [], firstIdx := idx + 1 }
  else
    let covered := l.entries.take (l.entries.length - (l.lastIdx - idx))
    let n := entriesToRemove usage maxTrailingBytes maxTrailingEntries 0 covered.reverse
    { l with entries := l.entries.drop n, firstIdx := l.firstIdx + n }

/-- `apply_snapshot`, for a snapshot with a greater index than the current one. -/
def applySnapshot (usage : LogEntry → ℕ) (l : Log) (snp : SnapshotDescriptor)
    (maxTrailingEntries maxTrailingBytes : ℕ) : Log :=
  { l.dropCovered usage snp.idx maxTrailingEntries maxTrailingBytes with
    stableIdx := max snp.idx l.stableIdx
    lastConfIdx := if l.prevConfIdx ≤ snp.idx && l.lastConfIdx ≤ snp.idx then 0 else l.lastConfIdx
    prevConfIdx := if l.prevConfIdx ≤ snp.idx then 0 else l.prevConfIdx
    snapshot := snp }

/-! ## Valid logs -/

structure Valid (l : Log) : Prop where
  idx_eq : ∀ n e, l.entries[n]? = some e → e.idx = l.firstIdx + n
  firstIdx_pos : 0 < l.firstIdx
  firstIdx_le : l.firstIdx ≤ l.snapshot.idx + 1
  snapshot_le : l.snapshot.idx ≤ l.stableIdx
  stable_le : l.stableIdx ≤ l.lastIdx

variable {l : Log}

theorem nextIdx_eq (h : 0 < l.firstIdx) : l.nextIdx = l.firstIdx + l.entries.length := by
  unfold nextIdx lastIdx
  omega

variable {e : LogEntry}

theorem le_of_getEntry {i : ℕ} (h : l.getEntry i = some e) :
    l.firstIdx ≤ i ∧ i ≤ l.lastIdx := by
  obtain ⟨hi, he⟩ := Option.ite_none_right_eq_some.mp h
  have hlt := (List.getElem?_eq_some_iff.mp he).1
  unfold lastIdx
  omega

namespace Valid

theorem mem_idx (h : l.Valid) (he : e ∈ l.entries) :
    l.firstIdx ≤ e.idx ∧ e.idx ≤ l.lastIdx := by
  obtain ⟨n, hn, rfl⟩ := List.mem_iff_getElem.mp he
  have hidx := h.idx_eq n _ (List.getElem?_eq_getElem hn)
  unfold lastIdx
  omega

theorem getEntry_idx (h : l.Valid) {i : ℕ} (he : l.getEntry i = some e) : e.idx = i := by
  obtain ⟨hi, he⟩ := Option.ite_none_right_eq_some.mp he
  have hidx := h.idx_eq _ _ he
  omega

theorem exists_entry (h : l.Valid) {i : ℕ} (hi : l.firstIdx ≤ i) (hi' : i ≤ l.lastIdx) :
    ∃ e, l.getEntry i = some e := by
  have hpos := h.firstIdx_pos
  have hlt : i - l.firstIdx < l.entries.length := by
    unfold lastIdx at hi'
    omega
  exact ⟨_, (if_pos hi).trans (List.getElem?_eq_getElem hlt)⟩

end Valid

end Log

end Scylla.Raft
