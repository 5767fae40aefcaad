import Scylla.Mutation.RangeTombstoneOrder

/-!
# Undoing insertions of range tombstones

Ranges are inserted into a list through a reverter, which logs how to undo each operation. The log
refers to entries of the list, not to their values; an entry is found again by its end bound.
Undoing the log backwards restores the list, whenever the insertion was interrupted, because every
intermediate list is sorted.
-/

namespace Scylla.Mutation

open List

namespace RangeTombstone

variable {P : Type*} [LinearOrder P]

/-- `range_tombstone_entry`: an object with an identity. -/
structure Entry (P : Type*) where
  /-- The address of the entry. -/
  id : ℕ
  rt : RangeTombstone P
  deriving DecidableEq

/-- `insert_undo_op`, `erase_undo_op` and `update_undo_op`. -/
inductive UndoOp (P : Type*) where
  /-- A reference to the inserted entry. -/
  | insert (newRt : ℕ)
  /-- The erased entry itself. -/
  | erase (rt : Entry P)
  /-- The old value and a reference to the updated entry. -/
  | update (oldRt : RangeTombstone P) (newRt : ℕ)
  deriving DecidableEq

def deref (l : List (Entry P)) (id : ℕ) : Option (RangeTombstone P) :=
  (l.find? (·.id = id)).map Entry.rt

/-- `find`: by the end bound, and only if the entry has the same value. -/
def findEntry (l : List (Entry P)) (rt : RangeTombstone P) : Option (Entry P) :=
  (l.find? (·.rt.endPosition = rt.endPosition)).filter (·.rt = rt)

def linkEntry (e : Entry P) : List (Entry P) → List (Entry P)
  | [] => [e]
  | x :: l =>
    if e.rt.position < x.rt.position then e :: x :: l
    else if x.rt.position < e.rt.position then x :: linkEntry e l
    else x :: l

/-- `undo`; no value if an assertion fails because the entry is not found. -/
def UndoOp.undo (l : List (Entry P)) : UndoOp P → Option (List (Entry P))
  | .insert newRt =>
    ((deref l newRt).bind (findEntry l)).map fun it => l.filter (·.id ≠ it.id)
  | .erase rt => some (linkEntry rt l)
  | .update oldRt newRt =>
    ((deref l newRt).bind (findEntry l)).map fun it =>
      l.map fun e => if e.id = it.id then { e with rt := oldRt } else e

/-- `reverter`, with the list it changes. -/
structure Reverter (P : Type*) where
  dst : List (Entry P)
  /-- The log, the last operation first. -/
  ops : List (UndoOp P)
  /-- The address of the next entry that is allocated. -/
  next : ℕ
  deriving DecidableEq

namespace Reverter

def revert (r : Reverter P) : Option (List (Entry P)) := r.ops.foldlM UndoOp.undo r.dst

/-- `insert`, of a new entry at an iterator that splits the list. -/
def insert (r : Reverter P) (before after : List (Entry P)) (rt : RangeTombstone P) :
    Reverter P where
  dst := before ++ ⟨r.next, rt⟩ :: after
  ops := .insert r.next :: r.ops
  next := r.next + 1

/-- `erase`, of the entry between two parts of the list. -/
def erase (r : Reverter P) (before : List (Entry P)) (it : Entry P) (after : List (Entry P)) :
    Reverter P where
  dst := before ++ after
  ops := .erase it :: r.ops
  next := r.next

/-- `update`, of the entry between two parts of the list. -/
def update (r : Reverter P) (before : List (Entry P)) (it : Entry P) (after : List (Entry P))
    (rt : RangeTombstone P) : Reverter P where
  dst := before ++ { it with rt } :: after
  ops := .update it.rt it.id :: r.ops
  next := r.next

def overwrite (start stop : P) (tomb : Tombstone) (r : Reverter P) (before : List (Entry P))
    (it : Entry P) (rest : List (Entry P)) (loop : Reverter P → List (Reverter P)) :
    List (Reverter P) :=
  if stop < it.rt.endPosition then
    let rt : RangeTombstone P := ⟨stop, it.rt.endPosition, it.rt.tomb⟩
    let r₁ := r.update before it rest rt
    [r₁, r₁.insert before ({ it with rt } :: rest) ⟨start, stop, tomb⟩]
  else
    let r₁ := r.erase before it rest
    r₁ :: loop r₁

def insertLoop (start stop : P) (tomb : Tombstone) (r : Reverter P) (before : List (Entry P)) :
    List (Entry P) → List (Reverter P)
  | [] => [r.insert before [] ⟨start, stop, tomb⟩]
  | it :: rest =>
    if stop ≤ start then []
    else if stop < it.rt.position then [r.insert before (it :: rest) ⟨start, stop, tomb⟩]
    else if tomb = it.rt.tomb then
      let r₁ := r.erase before it rest
      r₁ :: insertLoop (min start it.rt.position) (max stop it.rt.endPosition) tomb r₁ before rest
    else if it.rt.tomb < tomb then
      if it.rt.position < start then
        -- the part of the entry before the new range becomes an entry of its own
        let rt : RangeTombstone P := ⟨start, it.rt.endPosition, it.rt.tomb⟩
        let piece : RangeTombstone P := ⟨it.rt.position, start, it.rt.tomb⟩
        let r₁ := r.update before it rest rt
        let r₂ := r₁.insert before ({ it with rt } :: rest) piece
        let before₂ := before ++ [⟨r₁.next, piece⟩]
        r₁ :: r₂ :: overwrite start stop tomb r₂ before₂ { it with rt } rest fun r₃ =>
          insertLoop start stop tomb r₃ before₂ rest
      else
        overwrite start stop tomb r before it rest fun r₁ =>
          insertLoop start stop tomb r₁ before rest
    else if start < it.rt.position then
      if it.rt.position < stop then
        let piece : RangeTombstone P := ⟨start, it.rt.position, tomb⟩
        let r₁ := r.insert before (it :: rest) piece
        r₁ :: if it.rt.endPosition < stop then
          insertLoop it.rt.endPosition stop tomb r₁ (before ++ [⟨r.next, piece⟩] ++ [it]) rest
        else []
      else [r.insert before (it :: rest) ⟨start, stop, tomb⟩]
    else if it.rt.endPosition < stop then
      insertLoop it.rt.endPosition stop tomb r (before ++ [it]) rest
    else []

def insertFrom (start stop : P) (tomb : Tombstone) (r : Reverter P)
    (before after : List (Entry P)) : List (Reverter P) :=
  match before.getLast? with
  | some prev =>
    if prev.rt.tomb = tomb ∧ prev.rt.endPosition = start then
      let r₁ := r.erase before.dropLast prev after
      r₁ :: insertLoop prev.rt.position stop tomb r₁ before.dropLast after
    else insertLoop start stop tomb r before after
  | none => insertLoop start stop tomb r before after

/-- `apply_reversibly` of one range: the states after each operation of the reverter. -/
def applyReversibly (r : Reverter P) (rt : RangeTombstone P) : List (Reverter P) :=
  if rt.position < rt.endPosition then
    insertFrom rt.position rt.endPosition rt.tomb r
      (r.dst.takeWhile fun x => x.rt.endPosition ≤ rt.position)
      (r.dst.dropWhile fun x => x.rt.endPosition ≤ rt.position)
  else []

/-- The ranges are applied one after the other through one reverter: all states on the way. -/
def applyAll (r : Reverter P) : List (RangeTombstone P) → List (Reverter P)
  | [] => [r]
  | rt :: rts =>
    r :: (r.applyReversibly rt ++ applyAll ((r.applyReversibly rt).getLastD r) rts)

end Reverter

/-! ## One operation -/

section Middle

variable {before after : List (Entry P)} {e : Entry P}

theorem sorted_middle :
    Sorted ((before ++ e :: after).map Entry.rt) ↔
      Sorted ((before ++ after).map Entry.rt) ∧ e.rt.position < e.rt.endPosition ∧
        (∀ x ∈ before, x.rt.endPosition ≤ e.rt.position) ∧
        ∀ y ∈ after, e.rt.endPosition ≤ y.rt.position := by
  simp only [sorted_iff_laid, map_append, map_cons, laid_append, laid_cons, Spaced,
    false_imp_iff, and_true, forall_mem_map, forall_mem_cons, forall_and]
  tauto

section

omit [LinearOrder P]

theorem nodup_middle (h : ((before ++ e :: after).map Entry.id).Nodup) :
    (∀ x ∈ before, x.id ≠ e.id) ∧ ∀ y ∈ after, y.id ≠ e.id := by
  rw [map_append, map_cons, nodup_append, nodup_cons] at h
  refine ⟨fun x hx => h.2.2 _ (mem_map_of_mem hx) _ mem_cons_self, fun y hy heq => ?_⟩
  exact h.2.1.1 (heq ▸ mem_map_of_mem hy)

theorem deref_middle (h : ((before ++ e :: after).map Entry.id).Nodup) :
    deref (before ++ e :: after) e.id = some e.rt := by
  have hnone : before.find? (·.id = e.id) = none :=
    find?_eq_none.mpr fun x hx => by simpa using (nodup_middle h).1 x hx
  rw [deref, find?_append, hnone, Option.none_or, find?_cons_of_pos (by simp)]
  rfl

end

theorem findEntry_middle (h : Sorted ((before ++ e :: after).map Entry.rt)) :
    findEntry (before ++ e :: after) e.rt = some e := by
  obtain ⟨-, hlt, hbefore, -⟩ := sorted_middle.mp h
  have hnone : before.find? (·.rt.endPosition = e.rt.endPosition) = none :=
    find?_eq_none.mpr fun x hx => by simpa using ((hbefore x hx).trans_lt hlt).ne
  rw [findEntry, find?_append, hnone, Option.none_or, find?_cons_of_pos (by simp),
    Option.filter_some, if_pos (by simp)]

section

omit [LinearOrder P]

theorem filter_middle (h : ((before ++ e :: after).map Entry.id).Nodup) :
    (before ++ e :: after).filter (·.id ≠ e.id) = before ++ after := by
  obtain ⟨hbefore, hafter⟩ := nodup_middle h
  rw [filter_append, filter_cons_of_neg (by simp), filter_eq_self.mpr,
    filter_eq_self.mpr]
  · exact fun y hy => by simpa using hafter y hy
  · exact fun x hx => by simpa using hbefore x hx

theorem map_middle (h : ((before ++ e :: after).map Entry.id).Nodup) (rt : RangeTombstone P) :
    (before ++ e :: after).map (fun x => if x.id = e.id then { x with rt } else x) =
      before ++ { e with rt } :: after := by
  obtain ⟨hbefore, hafter⟩ := nodup_middle h
  have hsame (l : List (Entry P)) (hl : ∀ x ∈ l, x.id ≠ e.id) :
      l.map (fun x => if x.id = e.id then { x with rt } else x) = l := by
    conv_rhs => rw [← map_id l]
    exact map_congr_left fun x hx => if_neg (hl x hx)
  rw [map_append, map_cons, hsame before hbefore, hsame after hafter, if_pos rfl]

end

theorem linkEntry_middle (h : Sorted ((before ++ e :: after).map Entry.rt)) :
    linkEntry e (before ++ after) = before ++ e :: after := by
  obtain ⟨hsorted, hlt, hbefore, hafter⟩ := sorted_middle.mp h
  induction before with
  | nil =>
    cases after with
    | nil => rfl
    | cons y after => exact if_pos (hlt.trans_le (hafter y mem_cons_self))
  | cons x before ih =>
    have hne : x.rt.position < x.rt.endPosition := hsorted.nonempty x.rt (by simp)
    have hx : x.rt.position < e.rt.position := hne.trans_le (hbefore x mem_cons_self)
    have hrest : Sorted ((before ++ e :: after).map Entry.rt) := h.of_cons
    rw [cons_append, linkEntry, if_neg hx.not_gt, if_pos hx,
      ih hrest hsorted.of_cons fun y hy => hbefore y (mem_cons_of_mem x hy)]
    rfl

section

variable (hsorted : Sorted ((before ++ e :: after).map Entry.rt))
  (hnodup : ((before ++ e :: after).map Entry.id).Nodup)

include hsorted hnodup

theorem undo_insert :
    (UndoOp.insert e.id).undo (before ++ e :: after) = some (before ++ after) := by
  rw [UndoOp.undo, deref_middle hnodup, Option.bind_some, findEntry_middle hsorted, Option.map_some,
    filter_middle hnodup]

theorem undo_update (oldRt : RangeTombstone P) :
    (UndoOp.update oldRt e.id).undo (before ++ e :: after) =
      some (before ++ { e with rt := oldRt } :: after) := by
  rw [UndoOp.undo, deref_middle hnodup, Option.bind_some, findEntry_middle hsorted, Option.map_some,
    map_middle hnodup]

end

end Middle

/-! ## Every state on the way -/

/-- The list is sorted, addresses are not repeated, and undoing the log gives `l₀`. -/
structure Undoable (l₀ : List (Entry P)) (r : Reverter P) : Prop where
  sorted : Sorted (r.dst.map Entry.rt)
  nodup : (r.dst.map Entry.id).Nodup
  fresh : ∀ e ∈ r.dst, e.id < r.next
  revert_eq : r.revert = some l₀

variable {loop : Reverter P → List (Reverter P)}

namespace Undoable

variable {l₀ before after : List (Entry P)} {r : Reverter P} {it : Entry P} {rt : RangeTombstone P}

theorem insert (h : Undoable l₀ r) (hdst : r.dst = before ++ after)
    (hlt : rt.position < rt.endPosition) (hbefore : ∀ x ∈ before, x.rt.endPosition ≤ rt.position)
    (hafter : ∀ y ∈ after, rt.endPosition ≤ y.rt.position) :
    Undoable l₀ (r.insert before after rt) := by
  have hsorted : Sorted ((before ++ (⟨r.next, rt⟩ : Entry P) :: after).map Entry.rt) :=
    sorted_middle.mpr ⟨hdst ▸ h.sorted, hlt, hbefore, hafter⟩
  have hnodup : ((before ++ (⟨r.next, rt⟩ : Entry P) :: after).map Entry.id).Nodup := by
    have hold := h.nodup
    rw [hdst, map_append] at hold
    rw [map_append, map_cons, List.nodup_middle, nodup_cons]
    refine ⟨fun hmem => ?_, hold⟩
    rw [← map_append, ← hdst] at hmem
    obtain ⟨x, hx, hid⟩ := mem_map.mp hmem
    exact (h.fresh x hx).ne hid
  refine ⟨hsorted, hnodup, fun e he => ?_, ?_⟩
  · rcases mem_append.mp he with he | he
    · exact (h.fresh e (hdst ▸ mem_append_left _ he)).trans (Nat.lt_succ_self _)
    · rcases mem_cons.mp he with rfl | he
      · exact Nat.lt_succ_self _
      · exact (h.fresh e (hdst ▸ mem_append_right _ he)).trans (Nat.lt_succ_self _)
  · have hundo := undo_insert hsorted hnodup
    rw [← hdst] at hundo
    rw [Reverter.revert, Reverter.insert, foldlM_cons, hundo]
    exact h.revert_eq

theorem erase (h : Undoable l₀ r) (hdst : r.dst = before ++ it :: after) :
    Undoable l₀ (r.erase before it after) := by
  have hsorted : Sorted ((before ++ it :: after).map Entry.rt) := hdst ▸ h.sorted
  have hsub : (before ++ after).Sublist (before ++ it :: after) :=
    (Sublist.refl before).append (sublist_cons_self it after)
  refine ⟨(sorted_middle.mp hsorted).1, ?_, fun e he => ?_, ?_⟩
  · exact (hdst ▸ h.nodup).sublist (hsub.map _)
  · exact h.fresh e (hdst ▸ hsub.subset he)
  · have hlink := linkEntry_middle hsorted
    rw [← hdst] at hlink
    rw [Reverter.revert, Reverter.erase, foldlM_cons, UndoOp.undo, hlink]
    exact h.revert_eq

theorem update (h : Undoable l₀ r) (hdst : r.dst = before ++ it :: after)
    (hlt : rt.position < rt.endPosition) (hstart : it.rt.position ≤ rt.position)
    (hend : rt.endPosition ≤ it.rt.endPosition) : Undoable l₀ (r.update before it after rt) := by
  obtain ⟨hrest, -, hbefore, hafter⟩ := sorted_middle.mp (hdst ▸ h.sorted)
  have hsorted : Sorted ((before ++ { it with rt } :: after).map Entry.rt) :=
    sorted_middle.mpr ⟨hrest, hlt, fun x hx => (hbefore x hx).trans hstart,
      fun y hy => hend.trans (hafter y hy)⟩
  have hids : (before ++ { it with rt } :: after).map Entry.id =
      (before ++ it :: after).map Entry.id := by simp
  have hnodup : ((before ++ { it with rt } :: after).map Entry.id).Nodup :=
    hids ▸ hdst ▸ h.nodup
  refine ⟨hsorted, hnodup, fun e he => ?_, ?_⟩
  · have hmem : e.id ∈ r.dst.map Entry.id := by
      rw [hdst, ← hids]
      exact mem_map_of_mem he
    obtain ⟨x, hx, hid⟩ := mem_map.mp hmem
    exact hid ▸ h.fresh x hx
  · have hundo := undo_update hsorted hnodup it.rt
    rw [Reverter.revert, Reverter.update, foldlM_cons, hundo]
    exact hdst ▸ h.revert_eq

variable {start stop : P} {tomb : Tombstone}

section

variable (h : Undoable l₀ r)

include h

theorem overwrite (hdst : r.dst = before ++ it :: after) (hlt : start < stop)
    (hbefore : ∀ x ∈ before, x.rt.endPosition ≤ start) (hstop : it.rt.position ≤ stop)
    (hloop : ∀ r', Undoable l₀ r' → r'.dst = before ++ after → ∀ s ∈ loop r', Undoable l₀ s) :
    ∀ s ∈ Reverter.overwrite start stop tomb r before it after loop, Undoable l₀ s := by
  obtain ⟨-, -, -, hafter⟩ := sorted_middle.mp (hdst ▸ h.sorted)
  unfold Reverter.overwrite
  split
  next hlt' =>
    have hupdate : Undoable l₀ (r.update before it after ⟨stop, it.rt.endPosition, it.rt.tomb⟩) :=
      h.update hdst hlt' hstop le_rfl
    refine forall_mem_cons.mpr ⟨hupdate, forall_mem_singleton.mpr ?_⟩
    refine hupdate.insert rfl hlt hbefore (forall_mem_cons.mpr ⟨le_rfl, fun y hy => ?_⟩)
    exact hlt'.le.trans (hafter y hy)
  next => exact forall_mem_cons.mpr ⟨h.erase hdst, hloop _ (h.erase hdst) rfl⟩

section

variable (hdst : r.dst = before ++ after) (hlt : start < stop)
  (hbefore : ∀ x ∈ before, x.rt.endPosition ≤ start)
  (hhead : ∀ x ∈ after.head?, start < x.rt.endPosition)

include hdst hlt hbefore hhead

theorem insertLoop :
    ∀ s ∈ Reverter.insertLoop start stop tomb r before after, Undoable l₀ s := by
  induction after generalizing r before start stop with
  | nil =>
    exact forall_mem_singleton.mpr (h.insert hdst hlt hbefore fun y hy => nomatch hy)
  | cons it rest ih =>
    obtain ⟨-, hne, hbeforeIt, hrest⟩ := sorted_middle.mp (hdst ▸ h.sorted)
    have hit : start < it.rt.endPosition := hhead it rfl
    have hafter (q : P) (hq : q ≤ it.rt.position) : ∀ y ∈ it :: rest, q ≤ y.rt.position := by
      refine forall_mem_cons.mpr ⟨hq, fun y hy => ?_⟩
      exact hq.trans (hne.le.trans (hrest y hy))
    -- the ends of a sorted list increase
    have hnext (x : Entry P) (hx : x ∈ rest.head?) : it.rt.endPosition < x.rt.endPosition := by
      have hmem := mem_of_mem_head? hx
      have hx' : x.rt.position < x.rt.endPosition :=
        h.sorted.nonempty x.rt (mem_map_of_mem (by simp [hdst, hmem]))
      exact (hrest x hmem).trans_lt hx'
    rw [Reverter.insertLoop, if_neg hlt.not_ge]
    split
    next h1 =>
      exact forall_mem_singleton.mpr (h.insert hdst hlt hbefore (hafter stop h1.le))
    next h1 =>
      rw [not_lt] at h1
      split
      next h2 =>
        refine forall_mem_cons.mpr ⟨h.erase hdst, ih (h.erase hdst) rfl ?_
          (fun x hx => le_min (hbefore x hx) (hbeforeIt x hx)) fun x hx => ?_⟩
        · exact (min_le_left _ _).trans_lt (hlt.trans_le (le_max_left _ _))
        · exact (min_le_left _ _).trans_lt (hit.trans (hnext x hx))
      next h2 =>
        split
        next h3 =>
          have hhead' (x : Entry P) (hx : x ∈ rest.head?) : start < x.rt.endPosition :=
            hit.trans (hnext x hx)
          split
          next h4 =>
            have hupdate : Undoable l₀
                (r.update before it rest ⟨start, it.rt.endPosition, it.rt.tomb⟩) :=
              h.update hdst hit h4.le le_rfl
            have hinsert : Undoable l₀
                ((r.update before it rest ⟨start, it.rt.endPosition, it.rt.tomb⟩).insert before
                  ({ it with rt := ⟨start, it.rt.endPosition, it.rt.tomb⟩ } :: rest)
                  ⟨it.rt.position, start, it.rt.tomb⟩) := by
              refine hupdate.insert rfl h4 hbeforeIt (forall_mem_cons.mpr ⟨le_rfl, ?_⟩)
              exact fun y hy => hit.le.trans (hrest y hy)
            have hbefore' : ∀ x ∈ before ++
                [(⟨r.next, ⟨it.rt.position, start, it.rt.tomb⟩⟩ : Entry P)],
                x.rt.endPosition ≤ start :=
              forall_mem_append.mpr ⟨hbefore, forall_mem_singleton.mpr le_rfl⟩
            refine forall_mem_cons.mpr ⟨hupdate, forall_mem_cons.mpr ⟨hinsert, ?_⟩⟩
            exact hinsert.overwrite (append_cons _ _ _) hlt hbefore' hlt.le
              fun r' hr' hdst' => ih hr' hdst' hlt hbefore' hhead'
          next =>
            exact h.overwrite hdst hlt hbefore h1
              fun r' hr' hdst' => ih hr' hdst' hlt hbefore hhead'
        next h3 =>
          have hpass {r' : Reverter P} {before' : List (Entry P)} (hr' : Undoable l₀ r')
              (hdst' : r'.dst = before' ++ it :: rest)
              (hbefore' : ∀ x ∈ before', x.rt.endPosition ≤ it.rt.position)
              (h6 : it.rt.endPosition < stop) :
              ∀ s ∈ Reverter.insertLoop it.rt.endPosition stop tomb r' (before' ++ [it]) rest,
                Undoable l₀ s := by
            refine ih hr' (hdst'.trans (append_cons _ _ _)) h6 (forall_mem_append.mpr
              ⟨fun x hx => (hbefore' x hx).trans hne.le, forall_mem_singleton.mpr le_rfl⟩) hnext
          split
          next h5 =>
            split
            next h6 =>
              have hinsert : Undoable l₀
                  (r.insert before (it :: rest) ⟨start, it.rt.position, tomb⟩) :=
                h.insert hdst h5 hbefore (hafter _ le_rfl)
              refine forall_mem_cons.mpr ⟨hinsert, ?_⟩
              split
              next h7 =>
                exact hpass hinsert (append_cons _ _ _) (forall_mem_append.mpr
                  ⟨fun x hx => (hbefore x hx).trans h5.le, forall_mem_singleton.mpr le_rfl⟩) h7
              next => exact fun s hs => nomatch hs
            next h6 =>
              exact forall_mem_singleton.mpr
                (h.insert hdst hlt hbefore (hafter stop (not_lt.mp h6)))
          next h5 =>
            split
            next h7 => exact hpass h hdst hbeforeIt h7
            next => exact fun s hs => nomatch hs

theorem insertFrom :
    ∀ s ∈ Reverter.insertFrom start stop tomb r before after, Undoable l₀ s := by
  unfold Reverter.insertFrom
  rcases eq_nil_or_concat' before with rfl | ⟨init, prev, rfl⟩
  · exact h.insertLoop hdst hlt hbefore hhead
  · rw [getLast?_concat, dropLast_concat]
    dsimp only
    split
    · have hdst' : r.dst = init ++ prev :: after := hdst.trans (append_cons _ _ _).symm
      obtain ⟨-, hne, hinit, -⟩ := sorted_middle.mp (hdst' ▸ h.sorted)
      have hstart : prev.rt.position < start := hne.trans_le (hbefore prev (by simp))
      exact forall_mem_cons.mpr ⟨h.erase hdst', (h.erase hdst').insertLoop rfl
        (hstart.trans hlt) hinit fun x hx => hstart.trans (hhead x hx)⟩
    · exact h.insertLoop hdst hlt hbefore hhead

end

theorem applyReversibly (rt : RangeTombstone P) : ∀ s ∈ r.applyReversibly rt, Undoable l₀ s := by
  unfold Reverter.applyReversibly
  split
  next hlt =>
    refine h.insertFrom takeWhile_append_dropWhile.symm hlt (fun x hx => ?_) fun x hx => ?_
    · simpa using mem_takeWhile_imp hx
    · have hhead :=
        head?_dropWhile_not (fun x : Entry P => x.rt.endPosition ≤ rt.position) r.dst
      rw [hx] at hhead
      simpa using hhead
  next => exact fun s hs => nomatch hs

theorem applyAll (rts : List (RangeTombstone P)) : ∀ s ∈ r.applyAll rts, Undoable l₀ s := by
  induction rts generalizing r with
  | nil => exact forall_mem_singleton.mpr h
  | cons rt rts ih =>
    have hlast : Undoable l₀ ((r.applyReversibly rt).getLastD r) := by
      rcases eq_nil_or_concat' (r.applyReversibly rt) with hnil | ⟨init, r', hinit⟩
      · rw [hnil]
        exact h
      · rw [hinit, getLastD_concat]
        exact h.applyReversibly rt r' (by simp [hinit])
    exact forall_mem_cons.mpr
      ⟨h, forall_mem_append.mpr ⟨h.applyReversibly rt, ih hlast⟩⟩

end

end Undoable

/-! ## The result of an insertion that is not interrupted -/

namespace Reverter

variable {start stop : P} {tomb : Tombstone} {r : Reverter P} {before after : List (Entry P)}
  {it : Entry P}

theorem map_rt_overwrite {result : List (RangeTombstone P)}
    (hloop : ∀ r' : Reverter P, r'.dst = before ++ after →
      ((loop r').getLastD r').dst.map Entry.rt = before.map Entry.rt ++ result) :
    ((overwrite start stop tomb r before it after loop).getLastD r).dst.map Entry.rt =
      before.map Entry.rt ++ if stop < it.rt.endPosition then
        ⟨start, stop, tomb⟩ :: ⟨stop, it.rt.endPosition, it.rt.tomb⟩ :: after.map Entry.rt
      else result := by
  unfold overwrite
  split
  · simp [insert]
  · rw [getLastD_cons]
    exact hloop _ rfl

theorem map_rt_insertLoop (hdst : r.dst = before ++ after) :
    ((insertLoop start stop tomb r before after).getLastD r).dst.map Entry.rt =
      before.map Entry.rt ++ RangeTombstone.insertLoop start stop tomb (after.map Entry.rt) := by
  induction after generalizing r before start stop with
  | nil => simp [insertLoop, RangeTombstone.insertLoop, insert]
  | cons it rest ih =>
    rw [insertLoop, map_cons, RangeTombstone.insertLoop]
    split
    · simp [hdst]
    split
    · simp [insert]
    split
    · rw [getLastD_cons]
      exact ih rfl
    split
    · split
      next h4 =>
        rw [getLastD_cons, getLastD_cons, map_rt_overwrite fun r' hr' => ih hr', piece, if_pos h4]
        split <;> simp
      next h4 =>
        rw [map_rt_overwrite fun r' hr' => ih hr', piece, if_neg h4]
        split <;> rfl
    · split
      next h5 =>
        split
        next h6 =>
          have hnot : ¬ (start < it.rt.position ∧ stop ≤ it.rt.position) := fun h => h.2.not_gt h6
          rw [if_neg hnot, piece, if_pos h5, getLastD_cons]
          split
          · rw [ih (append_cons _ _ _ ▸ append_cons _ _ _)]
            simp
          · simp [insert]
        next h6 =>
          rw [if_pos ⟨h5, not_lt.mp h6⟩]
          simp [insert]
      next h5 =>
        have hnot : ¬ (start < it.rt.position ∧ stop ≤ it.rt.position) := fun h => h5 h.1
        rw [if_neg hnot, piece, if_neg h5]
        split
        · rw [ih (hdst.trans (append_cons _ _ _))]
          simp
        · simp [hdst]

theorem map_rt_insertFrom (hdst : r.dst = before ++ after) :
    ((insertFrom start stop tomb r before after).getLastD r).dst.map Entry.rt =
      RangeTombstone.insertFrom (before.map Entry.rt) (after.map Entry.rt) start stop tomb := by
  unfold insertFrom RangeTombstone.insertFrom
  rcases eq_nil_or_concat' before with rfl | ⟨init, prev, rfl⟩
  · exact map_rt_insertLoop hdst
  · rw [map_append, map_singleton, getLast?_concat, getLast?_concat,
      dropLast_concat, dropLast_concat]
    dsimp only
    split
    · rw [getLastD_cons, map_rt_insertLoop rfl]
    · rw [map_rt_insertLoop hdst, map_append, map_singleton]

theorem map_rt_applyReversibly (r : Reverter P) (rt : RangeTombstone P) :
    ((r.applyReversibly rt).getLastD r).dst.map Entry.rt =
      applyRange (r.dst.map Entry.rt) rt := by
  unfold applyReversibly applyRange
  split
  · rw [map_rt_insertFrom takeWhile_append_dropWhile.symm, takeWhile_map, dropWhile_map]
    rfl
  · rfl

theorem exists_applyAll_eq (r : Reverter P) (rts : List (RangeTombstone P)) :
    ∃ init last, r.applyAll rts = init ++ [last] := by
  rcases eq_nil_or_concat' (r.applyAll rts) with hnil | hconcat
  · cases rts <;> cases hnil
  · exact hconcat

/-- Applying reversibly gives the same list. -/
theorem map_rt_applyAll (r : Reverter P) (rts : List (RangeTombstone P)) :
    ((r.applyAll rts).getLastD r).dst.map Entry.rt = rts.foldl applyRange (r.dst.map Entry.rt) := by
  induction rts generalizing r with
  | nil => rfl
  | cons rt rts ih =>
    obtain ⟨init, last, hlast⟩ := exists_applyAll_eq ((r.applyReversibly rt).getLastD r) rts
    rw [applyAll, getLastD_cons, foldl_cons, ← map_rt_applyReversibly, ← ih, hlast,
      ← append_assoc, getLastD_concat, getLastD_concat]

end Reverter

def entriesOf (l : List (RangeTombstone P)) : List (Entry P) :=
  l.mapIdx fun i rt => ⟨i, rt⟩

def Reverter.start (l : List (RangeTombstone P)) : Reverter P := ⟨entriesOf l, [], l.length⟩

section

omit [LinearOrder P]

theorem map_rt_entriesOf (l : List (RangeTombstone P)) : (entriesOf l).map Entry.rt = l := by
  refine ext_getElem (by simp [entriesOf]) fun i _ _ => ?_
  simp [entriesOf]

theorem map_id_entriesOf (l : List (RangeTombstone P)) :
    (entriesOf l).map Entry.id = range l.length := by
  refine ext_getElem (by simp [entriesOf]) fun i _ _ => ?_
  simp [entriesOf]

end

theorem undoable_start {l : List (RangeTombstone P)} (hl : Sorted l) :
    Undoable (entriesOf l) (Reverter.start l) := by
  refine ⟨(map_rt_entriesOf l).symm ▸ hl, (map_id_entriesOf l).symm ▸ nodup_range,
    fun e he => ?_, rfl⟩
  have hid : e.id ∈ (entriesOf l).map Entry.id := mem_map_of_mem he
  rw [map_id_entriesOf] at hid
  exact mem_range.mp hid

/-- Whenever inserting ranges through one reverter is interrupted, undoing finds every entry and
restores the list. -/
theorem revert_applyAll {l : List (RangeTombstone P)} (hl : Sorted l)
    (rts : List (RangeTombstone P)) (s : Reverter P) (hs : s ∈ (Reverter.start l).applyAll rts) :
    s.revert = some (entriesOf l) :=
  ((undoable_start hl).applyAll rts s hs).revert_eq

def overwrites : List (RangeTombstone ℕ) :=
  [⟨5, 7, tombstoneAt 2 (by decide)⟩, ⟨3, 15, tombstoneAt 3 (by decide)⟩]

theorem revert_applyAll_unjoined :
    Sorted unjoined ∧ ((Reverter.start unjoined).applyAll overwrites).length = 14 ∧
      ∀ s ∈ (Reverter.start unjoined).applyAll overwrites, s.revert = some (entriesOf unjoined) :=
  ⟨sorted_unjoined, by decide, revert_applyAll sorted_unjoined overwrites⟩

end RangeTombstone

end Scylla.Mutation
