import Scylla.View.Builder

/-!
# What batches lose

When a batch was full after a turn that handled a fragment of one stream only, the fragment of the
other stream that was read but not handled is gone. And a view that has written a partition
tombstone leaves out the row deletions it covers, which is forgotten in the next batch. Batches
return what one call without a bound returns exactly when neither happens.
-/

namespace Scylla.View

open List
open Mutation
open Builder
open Option
open Nat
open Bool

variable {s : Schema} {PK P W ι : Type*}

/-! ## The turns as a merge of two lists -/

namespace Turn

def restUpdates {α : Type*} : Turn → List α → List α
  | existings, l => l
  | updates, l | all, l => l.tail

def restExistings {α : Type*} : Turn → List α → List α
  | updates, l => l
  | existings, l | all, l => l.tail

end Turn

/-- The turns made on the remaining fragments of the two streams, without a bound. -/
inductive Trace [LinearOrder P] (cfg : Config s PK P W ι) (key : PK) :
    Tombstones → List (Fragment s P) → List (Fragment s P) → List (Handled s P) → Prop
  | stop {t : Tombstones} {us es : List (Fragment s P)} :
      cfg.handling key t us.head? es.head? = none → Trace cfg key t us es []
  | step {t : Tombstones} {us es : List (Fragment s P)} {h : Handling s P}
      {hs : List (Handled s P)} :
      cfg.handling key t us.head? es.head? = some h →
      Trace cfg key h.tombstones (h.turn.restUpdates us) (h.turn.restExistings es) hs →
      Trace cfg key t us es (h.handled us.head? es.head? :: hs)

variable {cfg : Config s PK P W ι} {key : PK} {t : Tombstones} {us es : List (Fragment s P)}
  {c : Call s PK P W ι} {b : Builder s PK P W ι}

theorem Trace.unique [LinearOrder P] {hs hs' : List (Handled s P)} (h : Trace cfg key t us es hs)
    (h' : Trace cfg key t us es hs') : hs = hs' := by
  induction h generalizing hs' with
  | stop hn =>
    cases h' with
    | stop => rfl
    | step hh => rw [hn] at hh; cases hh
  | step hh _ ih =>
    cases h' with
    | stop hn => rw [hn] at hh; cases hh
    | step hh' ht' =>
      cases hh.symm.trans hh'
      rw [ih ht']

section

variable (cfg) (key)

theorem turn_onUpdateOnly (f : Fragment s P) : (cfg.onUpdateOnly key t f).turn = .updates := by
  cases f <;> rfl

theorem turn_onExistingOnly (f : Fragment s P) :
    (cfg.onExistingOnly key t f).turn = .existings := by
  cases f <;> rfl

end

section

variable [LinearOrder P] {u e : Option (Fragment s P)} {h : Handling s P}

theorem isSome_of_handling (hh : cfg.handling key t u e = some h) :
    (h.turn ≠ .existings → u.isSome) ∧ (h.turn ≠ .updates → e.isSome) := by
  unfold Config.handling at hh
  split at hh
  · simp
  · obtain ⟨_, rfl⟩ := ite_some_none_eq_some.mp hh
    simp [turn_onExistingOnly]
  · cases hh
    simp [turn_onUpdateOnly]
  · cases hh

theorem handling_tail_eq_none (hh : cfg.handling key t us.head? es.head? = none) :
    cfg.handling key t us.tail.head? es.tail.head? = none := by
  cases us with
  | cons u us =>
    cases es with
    | nil => cases hh
    | cons e es =>
      simp only [head?_cons, Config.handling] at hh
      split at hh <;> cases hh
  | nil =>
    cases es with
    | nil => rfl
    | cons e es =>
      have ht : ¬ t.update.isSet = true := by
        intro ht
        simp [Config.handling, ht] at hh
      cases es <;> simp [Config.handling, ht]

end

/-! ## Readers -/

inductive Reader.Reads : Reader s PK P → List (Fragment s P) → Prop
  | current (f : Fragment s P) (fs : List (Fragment s P)) :
      Reads ⟨some (.content f), fs.map .content ++ [.endOfPartition]⟩ (f :: fs)
  | atEnd : Reads ⟨some .endOfPartition, []⟩ []
  | afterEnd : Reads ⟨none, []⟩ []

namespace Reader

theorem filterMap_content (fs : List (Fragment s P)) :
    (fs.map .content ++ [.endOfPartition] : List (MutationFragment s PK P)).filterMap
      MutationFragment.content? = fs := by
  simp [Function.comp_def, MutationFragment.content?]

namespace Reads

variable {r : Reader s PK P} {l : List (Fragment s P)}

theorem live (h : r.Reads l) : r.live = l.head? := by
  cases h <;> rfl

theorem fragments (h : r.Reads l) : r.fragments = l := by
  cases h with
  | current f fs => exact congrArg (f :: ·) (filterMap_content fs)
  | atEnd => rfl
  | afterEnd => rfl

theorem advance (h : r.Reads l) : r.advance.Reads l.tail := by
  cases h with
  | current f fs =>
    cases fs with
    | nil => exact .atEnd
    | cons g fs => exact .current g fs
  | atEnd => exact .afterEnd
  | afterEnd => exact .afterEnd

theorem current_ne_start (h : r.Reads l) (key : PK) (t : Tombstone) :
    r.current ≠ some (.partitionStart key t) := by
  cases h <;> simp

end Reads

theorem reads_of_start (p : PartitionStream s PK P) :
    (Reader.advance (Reader.advance ⟨none, p.toList⟩)).Reads p.fragments := by
  unfold PartitionStream.toList
  cases hf : p.fragments with
  | nil => exact .atEnd
  | cons f fs => exact .current f fs

end Reader

/-! ## One call -/

/-- Pass the rows of several turns to a view. -/
def ViewUpdates.generateAll (v : Generator s PK P W) (key : PK) (u : ViewUpdates W)
    (hs : List (Handled s P)) : ViewUpdates W :=
  hs.foldl (fun u h => u.generateUpdate v key h.rows) u

/-- The rows a view writes in a turn when it has written a partition tombstone before. -/
def Generator.rowWrites (v : Generator s PK P W) (t : Tombstone) (key : PK) (h : Handled s P) :
    List W :=
  match h.rows with
  | none => []
  | some (update, existing) => (v.generateUpdate t key update existing).1

namespace ViewUpdates

variable (v : Generator s PK P W) (key : PK)

@[simp] theorem partitionTombstone_generateUpdate (rows : Option (RowChange s P))
    (u : ViewUpdates W) : (u.generateUpdate v key rows).partitionTombstone =
      u.partitionTombstone := by
  cases rows <;> rfl

theorem writes_generateUpdate (h : Handled s P) (u : ViewUpdates W) :
    (u.generateUpdate v key h.rows).writes =
      u.writes ++ v.rowWrites u.partitionTombstone key h := by
  unfold Generator.rowWrites generateUpdate
  cases h.rows <;> simp

theorem generateAll_spec (u : ViewUpdates W) (hs : List (Handled s P)) :
    (u.generateAll v key hs).partitionTombstone = u.partitionTombstone ∧
      (u.generateAll v key hs).writes =
        u.writes ++ hs.flatMap (v.rowWrites u.partitionTombstone key) := by
  induction hs generalizing u with
  | nil => simp [generateAll]
  | cons h hs ih =>
    obtain ⟨ht, hw⟩ := ih (u.generateUpdate v key h.rows)
    refine ⟨ht.trans (by simp), hw.trans ?_⟩
    rw [writes_generateUpdate]
    simp

end ViewUpdates

def updatesHandled (hs : List (Handled s P)) : List (Fragment s P) :=
  hs.flatMap fun h => h.update.toList

def existingsHandled (hs : List (Handled s P)) : List (Fragment s P) :=
  hs.flatMap fun h => h.existing.toList

structure Ran [LinearOrder P] (cfg : Config s PK P W ι) (b : Builder s PK P W ι)
    (us es : List (Fragment s P)) (full : Option Turn) (b' : Builder s PK P W ι)
    (hs : List (Handled s P)) (us' es' : List (Fragment s P)) : Prop where
  handled : b'.handled = b.handled ++ hs
  key : b'.key = b.key
  skipRowUpdates : b'.skipRowUpdates = b.skipRowUpdates
  updates : b'.updates.Reads us'
  existings : b'.existings.Reads es'
  viewUpdates : ∀ i, b'.viewUpdates i = (b.viewUpdates i).generateAll (cfg.views i) b.key hs
  stopped : cfg.handling b.key b.tombstones us.head? es.head? = none → full = none ∧ hs = []
  ended : full = none → Trace cfg b.key b.tombstones us es hs ∧
    cfg.handling b.key b'.tombstones us'.head? es'.head? = none
  filled : ∀ turn ∈ full,
    (∀ hs', Trace cfg b.key b'.tombstones (turn.restUpdates us') (turn.restExistings es') hs' →
      Trace cfg b.key b.tombstones us es (hs ++ hs')) ∧
    updatesHandled hs ++ turn.restUpdates us' = us ∧
    existingsHandled hs ++ turn.restExistings es' = es

section

variable [LinearOrder P] {h : Handling s P} (hh : cfg.handling key t us.head? es.head? = some h)

include hh

theorem handled_append_rest :
    (h.handled us.head? es.head?).update.toList ++ h.turn.restUpdates us = us ∧
      (h.handled us.head? es.head?).existing.toList ++ h.turn.restExistings es = es := by
  constructor
  · cases ht : h.turn <;> cases us <;> simp_all [Handling.handled, Turn.restUpdates]
  · cases ht : h.turn <;> cases es <;> simp_all [Handling.handled, Turn.restExistings]

theorem length_rest_lt :
    (h.turn.restUpdates us).length + (h.turn.restExistings es).length < us.length + es.length := by
  obtain ⟨hu, he⟩ := isSome_of_handling hh
  cases ht : h.turn <;> cases us <;> cases es <;>
    simp_all [Turn.restUpdates, Turn.restExistings]
  omega

end

namespace Builder

section

variable (b) (turn : Turn)

include b turn

@[simp] theorem key_advance :
    (b.advance turn).key = b.key := by cases turn <;> rfl

@[simp] theorem tombstones_advance :
    (b.advance turn).tombstones = b.tombstones := by cases turn <;> rfl

@[simp] theorem skipRowUpdates_advance :
    (b.advance turn).skipRowUpdates = b.skipRowUpdates := by cases turn <;> rfl

@[simp] theorem viewUpdates_advance :
    (b.advance turn).viewUpdates = b.viewUpdates := by cases turn <;> rfl

@[simp] theorem handled_advance :
    (b.advance turn).handled = b.handled := by cases turn <;> rfl

end

theorem reads_advance (hu : b.updates.Reads us) (he : b.existings.Reads es) (turn : Turn) :
    (b.advance turn).updates.Reads (turn.restUpdates us) ∧
      (b.advance turn).existings.Reads (turn.restExistings es) := by
  cases turn
  · exact ⟨hu.advance, he⟩
  · exact ⟨hu, he.advance⟩
  · exact ⟨hu.advance, he.advance⟩

end Builder

namespace Ran

variable [LinearOrder P] {h : Handling s P}

section

variable (hu : b.updates.Reads us) (he : b.existings.Reads es)

include hu he

theorem stop (hh : cfg.handling b.key b.tombstones us.head? es.head? = none) :
    Ran cfg b us es none b [] us es where
  handled := (append_nil _).symm
  key := rfl
  skipRowUpdates := rfl
  updates := hu
  existings := he
  viewUpdates _ := rfl
  stopped _ := ⟨rfl, rfl⟩
  ended _ := ⟨.stop hh, hh⟩
  filled _ h := nomatch h

section

variable (hh : cfg.handling b.key b.tombstones us.head? es.head? = some h)

include hh

theorem full :
    Ran cfg b us es (some h.turn) (b.handle cfg h) [h.handled us.head? es.head?] us es where
  handled := by rw [← hu.live, ← he.live]; rfl
  key := rfl
  skipRowUpdates := rfl
  updates := hu
  existings := he
  viewUpdates _ := rfl
  stopped hn := nomatch hn.symm.trans hh
  ended h := nomatch h
  filled turn ht := by
    obtain rfl : h.turn = turn := mem_some_iff.mp ht
    obtain ⟨hru, hre⟩ := handled_append_rest hh
    refine ⟨fun hs' ht => .step hh ht, ?_, ?_⟩
    · rw [updatesHandled, flatMap_singleton]
      exact hru
    · rw [existingsHandled, flatMap_singleton]
      exact hre

theorem again {full : Option Turn} {b' : Builder s PK P W ι} {hs : List (Handled s P)}
    {us' es' : List (Fragment s P)}
    (hr : Ran cfg ((b.handle cfg h).advance h.turn) (h.turn.restUpdates us)
      (h.turn.restExistings es) full b' hs us' es') :
    Ran cfg b us es full b' (h.handled us.head? es.head? :: hs) us' es' where
  handled := by
    rw [hr.handled, handled_advance, ← hu.live, ← he.live]
    exact append_assoc _ [_] hs
  key := by rw [hr.key, key_advance]; rfl
  skipRowUpdates := by rw [hr.skipRowUpdates, skipRowUpdates_advance]; rfl
  updates := hr.updates
  existings := hr.existings
  viewUpdates i := by
    rw [hr.viewUpdates, viewUpdates_advance, key_advance]
    rfl
  stopped hn := nomatch hn.symm.trans hh
  ended hf := by
    obtain ⟨ht, hn⟩ := hr.ended hf
    rw [key_advance, tombstones_advance] at ht
    rw [key_advance] at hn
    exact ⟨.step hh ht, hn⟩
  filled turn hf := by
    obtain ⟨ht, hru, hre⟩ := hr.filled turn hf
    obtain ⟨hu₀, he₀⟩ := handled_append_rest hh
    rw [key_advance, tombstones_advance] at ht
    refine ⟨fun hs' ht' => .step hh (ht hs' ht'), ?_, ?_⟩
    · rw [updatesHandled, flatMap_cons, append_assoc, ← updatesHandled, hru, hu₀]
    · rw [existingsHandled, flatMap_cons, append_assoc, ← existingsHandled, hre, he₀]

end

end

end Ran

namespace Builder

variable [LinearOrder P]

theorem loop_spec [Fintype ι] (cfg : Config s PK P W ι) (bound : Option ℕ) {n : ℕ}
    (hu : b.updates.Reads us) (he : b.existings.Reads es) (hn : us.length + es.length < n) :
    ∃ hs us' es', Ran cfg b us es (b.loop cfg bound n).1 (b.loop cfg bound n).2 hs us' es' := by
  induction n generalizing b us es with
  | zero => omega
  | succ n ih =>
    rw [loop, onResults, hu.live, he.live]
    cases hh : cfg.handling b.key b.tombstones us.head? es.head? with
    | none => exact ⟨[], us, es, .stop hu he hh⟩
    | some h =>
      dsimp only
      by_cases hs : (b.handle cfg h).shouldStopUpdates bound = true
      · rw [if_pos hs]
        exact ⟨_, us, es, .full hu he hh⟩
      · rw [if_neg hs]
        obtain ⟨hu', he'⟩ := reads_advance (b := b.handle cfg h) hu he h.turn
        obtain ⟨hs, us', es', hr⟩ := ih hu' he' (by have := length_rest_lt hh; omega)
        exact ⟨_, us', es', .again hu he hh hr⟩

theorem buildSome_spec [Fintype ι] (bound : Option ℕ) (hu : (b.begin cfg).updates.Reads us)
    (he : (b.begin cfg).existings.Reads es) (hskip : (b.begin cfg).skipRowUpdates = false)
    (hc : ((b.advance .all).updates.current.isNone &&
      (b.advance .all).existings.current.isNone) = false) :
    ∃ c us' es', b.buildSome cfg bound = some c ∧ (c.after.viewUpdates = fun _ => {}) ∧
      Ran cfg (b.begin cfg) us es c.full { c.after with viewUpdates := c.output }
        c.handled us' es' := by
  obtain ⟨hs, us', es', hr⟩ := loop_spec cfg bound hu he
    (lt_succ_self (us.length + es.length))
  unfold buildSome
  simp only [hc, hskip, remaining, false_eq_true, if_false, hu.fragments, he.fragments]
  refine ⟨_, us', es', rfl, rfl, ?_⟩
  have hdrop : drop (b.begin cfg).handled.length
      ((b.begin cfg).loop cfg bound (us.length + es.length + 1)).2.handled = hs := by
    rw [hr.handled, drop_left]
  rw [hdrop]
  exact hr

end Builder

/-! ## All calls -/

namespace Builder

/-- The number of fragments that have not been read. -/
def unread (b : Builder s PK P W ι) : ℕ := b.updates.rest.length + b.existings.rest.length

theorem eq_nil_of_unread (h : b.unread = 0) :
    b.updates.rest = [] ∧ b.existings.rest = [] := by
  unfold unread at h
  exact ⟨length_eq_zero_iff.mp (by omega), length_eq_zero_iff.mp (by omega)⟩

theorem unread_advance_le (b : Builder s PK P W ι) (turn : Turn) :
    (b.advance turn).unread ≤ b.unread := by
  cases turn <;> simp only [advance, unread, Reader.advance, length_tail] <;> omega

theorem unread_start_le [Fintype ι] (cfg : Config s PK P W ι) (b : Builder s PK P W ι) :
    (b.start cfg).unread ≤ b.unread := by
  unfold start startUpdate startExisting unread
  split <;> split <;> simp only [Reader.advance, length_tail] <;> omega

variable [Fintype ι] [LinearOrder P] {bound : Option ℕ}

theorem unread_loop_le (n : ℕ) : (b.loop cfg bound n).2.unread ≤ b.unread := by
  induction n generalizing b with
  | zero => exact le_rfl
  | succ n ih =>
    rw [loop, onResults]
    cases cfg.handling b.key b.tombstones b.updates.live b.existings.live with
    | none => exact le_rfl
    | some h =>
      dsimp only
      by_cases hs : (b.handle cfg h).shouldStopUpdates bound = true
      · rw [if_pos hs]
        exact le_of_eq rfl
      · rw [if_neg hs]
        exact ih.trans (unread_advance_le (b.handle cfg h) h.turn)

theorem unread_buildSome_lt (hc : b.buildSome cfg bound = some c) : c.after.unread < b.unread := by
  obtain ⟨hne, hc⟩ := ite_none_left_eq_some.mp hc
  cases hc
  have hloop : ∀ r : Option Turn × Builder s PK P W ι,
      r = (if (b.begin cfg).skipRowUpdates then (none, b.begin cfg)
        else (b.begin cfg).loop cfg bound ((b.begin cfg).remaining + 1)) →
      r.2.unread ≤ (b.begin cfg).unread := by
    rintro r rfl
    split
    · exact le_rfl
    · exact unread_loop_le _
  refine (hloop _ rfl).trans_lt ((unread_start_le cfg _).trans_lt ?_)
  simp only [advance, Reader.advance, and_eq_true, isNone_iff_eq_none,
    head?_eq_none_iff, not_and_or] at hne
  simp only [advance, Reader.advance, unread, length_tail]
  rw [← length_eq_zero_iff, ← length_eq_zero_iff] at hne
  omega

end Builder

/-- A builder between two calls, with the given fragments left for the next one. -/
structure Resting [Fintype ι] (cfg : Config s PK P W ι) (b : Builder s PK P W ι)
    (us es : List (Fragment s P)) : Prop where
  skipRowUpdates : (b.begin cfg).skipRowUpdates = false
  updates : (b.begin cfg).updates.Reads us
  existings : (b.begin cfg).existings.Reads es

namespace Builder

variable [Fintype ι]

theorem start_eq_self (hu : ∀ key t, b.updates.current ≠ some (.partitionStart key t))
    (he : ∀ key t, b.existings.current ≠ some (.partitionStart key t)) : b.start cfg = b := by
  have h₁ : b.startUpdate cfg = b := by
    unfold startUpdate
    split
    · next h => exact absurd h (hu _ _)
    · rfl
  have h₂ : b.startExisting = b := by
    unfold startExisting
    split
    · next h => exact absurd h (he _ _)
    · rfl
  have h₃ : b.coveredByPartitionTombstone cfg = false := by
    unfold coveredByPartitionTombstone
    split
    · next h _ => exact absurd h (hu _ _)
    · rfl
  unfold start
  rw [h₁, h₂, h₃, Bool.or_false]

theorem begin_eq_advance (hu : b.updates.Reads us) (he : b.existings.Reads es) :
    b.begin cfg = b.advance .all :=
  start_eq_self (fun key t => hu.advance.current_ne_start key t)
    (fun key t => he.advance.current_ne_start key t)

end Builder

theorem Resting.eq_nil [Fintype ι] (hb : Resting cfg b us es) (hu : b.updates.rest = [])
    (he : b.existings.rest = []) : us = [] ∧ es = [] := by
  have hbegin : b.begin cfg = b.advance .all :=
    start_eq_self (by simp [Builder.advance, Reader.advance, hu])
      (by simp [Builder.advance, Reader.advance, he])
  have hus := hb.updates.fragments
  have hes := hb.existings.fragments
  rw [hbegin] at hus hes
  simp only [Builder.advance, Reader.advance, Reader.fragments, Reader.live, hu, he] at hus hes
  exact ⟨hus.symm, hes.symm⟩

structure Called [LinearOrder P] [Fintype ι] (cfg : Config s PK P W ι) (b : Builder s PK P W ι)
    (us es : List (Fragment s P)) (c : Call s PK P W ι) (us' es' : List (Fragment s P)) : Prop where
  ran : Ran cfg (b.begin cfg) us es c.full { c.after with viewUpdates := c.output } c.handled us' es'
  begin_after : c.after.begin cfg = c.after.advance .all
  viewUpdates_after : c.after.viewUpdates = fun _ => {}
  resting : Resting cfg c.after us'.tail es'.tail

namespace Builder

variable [LinearOrder P] [Fintype ι]

theorem exists_called (bound : Option ℕ) (hb : Resting cfg b us es)
    (hc : ((b.advance .all).updates.current.isNone &&
      (b.advance .all).existings.current.isNone) = false) :
    ∃ c us' es', b.buildSome cfg bound = some c ∧ Called cfg b us es c us' es' ∧
      c.after.unread < b.unread := by
  obtain ⟨c, us', es', hsome, hv, hr⟩ :=
    buildSome_spec bound hb.updates hb.existings hb.skipRowUpdates hc
  have hbegin : c.after.begin cfg = c.after.advance .all :=
    begin_eq_advance hr.updates hr.existings
  have hskip : c.after.skipRowUpdates = false := hr.skipRowUpdates.trans hb.skipRowUpdates
  have hrest : Resting cfg c.after us'.tail es'.tail := by
    constructor <;> rw [hbegin]
    · rwa [skipRowUpdates_advance]
    · exact hr.updates.advance
    · exact hr.existings.advance
  exact ⟨c, us', es', hsome, ⟨hr, hbegin, hv, hrest⟩, unread_buildSome_lt hsome⟩

theorem buildAll_induct (bound : Option ℕ)
    {motive : Builder s PK P W ι → List (Fragment s P) → List (Fragment s P) →
      List (Call s PK P W ι) → Prop}
    (done : ∀ b, motive b [] [] []) (call : ∀ b us es c n us' es', Called cfg b us es c us' es' →
      c.after.unread ≤ n → motive c.after us'.tail es'.tail (c.after.buildAll cfg bound n) →
      motive b us es (c :: c.after.buildAll cfg bound n))
    {n : ℕ} (hb : Resting cfg b us es) (hn : b.unread ≤ n) :
    motive b us es (b.buildAll cfg bound n) := by
  induction n generalizing b us es with
  | zero =>
    obtain ⟨hu, he⟩ := eq_nil_of_unread (le_zero.mp hn)
    obtain ⟨rfl, rfl⟩ := hb.eq_nil hu he
    exact done b
  | succ n ih =>
    by_cases hc : ((b.advance .all).updates.current.isNone &&
      (b.advance .all).existings.current.isNone) = true
    · have hnone : b.buildSome cfg bound = none := if_pos hc
      rw [buildAll, hnone]
      simp only [advance, Reader.advance, and_eq_true, isNone_iff_eq_none, head?_eq_none_iff] at hc
      obtain ⟨rfl, rfl⟩ := hb.eq_nil hc.1 hc.2
      exact done b
    · rw [not_eq_true] at hc
      obtain ⟨c, us', es', hsome, hcalled, hlt⟩ := exists_called bound hb hc
      have hn' : c.after.unread ≤ n := by omega
      rw [buildAll, hsome]
      exact call b us es c n us' es' hcalled hn' (ih hcalled.resting hn')

end Builder

namespace Called

variable [LinearOrder P] [Fintype ι] {us' es' : List (Fragment s P)}

variable (h : Called cfg b us es c us' es')

include h

theorem key_after : (c.after.begin cfg).key = (b.begin cfg).key := by
  rw [h.begin_after, key_advance]
  exact h.ran.key

theorem tombstones_after : (c.after.begin cfg).tombstones = c.after.tombstones := by
  rw [h.begin_after, tombstones_advance]

theorem handled_after : (c.after.begin cfg).handled = c.after.handled := by
  rw [h.begin_after, handled_advance]

theorem fragments_after :
    (c.after.advance .all).updates.fragments = us'.tail ∧
      (c.after.advance .all).existings.fragments = es'.tail :=
  ⟨h.ran.updates.advance.fragments, h.ran.existings.advance.fragments⟩

theorem handled_append_rest {turn : Turn} (hf : c.full = some turn) :
    updatesHandled c.after.handled ++ turn.restUpdates us' =
        updatesHandled (b.begin cfg).handled ++ us ∧
      existingsHandled c.after.handled ++ turn.restExistings es' =
        existingsHandled (b.begin cfg).handled ++ es := by
  obtain ⟨-, hru, hre⟩ := h.ran.filled turn hf
  have hhandled : c.after.handled = (b.begin cfg).handled ++ c.handled := h.ran.handled
  constructor
  · rw [hhandled, updatesHandled, flatMap_append, append_assoc]
    exact congrArg _ hru
  · rw [hhandled, existingsHandled, flatMap_append, append_assoc]
    exact congrArg _ hre

theorem handling_after (hf : c.full = none) :
    cfg.handling (c.after.begin cfg).key (c.after.begin cfg).tombstones us'.tail.head?
      es'.tail.head? = none := by
  rw [h.key_after, h.tombstones_after]
  exact handling_tail_eq_none (h.ran.ended hf).2

end Called

namespace Builder

variable [LinearOrder P] [Fintype ι]

theorem buildAll_of_stopped (bound : Option ℕ) {n : ℕ} (hb : Resting cfg b us es)
    (hn : b.unread ≤ n)
    (hh : cfg.handling (b.begin cfg).key (b.begin cfg).tombstones us.head? es.head? = none) :
    ∀ c ∈ b.buildAll cfg bound n, c.full = none := by
  revert hh
  refine buildAll_induct bound
    (motive := fun b us es cs =>
      cfg.handling (b.begin cfg).key (b.begin cfg).tombstones us.head? es.head? = none →
        ∀ c ∈ cs, c.full = none) (fun _ _ => by simp) ?_ hb hn
  intro b us es c n us' es' hc _ ih hh
  have hfull := (hc.ran.stopped hh).1
  exact forall_mem_cons.mpr ⟨hfull, ih (hc.handling_after hfull)⟩

end Builder

/-- No fragment is left over that the turn that filled the batch has not handled. -/
def Call.NothingPending (c : Call s PK P W ι) : Prop :=
  match c.full with
  | some .updates => c.after.existings.live = none
  | some .existings => c.after.updates.live = none
  | some .all | none => True

def Call.Accounted (c : Call s PK P W ι) (us es : List (Fragment s P)) : Prop :=
  updatesHandled c.after.handled ++ (c.after.advance .all).updates.fragments = us ∧
    existingsHandled c.after.handled ++ (c.after.advance .all).existings.fragments = es

theorem Call.nothingPending_of_not_full (hf : c.full = none) : c.NothingPending := by
  unfold NothingPending
  rw [hf]
  trivial

theorem Call.nothingPending_iff {turn : Turn} (hf : c.full = some turn)
    (hu : c.after.updates.Reads us) (he : c.after.existings.Reads es) :
    c.NothingPending ↔ turn.restUpdates us = us.tail ∧ turn.restExistings es = es.tail := by
  unfold NothingPending
  rw [hf]
  cases turn
  · cases es <;> simp [Turn.restUpdates, Turn.restExistings, he.live]
  · cases us <;> simp [Turn.restUpdates, Turn.restExistings, hu.live]
  · simp [Turn.restUpdates, Turn.restExistings]

namespace Builder

variable [LinearOrder P] [Fintype ι]

variable {n : ℕ}

variable (bound : Option ℕ)

theorem trace_buildAll (hb : Resting cfg b us es) (hn : b.unread ≤ n)
    (hp : ∀ c ∈ b.buildAll cfg bound n, c.NothingPending) :
    Trace cfg (b.begin cfg).key (b.begin cfg).tombstones us es
      ((b.buildAll cfg bound n).flatMap Call.handled) := by
  revert hp
  refine buildAll_induct bound
    (motive := fun b us es cs => (∀ c ∈ cs, c.NothingPending) →
      Trace cfg (b.begin cfg).key (b.begin cfg).tombstones us es (cs.flatMap Call.handled))
    (fun _ _ => .stop rfl) ?_ hb hn
  intro b us es c n us' es' hc _ ih hp
  obtain ⟨hpc, hpcs⟩ := forall_mem_cons.mp hp
  have htrace := ih hpcs
  rw [flatMap_cons]
  cases hf : c.full with
  | none =>
    rw [htrace.unique (.stop (hc.handling_after hf)), append_nil]
    exact (hc.ran.ended hf).1
  | some turn =>
    obtain ⟨ht, -, -⟩ := hc.ran.filled turn hf
    obtain ⟨hu, he⟩ := (Call.nothingPending_iff hf hc.ran.updates hc.ran.existings).mp hpc
    rw [hc.key_after, hc.tombstones_after, ← hu, ← he] at htrace
    exact ht _ htrace

theorem nothingPending_buildAll_iff {us₀ es₀ : List (Fragment s P)}
    (hb : Resting cfg b us es) (hn : b.unread ≤ n)
    (hu : updatesHandled (b.begin cfg).handled ++ us = us₀)
    (he : existingsHandled (b.begin cfg).handled ++ es = es₀) :
    (∀ c ∈ b.buildAll cfg bound n, c.full.isSome → c.Accounted us₀ es₀) ↔
      ∀ c ∈ b.buildAll cfg bound n, c.NothingPending := by
  revert hu he
  refine buildAll_induct bound
    (motive := fun b us es cs => updatesHandled (b.begin cfg).handled ++ us = us₀ →
      existingsHandled (b.begin cfg).handled ++ es = es₀ →
      ((∀ c ∈ cs, c.full.isSome → c.Accounted us₀ es₀) ↔ ∀ c ∈ cs, c.NothingPending))
    (fun _ _ _ => by simp) ?_ hb hn
  intro b us es c n us' es' hc hn ih hu he
  rw [forall_mem_cons, forall_mem_cons]
  cases hf : c.full with
  | none =>
    -- no later batch is full
    have hstop := buildAll_of_stopped bound hc.resting hn (hc.handling_after hf)
    refine ⟨fun _ => ⟨Call.nothingPending_of_not_full hf,
      fun d hd => Call.nothingPending_of_not_full (hstop d hd)⟩, fun _ => ⟨by simp, ?_⟩⟩
    intro d hd hfull
    rw [hstop d hd] at hfull
    cases hfull
  | some turn =>
    obtain ⟨hu', he'⟩ := hc.handled_append_rest hf
    rw [hu] at hu'
    rw [he] at he'
    obtain ⟨hfu, hfe⟩ := hc.fragments_after
    have hiff : c.Accounted us₀ es₀ ↔ c.NothingPending := by
      rw [Call.nothingPending_iff hf hc.ran.updates hc.ran.existings, Call.Accounted, ← hu', ← he',
        append_right_inj, append_right_inj, hfu, hfe, eq_comm, @eq_comm _ es'.tail]
    have hih (ha : c.Accounted us₀ es₀) := ih
      (by rw [hc.handled_after, ← hfu]; exact ha.1) (by rw [hc.handled_after, ← hfe]; exact ha.2)
    constructor
    · rintro ⟨ha, hcs⟩
      exact ⟨hiff.mp (ha rfl), (hih (ha rfl)).mp hcs⟩
    · rintro ⟨hp, hcs⟩
      exact ⟨fun _ => hiff.mpr hp, (hih (hiff.mpr hp)).mpr hcs⟩

theorem output_buildAll (hb : Resting cfg b us es) (hn : b.unread ≤ n)
    (hv : (b.begin cfg).viewUpdates = fun _ => {}) :
    ∀ c ∈ b.buildAll cfg bound n, ∀ i,
      c.output i = ViewUpdates.generateAll (cfg.views i) (b.begin cfg).key {} c.handled := by
  revert hv
  refine buildAll_induct bound
    (motive := fun b _ _ cs => (b.begin cfg).viewUpdates = (fun _ => {}) → ∀ c ∈ cs, ∀ i,
      c.output i = ViewUpdates.generateAll (cfg.views i) (b.begin cfg).key {} c.handled)
    (fun _ _ => by simp) ?_ hb hn
  intro b us es c n us' es' hc _ ih hv
  refine forall_mem_cons.mpr ⟨fun i => ?_, ?_⟩
  · have hout := hc.ran.viewUpdates i
    rw [hv] at hout
    exact hout
  · rw [← hc.key_after]
    apply ih
    rw [hc.begin_after, viewUpdates_advance, hc.viewUpdates_after]

theorem buildSome_of_skip
    (hskip : (b.begin cfg).skipRowUpdates = true) (hc : b.buildSome cfg bound = some c) :
    c = { output := (b.begin cfg).viewUpdates
          full := none
          handled := []
          after := { b.begin cfg with viewUpdates := fun _ => {} } } := by
  obtain ⟨_, hc⟩ := ite_none_left_eq_some.mp hc
  dsimp only at hc
  rw [if_pos hskip] at hc
  cases hc
  simp only [drop_length]

theorem buildAll_of_skip (cfg : Config s PK P W ι) (bound : Option ℕ) (n : ℕ)
    (hu : b.updates.Reads us) (he : b.existings.Reads es) (hskip : b.skipRowUpdates = true)
    (hv : b.viewUpdates = fun _ => {}) :
    ∀ c ∈ b.buildAll cfg bound n, c.full = none ∧ c.handled = [] ∧ c.output = fun _ => {} := by
  induction n generalizing b us es with
  | zero => simp [buildAll]
  | succ n ih =>
    have hbegin : b.begin cfg = b.advance .all := begin_eq_advance hu he
    rw [buildAll]
    cases hc : b.buildSome cfg bound with
    | none => simp
    | some c =>
      obtain rfl := buildSome_of_skip bound (by rw [hbegin]; exact hskip) hc
      refine forall_mem_cons.mpr ⟨⟨rfl, rfl, ?_⟩, ?_⟩
      · rw [hbegin]
        exact hv
      · rw [hbegin]
        exact ih hu.advance he.advance hskip rfl

end Builder

/-! ## Batches and the call without a bound -/

section

variable [Fintype ι] (cfg : Config s PK P W ι) (update : PartitionStream s PK P)
  (existing : Option (PartitionStream s PK P))

def existingFragments (existing : Option (PartitionStream s PK P)) : List (Fragment s P) :=
  existing.elim [] PartitionStream.fragments

/-- The partition tombstone a view writes for an update. -/
def Generator.partitionTombstone (v : Generator s PK P W) (t : Tombstone) : Tombstone :=
  if v.isPartitionKeyPermutation then t else Tombstone.none

/-- The calls of `build_some` with a bound on the operations of a batch. -/
def batches [LinearOrder P] (bound : ℕ) : List (Call s PK P W ι) :=
  let b : Builder s PK P W ι := Builder.init update existing
  b.buildAll cfg (some bound) b.unread

structure Lossless (whole : Call s PK P W ι) (calls : List (Call s PK P W ι)) : Prop where
  partitionTombstone : ∀ i, (calls.map fun c => (c.output i).partitionTombstone).foldl
    Tombstone.apply Tombstone.none = (whole.output i).partitionTombstone
  writes : ∀ i,
    (calls.flatMap fun c => (c.output i).writes).filter
        (fun w => !(cfg.views i).covered (whole.output i).partitionTombstone w) =
      (whole.output i).writes.filter
        (fun w => !(cfg.views i).covered (whole.output i).partitionTombstone w)
  /-- The same fragments are handled under the same tombstones. -/
  handled : calls.flatMap Call.handled = whole.handled
  /-- No fragment is skipped or seen twice after a full batch. -/
  accounted : ∀ c ∈ calls, c.full.isSome → c.Accounted update.fragments (existingFragments existing)

def NotLeftOut (i : ι) (h : Handled s P) : Prop :=
  let v := cfg.views i
  let t := v.partitionTombstone update.tombstone
  (v.rowWrites Tombstone.none update.key h).filter (fun w => !v.covered t w) =
    (v.rowWrites t update.key h).filter (fun w => !v.covered t w)

theorem begin_init : ∃ b : Builder s PK P W ι, (Builder.init update existing).begin cfg = b ∧
    b.updates.Reads update.fragments ∧ b.existings.Reads (existingFragments existing) ∧
    b.key = update.key ∧ b.handled = [] ∧
    (∀ i, (b.viewUpdates i).partitionTombstone =
      (cfg.views i).partitionTombstone update.tombstone) ∧
    ∀ i, (b.viewUpdates i).writes = [] := by
  have hviews (i : ι) : (({} : ViewUpdates W).generatePartitionTombstoneUpdate (cfg.views i)
      update.tombstone).partitionTombstone = (cfg.views i).partitionTombstone update.tombstone ∧
      (({} : ViewUpdates W).generatePartitionTombstoneUpdate (cfg.views i)
        update.tombstone).writes = [] := by
    unfold ViewUpdates.generatePartitionTombstoneUpdate Generator.partitionTombstone
    cases hp : (cfg.views i).isPartitionKeyPermutation with
    | false => exact ⟨rfl, rfl⟩
    | true =>
      cases ht : update.tombstone.isSet with
      | false =>
        rw [Tombstone.eq_none_of_not_isSet ht]
        exact ⟨rfl, rfl⟩
      | true =>
        refine ⟨?_, rfl⟩
        simp only [Bool.and_self, if_true]
        rw [Tombstone.apply_eq_max, max_eq_right (Tombstone.none_le _)]
  have hu := Reader.reads_of_start update
  cases existing with
  | none => exact ⟨_, rfl, hu, .afterEnd, rfl, rfl, fun i => (hviews i).1, fun i => (hviews i).2⟩
  | some e =>
    exact ⟨_, rfl, hu, Reader.reads_of_start e, rfl, rfl, fun i => (hviews i).1,
      fun i => (hviews i).2⟩

end

theorem flatMap_eq_flatMap_iff {α β : Type*} {f g : α → List β} {l : List α}
    (h : ∀ a ∈ l, (f a).Sublist (g a)) : l.flatMap g = l.flatMap f ↔ ∀ a ∈ l, g a = f a := by
  refine ⟨fun heq => ?_, fun heq => flatMap_congr heq⟩
  induction l with
  | nil => simp
  | cons a l ih =>
    obtain ⟨ha, hl⟩ := forall_mem_cons.mp h
    rw [flatMap_cons, flatMap_cons] at heq
    have hsub : (l.flatMap f).Sublist (l.flatMap g) := Sublist.flatMap_right l hl
    have hlen := congrArg length heq
    rw [length_append, length_append] at hlen
    have hga : g a = f a := (ha.eq_of_length_le (by have := hsub.length_le; omega)).symm
    rw [hga, append_cancel_left_eq] at heq
    exact forall_mem_cons.mpr ⟨hga, ih hl heq⟩

theorem Builder.loop_unbounded [Fintype ι] [LinearOrder P] (cfg : Config s PK P W ι) (n : ℕ)
    (b : Builder s PK P W ι) : (b.loop cfg none n).1 = none := by
  induction n generalizing b with
  | zero => rfl
  | succ n ih =>
    rw [loop, onResults]
    cases cfg.handling b.key b.tombstones b.updates.live b.existings.live with
    | none => rfl
    | some h => exact ih _

theorem Builder.full_unbounded [Fintype ι] [LinearOrder P] (hc : b.buildSome cfg none = some c) :
    c.full = none := by
  obtain ⟨_, hc⟩ := ite_none_left_eq_some.mp hc
  cases hc
  split
  · rfl
  · exact loop_unbounded cfg _ _

namespace Generator

variable (v : Generator s PK P W) (t : Tombstone) (key : PK)

theorem rowWrites_sublist (h : Handled s P) :
    (v.rowWrites t key h).Sublist (v.rowWrites Tombstone.none key h) := by
  unfold rowWrites
  split
  · exact Sublist.refl _
  · exact v.sublist t key _ _

theorem filter_writes_iff (p : W → Bool) (hs₀ hs₁ : List (Handled s P)) :
    (hs₀.flatMap (v.rowWrites t key) ++ hs₁.flatMap (v.rowWrites Tombstone.none key)).filter p =
        ((hs₀ ++ hs₁).flatMap (v.rowWrites t key)).filter p ↔
      ∀ h ∈ hs₁, (v.rowWrites Tombstone.none key h).filter p = (v.rowWrites t key h).filter p := by
  rw [flatMap_append, filter_append, filter_append, append_cancel_left_eq,
    filter_flatMap, filter_flatMap]
  exact flatMap_eq_flatMap_iff fun h _ => (v.rowWrites_sublist t key h).filter p

end Generator

section

variable [Fintype ι] [LinearOrder P] (cfg : Config s PK P W ι) (bound : ℕ)
  (update : PartitionStream s PK P) (existing : Option (PartitionStream s PK P))

omit [Fintype ι] [LinearOrder P] in
theorem foldl_partitionTombstone {cs : List (Call s PK P W ι)} {i : ι} (t : Tombstone)
    (h : ∀ c ∈ cs, (c.output i).partitionTombstone = Tombstone.none) :
    (cs.map fun c => (c.output i).partitionTombstone).foldl Tombstone.apply t = t := by
  induction cs with
  | nil => rfl
  | cons c cs ih =>
    obtain ⟨hc, hcs⟩ := forall_mem_cons.mp h
    rw [map_cons, foldl_cons, hc, Tombstone.apply_eq_max, max_eq_left (Tombstone.none_le t)]
    exact ih hcs

theorem exists_first_call
    (hb : Resting cfg (Builder.init update existing) update.fragments (existingFragments existing))
    (bound : Option ℕ) : ∃ c us' es', (Builder.init update existing).buildSome cfg bound = some c ∧
      Called cfg (Builder.init update existing) update.fragments (existingFragments existing) c
        us' es' ∧
      c.after.unread < (Builder.init update existing : Builder s PK P W ι).unread ∧
      (∀ i, (c.output i).partitionTombstone = (cfg.views i).partitionTombstone update.tombstone) ∧
      ∀ i, (c.output i).writes = c.handled.flatMap ((cfg.views i).rowWrites
        ((cfg.views i).partitionTombstone update.tombstone) update.key) := by
  obtain ⟨b₁, hb₁, -, -, hkey, -, htomb, hwrites⟩ := begin_init cfg update existing
  obtain ⟨c, us', es', hc, hcalled, hlt⟩ := exists_called bound hb rfl
  have hout (i : ι) : c.output i = (b₁.viewUpdates i).generateAll (cfg.views i) b₁.key c.handled :=
    hb₁ ▸ hcalled.ran.viewUpdates i
  refine ⟨c, us', es', hc, hcalled, hlt, fun i => ?_, fun i => ?_⟩
  · rw [hout, (ViewUpdates.generateAll_spec _ _ _ _).1, htomb]
  · rw [hout, (ViewUpdates.generateAll_spec _ _ _ _).2, htomb, hwrites, hkey, nil_append]

theorem batches_eq_cons (hc : (Builder.init update existing).buildSome cfg (some bound) = some c) :
    ∃ n, batches cfg update existing bound = c :: c.after.buildAll cfg (some bound) n ∧
      n + 1 = (Builder.init update existing : Builder s PK P W ι).unread := by
  unfold batches
  dsimp only
  generalize hl : (Builder.init update existing : Builder s PK P W ι).unread = l
  cases l with
  | zero => simp [Builder.init, Builder.unread, PartitionStream.toList] at hl
  | succ n => exact ⟨n, by rw [Builder.buildAll, hc], rfl⟩

variable {whole : Call s PK P W ι}

theorem lossless_of_skip
    (hskip : ((Builder.init update existing : Builder s PK P W ι).begin cfg).skipRowUpdates = true)
    (hwhole : (Builder.init update existing).buildSome cfg none = some whole) :
    Lossless cfg update existing whole (batches cfg update existing bound) ∧
      (∀ c ∈ batches cfg update existing bound, c.full = none ∧ c.handled = []) := by
  obtain ⟨b₁, hb₁, hu, he, -, -, -, hwrites⟩ := begin_init cfg update existing
  obtain ⟨c, hc⟩ : ∃ c, (Builder.init update existing).buildSome cfg (some bound) = some c :=
    ⟨_, rfl⟩
  obtain ⟨n, hbatches, -⟩ := batches_eq_cons cfg bound update existing hc
  obtain rfl := buildSome_of_skip none hskip hwhole
  obtain rfl := buildSome_of_skip (some bound) hskip hc
  rw [hbatches, hb₁]
  have hrest := buildAll_of_skip cfg (some bound) n
    (b := { b₁ with viewUpdates := fun _ => {} }) hu he (hb₁ ▸ hskip) rfl
  generalize Builder.buildAll cfg (some bound) n { b₁ with viewUpdates := fun _ => {} } = cs at *
  have hnil : cs.flatMap Call.handled = [] :=
    flatMap_eq_nil_iff.mpr fun d hd => (hrest d hd).2.1
  have hwrites' (i : ι) : cs.flatMap (fun d => (d.output i).writes) = [] :=
    flatMap_eq_nil_iff.mpr fun d hd => by rw [(hrest d hd).2.2]
  refine ⟨⟨fun i => ?_, fun i => ?_, ?_, ?_⟩, ?_⟩
  · rw [map_cons, foldl_cons, Tombstone.apply_eq_max, max_eq_right (Tombstone.none_le _)]
    exact foldl_partitionTombstone _ fun d hd => by rw [(hrest d hd).2.2]
  · rw [flatMap_cons, hwrites', append_nil]
  · rw [flatMap_cons, hnil, append_nil]
  · refine forall_mem_cons.mpr ⟨(fun h => nomatch h), fun d hd h => ?_⟩
    rw [(hrest d hd).1] at h
    cases h
  · exact forall_mem_cons.mpr ⟨⟨rfl, rfl⟩, fun d hd => ⟨(hrest d hd).1, (hrest d hd).2.1⟩⟩

theorem lossless_iff_of_not_skip
    (hskip : ((Builder.init update existing : Builder s PK P W ι).begin cfg).skipRowUpdates = false)
    (hwhole : (Builder.init update existing).buildSome cfg none = some whole) :
    Lossless cfg update existing whole (batches cfg update existing bound) ↔
      (∀ c ∈ batches cfg update existing bound, c.NothingPending) ∧
      ∀ c ∈ (batches cfg update existing bound).tail, ∀ h ∈ c.handled, ∀ i,
        NotLeftOut cfg update i h := by
  obtain ⟨b₁, hb₁, hu, he, hkey, hhandled, -, -⟩ := begin_init cfg update existing
  have hb : Resting cfg (Builder.init update existing) update.fragments
      (existingFragments existing) := ⟨hskip, hb₁ ▸ hu, hb₁ ▸ he⟩
  -- the call without a bound makes all turns
  obtain ⟨w, us, es, hw, hwcalled, -, hwtomb, hwwrites⟩ :=
    exists_first_call cfg update existing hb none
  cases hwhole.symm.trans hw
  have hwtrace := (hwcalled.ran.ended (full_unbounded hwhole)).1
  -- so do the batches after which nothing is pending
  obtain ⟨c, us', es', hc, hcalled, hlt, hctomb, hcwrites⟩ :=
    exists_first_call cfg update existing hb (some bound)
  have hu₀ : updatesHandled ((Builder.init update existing).begin cfg).handled ++ update.fragments =
      update.fragments := by rw [hb₁, hhandled]; rfl
  have he₀ : existingsHandled ((Builder.init update existing).begin cfg).handled ++
      existingFragments existing = existingFragments existing := by rw [hb₁, hhandled]; rfl
  have hpending := nothingPending_buildAll_iff (some bound) hb le_rfl hu₀ he₀
  have htrace := trace_buildAll (some bound) hb le_rfl
  obtain ⟨n, hcs, hn⟩ := batches_eq_cons cfg bound update existing hc
  change (∀ d ∈ batches cfg update existing bound, _) ↔ ∀ d ∈ batches cfg update existing bound, _
    at hpending
  change (∀ d ∈ batches cfg update existing bound, _) → Trace _ _ _ _ _
    ((batches cfg update existing bound).flatMap Call.handled) at htrace
  rw [hcs] at hpending htrace ⊢
  -- later batches start without the partition tombstone
  have hkey' : (c.after.begin cfg).key = update.key := by rw [hcalled.key_after, hb₁, hkey]
  have hout := output_buildAll (some bound) hcalled.resting
    (n := n) (by omega)
    (by rw [hcalled.begin_after, viewUpdates_advance, hcalled.viewUpdates_after])
  rw [hkey'] at hout
  generalize c.after.buildAll cfg (some bound) n = cs at *
  have htomb (i : ι) : ∀ d ∈ cs, (d.output i).partitionTombstone = Tombstone.none := fun d hd => by
    rw [hout d hd i, (ViewUpdates.generateAll_spec _ _ _ _).1]
  have hwrites (i : ι) : cs.flatMap (fun d => (d.output i).writes) = (cs.flatMap Call.handled).flatMap
      ((cfg.views i).rowWrites Tombstone.none update.key) := by
    rw [flatMap_assoc]
    refine flatMap_congr fun d hd => ?_
    rw [hout d hd i, (ViewUpdates.generateAll_spec _ _ _ _).2]
    rfl
  constructor
  · intro h
    refine ⟨hpending.mp h.accounted, fun d hd x hx i => ?_⟩
    have hi := h.writes i
    rw [flatMap_cons, hcwrites, hwrites, hwtomb, hwwrites, ← h.handled, flatMap_cons,
      Generator.filter_writes_iff] at hi
    exact hi x (mem_flatMap.mpr ⟨d, hd, hx⟩)
  · rintro ⟨hp, hl⟩
    have hall : (c :: cs).flatMap Call.handled = whole.handled := (htrace hp).unique hwtrace
    refine ⟨fun i => ?_, fun i => ?_, hall, hpending.mpr hp⟩
    · rw [map_cons, foldl_cons, hctomb, hwtomb, Tombstone.apply_eq_max,
        max_eq_right (Tombstone.none_le _)]
      exact foldl_partitionTombstone _ (htomb i)
    · rw [flatMap_cons, hcwrites, hwrites, hwtomb, hwwrites, ← hall, flatMap_cons,
        Generator.filter_writes_iff]
      intro x hx
      obtain ⟨d, hd, hx⟩ := mem_flatMap.mp hx
      exact hl d hd x hx i

/-- Batches of view updates are together one call without a bound exactly when no batch is full
while a fragment of the other stream was read and not handled, and no later one writes a row that
the first one's partition tombstone would have left out and does not cover. -/
theorem batches_lossless_iff :
    ∃ whole, (Builder.init update existing).buildSome cfg none = some whole ∧
      (Lossless cfg update existing whole (batches cfg update existing bound) ↔
        (∀ c ∈ batches cfg update existing bound, c.NothingPending) ∧
        ∀ c ∈ (batches cfg update existing bound).tail, ∀ h ∈ c.handled, ∀ i,
          NotLeftOut cfg update i h) := by
  obtain ⟨whole, hwhole⟩ : ∃ c, (Builder.init update existing).buildSome cfg none = some c :=
    ⟨_, rfl⟩
  refine ⟨whole, hwhole, ?_⟩
  cases hskip : ((Builder.init update existing : Builder s PK P W ι).begin cfg).skipRowUpdates with
  | false => exact lossless_iff_of_not_skip cfg bound update existing hskip hwhole
  | true =>
    obtain ⟨hl, hfull⟩ := lossless_of_skip cfg bound update existing hskip hwhole
    refine iff_of_true hl ⟨fun c hc => Call.nothingPending_of_not_full (hfull c hc).1, ?_⟩
    intro c hc h hh
    rw [(hfull c (mem_of_mem_tail hc)).2] at hh
    cases hh

end

/-! ## A row that is forgotten -/

namespace ByValue

def schema : Schema := { staticColumns := [], regularColumns := [.atomic] }

def view : ViewInfo schema ℕ ℕ where
  keyColumn := some ⟨0, by decide⟩
  column _ := .selected
  isPartitionKeyPermutation := false
  matchesViewFilter _ _ _ _ := true

def config : Config schema ℕ ℕ (RowWrite schema ℕ ℕ) (Fin 1) where
  views _ := view.toGenerator 100
  now := 100
  gcBefore _ := 0

def row (p : ℕ) (timestamp : I64) (value : Bytes) : Fragment schema ℕ :=
  .clusteringRow p ⟨RowTombstone.none, { timestamp }, fun
    | ⟨0, _⟩ => some (AtomicCell.live timestamp value)⟩

def update : PartitionStream schema ℕ ℕ := ⟨0, Tombstone.none, [row 1 10 [7], row 2 10 [6]]⟩

def existing : PartitionStream schema ℕ ℕ := ⟨0, Tombstone.none, [row 2 5 [5]]⟩

/-- Where there are no rows yet, two batches of one operation each and an empty one lose nothing. -/
theorem batches_lossless_fresh :
    ∃ whole, (Builder.init update none).buildSome config none = some whole ∧
      (batches config update none 1).map (fun c => (c.output 0).writes.length) = [1, 1, 0] ∧
      Lossless config update none whole (batches config update none 1) := by
  obtain ⟨whole, hwhole, hiff⟩ := batches_lossless_iff config 1 update none
  refine ⟨whole, hwhole, by decide, hiff.mpr ⟨?_, fun _ _ _ _ _ => rfl⟩⟩
  have hcalls : ∃ c d e, batches config update none 1 = [c, d, e] ∧ c.NothingPending ∧
      d.NothingPending ∧ e.NothingPending := ⟨_, _, _, rfl, rfl, rfl, trivial⟩
  obtain ⟨c, d, e, hcalls, hc, hd, he⟩ := hcalls
  rw [hcalls]
  simp [hc, hd, he]

/-- With one operation per batch the existing row is read in the first batch and gone in the second,
which does not delete the old view row. -/
theorem batches_not_lossless :
    ∃ whole, (Builder.init update (some existing)).buildSome config none = some whole ∧
      ¬ Lossless config update (some existing) whole (batches config update (some existing) 1) :=
  ⟨_, rfl, fun h => absurd (congrArg length (h.writes 0)) (by decide)⟩

end ByValue

end Scylla.View
