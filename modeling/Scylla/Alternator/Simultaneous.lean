import Scylla.Alternator.UpdateItem

/-!
# An update expression as a simultaneous assignment

An update expression is meant to evaluate all its right-hand sides on the previous item and then to
change the item at all its paths at once, and to be rejected exactly if two paths overlap or
conflict or if an action is not valid for the previous item.

Two kinds of actions that are not valid are let pass: a right-hand side that reads a missing
attribute writes the JSON null inside of a document, and a DELETE from a missing attribute does not
look at its operand. An ADD or DELETE on sets goes wrong with strings that are taken for the same.
On the other side a request is also rejected if it has no actions, changes a key, or has values that
cannot be stored. Exactly if none of this decides the fate of the request it is `Faithful`, a
simultaneous assignment.
-/

namespace Scylla.Alternator

open List

variable {D : Type} (sc : Scalars D) (it : Iteration) (schema : Schema) (item : Option Item)

def SomeClash (actions : List Action) : Prop :=
  ∃ (i j : ℕ) (a b : Action), i < j ∧ actions[i]? = some a ∧ actions[j]? = some b ∧
    (Overlap a.path.full b.path.full ∨ Conflict a.path.full b.path.full)

/-- The action is not valid: its path leads through something missing or of another type, or it
cannot be performed. -/
def Action.Invalid (doc : Value) (a : Action) : Prop :=
  ¬ Value.Reaches a.path.full (some doc) ∨ a.perform sc doc = none

def intended (doc : Value) (actions : List Action) (p : List PathOp) : Option (Option Value) :=
  (actions.find? fun a => a.path.full = p).bind fun a => a.perform sc doc

/-- The request is rejected exactly for clashing paths and invalid actions, and otherwise performs
all actions on the previous item at once and writes well-formed values. -/
structure SimultaneousAssignment (actions : List Action) : Prop where
  rejected_iff : (∃ e, updateItem sc it schema item actions = .error e) ↔
    SomeClash actions ∨ ∃ a ∈ actions, a.Invalid sc (document item)
  performed : ∀ m, updateItem sc it schema item actions = .ok m →
    Performed (intended sc (document item) actions) (some (document item))
      (some (.m (m.applyTo (item.getD []))))
  wellFormed : ∀ m, updateItem sc it schema item actions = .ok m →
    ∀ cell ∈ m.cells, ∀ v, cell.2 = some v → v.WellFormed

/-- An invalid action that is not noticed: a missing attribute assigned inside of a document, or a
DELETE of no set from a missing attribute. -/
def Action.Missed (doc : Value) (a : Action) : Prop :=
  Value.Reaches a.path.full (some doc) ∧
    (a.path.operators ≠ [] ∧ a.AssignsMissing sc doc ∨ a.DeletesNonSet doc)

/-- An action on a key, on a part of the key of an index, or whose value cannot be stored; a DELETE
that leaves nothing stores nothing. -/
def Action.Unstorable (doc : Value) (a : Action) : Prop :=
  (schema.column a.path.root).any (·.primaryKey) = true ∨
    (a.path.operators ≠ [] ∧ schema.column a.path.root ≠ none) ∨
    (a.path.operators = [] ∧ ¬ a.Empties doc ∧ ∃ v e, a.perform sc doc = some (some v) ∧
      storedValue sc schema a.path.root v = .error e)

/-- There are actions; a missed one comes with a fault that is noticed, and so do what cannot be
stored and strings that are taken for the same. -/
structure Faithful (actions : List Action) : Prop where
  nonempty : actions ≠ []
  missed : (∃ a ∈ actions, a.Missed sc (document item)) →
    SomeClash actions ∨
      (∃ a ∈ actions, a.Invalid sc (document item) ∧ ¬ a.Missed sc (document item)) ∨
      ∃ a ∈ actions, a.Unstorable sc schema (document item)
  unstorable : (∃ a ∈ actions, a.Unstorable sc schema (document item)) →
    SomeClash actions ∨ ∃ a ∈ actions, a.Invalid sc (document item)
  confused : (∃ a ∈ actions, a.Confuses (document item)) →
    SomeClash actions ∨ ∃ a ∈ actions, a.Invalid sc (document item)

section Proof

variable {sc : Scalars D} {it : Iteration} {schema : Schema} {item : Option Item}
  {actions : List Action}

theorem someClash_iff :
    SomeClash actions ↔ ¬ actions.Pairwise fun a b => ¬ Clashing Action.path a b := by
  rw [pairwise_iff_getElem]
  push Not
  constructor
  · rintro ⟨i, j, a, b, hij, hi, hj, hclash⟩
    obtain ⟨hi', rfl⟩ := List.getElem?_eq_some_iff.mp hi
    obtain ⟨hj', rfl⟩ := List.getElem?_eq_some_iff.mp hj
    exact ⟨i, j, hi', hj', hij, hclash⟩
  · rintro ⟨i, j, hi, hj, hij, hclash⟩
    exact ⟨i, j, _, _, hij, List.getElem?_eq_getElem hi, List.getElem?_eq_getElem hj, hclash⟩

variable {a : Action} {doc : Value}

theorem Action.AssignsMissing.perform_eq_none (h : a.AssignsMissing sc doc) :
    a.perform sc doc = none := by
  obtain ⟨rhs, hrhs, hmissing⟩ := h
  simp [Action.perform, hrhs, hmissing]

theorem Action.DeletesNonSet.perform_eq_none (h : a.DeletesNonSet doc) :
    a.perform sc doc = none := by
  obtain ⟨c, hc, hset, hget⟩ := h
  cases c <;> simp_all [Action.perform, performDel, unwrapSet]

/-- Without confused strings, a DELETE that leaves nothing has nothing to leave. -/
theorem Action.not_empties {v : Value} (hperform : a.perform sc doc = some (some v))
    (hconf : ¬ a.Confuses doc) : ¬ a.Empties doc := by
  rintro ⟨t, set1, set2, hsets, hall⟩
  have hnil : differenceElements set1 set2 = [] := by
    refine eq_nil_iff_forall_not_mem.mpr fun x hx => ?_
    obtain ⟨hx1, hx2⟩ := mem_differenceElements.mp hx
    obtain ⟨y, hy, hxy⟩ := hall x hx1
    refine hconf ⟨t, set1, set2, .inr ⟨hsets, x, hx1, hx2, y, mem_append_right _ hy, hxy, ?_⟩⟩
    rintro rfl
    exact hx2 hy
  rw [Action.perform, hsets.1, hsets.2] at hperform
  simp only [performDel, if_pos, hnil, nonemptySet, isEmpty_nil] at hperform
  cases hperform

theorem Action.Missed.perform_eq_none (h : a.Missed sc doc) : a.perform sc doc = none :=
  h.2.elim (fun h => h.2.perform_eq_none) fun h => h.perform_eq_none

/-- What is refused is what is invalid and noticed, and what cannot be stored. -/
theorem Action.refused_iff (h : (document item).WellFormed) (ha : a.WellFormed) :
    a.Refused sc schema item ↔
      (a.Invalid sc (document item) ∧ ¬ a.Missed sc (document item)) ∨
        a.Unstorable sc schema (document item) := by
  have hspec : a.Result sc (document item) (actionResult sc item a) := actionResult_spec h ha
  have hmissed : ∀ {w}, a.perform sc (document item) = some w → ¬ a.Missed sc (document item) :=
    fun hperform hm => Option.some_ne_none _ (hperform.symm.trans hm.perform_eq_none)
  have hrefused {r : Option Value} (hresult : actionResult sc item a = .ok r) :
      a.Refused sc schema item ↔ (schema.column a.path.root).any (·.primaryKey) = true ∨
        ¬ Value.Reaches a.path.full (some (document item)) ∨
        (a.path.operators ≠ [] ∧ schema.column a.path.root ≠ none) ∨
        (a.path.operators = [] ∧ ∃ v e, r = some v ∧
          storedValue sc schema a.path.root v = .error e) := by
    simp only [Action.Refused, hresult, reduceCtorEq, exists_false, false_or, Except.ok.injEq]
  -- a value that is performed is stored where what is meant is stored
  have hperformed {r w : Option Value} (hresult : actionResult sc item a = .ok r)
      (hperform : a.perform sc (document item) = some w)
      (hstored : (∃ v e, r = some v ∧ storedValue sc schema a.path.root v = .error e) ↔
        ¬ a.Empties (document item) ∧
          ∃ v e, w = some v ∧ storedValue sc schema a.path.root v = .error e) :
      a.Refused sc schema item ↔
        (a.Invalid sc (document item) ∧ ¬ a.Missed sc (document item)) ∨
          a.Unstorable sc schema (document item) := by
    rw [hrefused hresult, hstored]
    simp only [Action.Invalid, Action.Unstorable, hperform, hmissed hperform, Option.some.injEq,
      reduceCtorEq, or_false, not_false_eq_true, and_true]
    exact or_left_comm
  cases hresult : actionResult sc item a with
  | error e =>
    rw [hresult] at hspec
    cases hspec with
    | invalid _ hperform hset hdel =>
      refine iff_of_true (.inr (.inr (.inl ⟨e, hresult⟩))) (.inl ⟨.inr hperform, ?_⟩)
      rintro ⟨-, ⟨-, hmissing⟩ | hdeletes⟩
      · exact hset hmissing
      · exact hdel hdeletes
  | ok r =>
    rw [hresult] at hspec
    cases hspec with
    | valid hperform hconf =>
      refine hperformed hresult hperform (and_iff_right_of_imp ?_).symm
      rintro ⟨v, e, rfl, -⟩
      exact Action.not_empties hperform hconf
    | confuses _ hperform _ hempties =>
      refine hperformed hresult hperform ?_
      rcases hempties with ⟨hemp, rfl⟩ | ⟨hemp, elements, rfl⟩
      · simp [hemp]
      · simp [hemp, storedValue_set]
    | assignsMissing hmissing =>
      have hdel : ¬ a.DeletesNonSet (document item) := by
        rintro ⟨c, hc, -⟩
        obtain ⟨rhs, hrhs, -⟩ := hmissing
        cases hrhs.symm.trans hc
      have hstored : ∃ v e, some Value.null = some v ∧
          storedValue sc schema a.path.root v = .error e :=
        ⟨.null, (storedValue_null _).imp fun e he => ⟨rfl, he⟩⟩
      rw [hrefused hresult]
      simp only [Action.Invalid, Action.Unstorable, Action.Missed, hmissing.perform_eq_none,
        hmissing, hdel, hstored, reduceCtorEq, false_and, exists_false, or_true, true_and, and_true,
        and_false, or_false, not_and_or, ne_eq, not_not]
      exact iff_of_eq (by ac_rfl)
    | deletesNonSet hdel =>
      have hperform : a.perform sc (document item) = none := hdel.perform_eq_none
      rw [hrefused hresult]
      simp only [Action.Invalid, Action.Unstorable, Action.Missed, hperform, hdel, reduceCtorEq,
        false_and, exists_false, or_true, true_and, and_true, and_false, or_false]
      exact or_left_comm

section

variable (h : (document item).WellFormed) (hactions : ∀ a ∈ actions, a.WellFormed)

include h hactions

/-- A request is rejected for having no actions, for what is wrong and noticed, and for what cannot
be stored. -/
theorem rejected_iff :
    (∃ e, updateItem sc it schema item actions = .error e) ↔
      actions = [] ∨ SomeClash actions ∨
        (∃ a ∈ actions, a.Invalid sc (document item) ∧ ¬ a.Missed sc (document item)) ∨
        ∃ a ∈ actions, a.Unstorable sc schema (document item) := by
  have hrefused : (∃ a ∈ actions, a.Refused sc schema item) ↔
      (∃ a ∈ actions, a.Invalid sc (document item) ∧ ¬ a.Missed sc (document item)) ∨
        ∃ a ∈ actions, a.Unstorable sc schema (document item) := by
    rw [← exists_or]
    refine exists_congr fun a => ?_
    rw [← and_or_left]
    exact and_congr_right fun ha => Action.refused_iff h (hactions a ha)
  rw [updateItem_error_iff h, someClash_iff, hrefused]

/-- A valid action evaluates to what it is meant to put at its path, unless it confuses strings; and
to nothing if it is meant to leave nothing. -/
theorem actionResult_of_valid (ha : a ∈ actions) (hvalid : ¬ a.Invalid sc (document item)) :
    ∃ r w, actionResult sc item a = .ok r ∧ a.perform sc (document item) = some w ∧
      (w = none → r = none) ∧ (r = w ↔ ¬ a.Confuses (document item)) := by
  have hperform : a.perform sc (document item) ≠ none := fun hnone => hvalid (.inr hnone)
  have hspec : a.Result sc (document item) (actionResult sc item a) :=
    actionResult_spec h (hactions a ha)
  cases hresult : actionResult sc item a with
  | error e =>
    rw [hresult] at hspec
    cases hspec with
    | invalid _ hnone _ _ => exact (hperform hnone).elim
  | ok r =>
    rw [hresult] at hspec
    cases hspec with
    | valid hr hconf => exact ⟨r, r, rfl, hr, id, iff_of_true rfl hconf⟩
    | confuses hconf hw hne _ => exact ⟨r, _, rfl, hw, nofun, iff_of_false hne (not_not.mpr hconf)⟩
    | assignsMissing hmissing => exact (hperform hmissing.perform_eq_none).elim
    | deletesNonSet hdel => exact (hperform hdel.perform_eq_none).elim

section Outcomes

variable {map : PathMap Action} (hm : map.Holds Action.path actions)

include hm

variable (sc item) in
omit h hactions in
/-- What is done and what is meant at a path: nothing, or what the action there evaluates to. -/
theorem outcomes_cases (p : List PathOp) :
    (outcomes sc item map.toNode p = none ∧ intended sc (document item) actions p = none) ∨
      ∃ a ∈ actions, outcomes sc item map.toNode p = (actionResult sc item a).toOption ∧
        intended sc (document item) actions p = a.perform sc (document item) := by
  rw [outcomes, intended]
  cases hfind : actions.find? fun a => a.path.full = p with
  | none =>
    refine .inl ⟨Option.bind_eq_none_iff.mpr fun a ha => ?_, rfl⟩
    obtain ⟨hmem, hpath⟩ := (hm.find_iff p a).mp ha
    exact (List.find?_eq_none.mp hfind a hmem (decide_eq_true hpath)).elim
  | some a =>
    have hmem := mem_of_find?_eq_some hfind
    have hpath : a.path.full = p := of_decide_eq_true (List.find?_some hfind :)
    rw [(hm.find_iff p a).mpr ⟨hmem, hpath⟩]
    exact .inr ⟨a, hmem, rfl, rfl⟩

variable (sc item) in
omit h hactions in
theorem outcomes_at (ha : a ∈ actions) :
    outcomes sc item map.toNode a.path.full = (actionResult sc item a).toOption ∧
      intended sc (document item) actions a.path.full = a.perform sc (document item) := by
  have hsome : map.toNode.find a.path.full = some a := (hm.find_iff _ a).mpr ⟨ha, rfl⟩
  refine ⟨by rw [outcomes, hsome]; rfl, ?_⟩
  rw [intended]
  cases hfind : actions.find? fun b => b.path.full = a.path.full with
  | none => exact (List.find?_eq_none.mp hfind a ha (decide_eq_true rfl)).elim
  | some b =>
    have hb : map.toNode.find a.path.full = some b :=
      (hm.find_iff _ b).mpr ⟨mem_of_find?_eq_some hfind, of_decide_eq_true (List.find?_some hfind :)⟩
    obtain rfl := Option.some.inj (hsome.symm.trans hb)
    rfl

variable (hvalid : ¬ ∃ a ∈ actions, a.Invalid sc (document item))

include hvalid

theorem takesMore_outcomes :
    TakesMore (outcomes sc item map.toNode) (intended sc (document item) actions) := by
  intro p
  obtain ⟨ho, hi⟩ | ⟨a, ha, ho, hi⟩ := outcomes_cases sc item hm p
  · rw [ho, hi]
    exact ⟨Iff.rfl, id⟩
  · obtain ⟨r, w, hr, hw, hnone, -⟩ := actionResult_of_valid h hactions ha fun hinv =>
      hvalid ⟨a, ha, hinv⟩
    rw [ho, hi, hr, hw]
    refine ⟨iff_of_false nofun nofun, fun hw => ?_⟩
    rw [hnone (Option.some.inj hw)]
    rfl

/-- If all actions are valid, they put at their paths what is meant exactly if no strings are
confused. -/
theorem outcomes_eq_intended_iff :
    outcomes sc item map.toNode = intended sc (document item) actions ↔
      ¬ ∃ a ∈ actions, a.Confuses (document item) := by
  have hresult : ∀ a ∈ actions, ((actionResult sc item a).toOption = a.perform sc (document item) ↔
      ¬ a.Confuses (document item)) := by
    intro a ha
    obtain ⟨r, w, hr, hw, -, hiff⟩ := actionResult_of_valid h hactions ha fun hinv =>
      hvalid ⟨a, ha, hinv⟩
    rw [hr, hw, ← hiff]
    exact Option.some_inj
  constructor
  · rintro heq ⟨a, ha, hconf⟩
    obtain ⟨ho, hi⟩ := outcomes_at sc item hm ha
    exact (hresult a ha).mp (ho.symm.trans ((congrFun heq _).trans hi)) hconf
  · intro hno
    funext p
    obtain ⟨ho, hi⟩ | ⟨a, ha, ho, hi⟩ := outcomes_cases sc item hm p
    · rw [ho, hi]
    · rw [ho, hi]
      exact (hresult a ha).mpr fun hconf => hno ⟨a, ha, hconf⟩

end Outcomes

end

private theorem exists_invalid_iff :
    (∃ a ∈ actions, a.Invalid sc (document item)) ↔
      (∃ a ∈ actions, a.Invalid sc (document item) ∧ ¬ a.Missed sc (document item)) ∨
        ∃ a ∈ actions, a.Missed sc (document item) := by
  have hinvalid {a : Action} (h : a.Missed sc (document item)) : a.Invalid sc (document item) :=
    .inr h.perform_eq_none
  grind

private theorem not_someClash_nil : ¬ SomeClash [] := by
  simp [SomeClash]

/-- When what a request is rejected for is what it should be rejected for. -/
private theorem rejection_iff {empty clash noticed missed unstorable : Prop}
    (hempty : empty → ¬ clash ∧ ¬ noticed ∧ ¬ missed) :
    (empty ∨ clash ∨ noticed ∨ unstorable ↔ clash ∨ noticed ∨ missed) ↔
      ¬ empty ∧ (missed → clash ∨ noticed ∨ unstorable) ∧
        (unstorable → clash ∨ noticed ∨ missed) := by
  grind

/-- The rejections are right, and no strings are confused where the request is performed. -/
theorem faithful_iff (h : (document item).WellFormed) (hactions : ∀ a ∈ actions, a.WellFormed) :
    Faithful sc schema item actions ↔
      ((∃ e, updateItem sc it schema item actions = .error e) ↔
        SomeClash actions ∨ ∃ a ∈ actions, a.Invalid sc (document item)) ∧
      ((∃ a ∈ actions, a.Confuses (document item)) →
        SomeClash actions ∨ ∃ a ∈ actions, a.Invalid sc (document item)) := by
  rw [rejected_iff h hactions, exists_invalid_iff, rejection_iff]
  · constructor
    · rintro ⟨hne, hmissed, hunstorable, hconfused⟩
      rw [exists_invalid_iff] at hunstorable hconfused
      exact ⟨⟨hne, hmissed, hunstorable⟩, hconfused⟩
    · rintro ⟨⟨hne, hmissed, hunstorable⟩, hconfused⟩
      rw [← exists_invalid_iff] at hunstorable hconfused
      exact ⟨hne, hmissed, hunstorable, hconfused⟩
  · rintro rfl
    exact ⟨not_someClash_nil, nofun, nofun⟩

theorem SimultaneousAssignment.not_bad {m : Mutation}
    (hiff : (∃ e, updateItem sc it schema item actions = .error e) ↔
      SomeClash actions ∨ ∃ a ∈ actions, a.Invalid sc (document item))
    (hm : updateItem sc it schema item actions = .ok m) :
    ¬ (SomeClash actions ∨ ∃ a ∈ actions, a.Invalid sc (document item)) := by
  exact fun hbad => (hiff.mpr hbad).elim fun e he => nomatch hm.symm.trans he

theorem SimultaneousAssignment.faithful (h : (document item).WellFormed)
    (hactions : ∀ a ∈ actions, a.WellFormed)
    (hs : SimultaneousAssignment sc it schema item actions) : Faithful sc schema item actions := by
  refine (faithful_iff h hactions).mpr ⟨hs.rejected_iff, fun hconf => ?_⟩
  cases hm : updateItem sc it schema item actions with
  | error e => exact hs.rejected_iff.mp ⟨e, hm⟩
  | ok m =>
    -- what was done and what was meant make the same of the item, so they are the same
    have hok := (not_or.mp (not_bad hs.rejected_iff hm)).2
    obtain ⟨-, map, hholds, hperf⟩ := performed_of_updateItem h hm
    have heq := hperf.unique (hs.performed m hm) (takesMore_outcomes h hactions hholds hok) rfl
    exact ((outcomes_eq_intended_iff h hactions hholds hok).mp heq hconf).elim

end Proof

/-! ## Three requests -/

/-- The containers are walked in the order of their keys. -/
def Iteration.inOrder : Iteration := ⟨id, fun _ => .refl _⟩

end Scylla.Alternator
