import Scylla.Alternator.ElementOrder
import Scylla.Alternator.Value

/-!
# Evaluating the actions of an update expression

An attribute that does not exist evaluates to the JSON null. `denote` and `Action.perform` say what
the expressions mean, with a missing attribute and an action that is not valid told apart from
values; the two are compared for well-formed items.
-/

namespace Scylla.Alternator

open Option

/-! ## Errors -/

/-- Why `parse_and_validate_number` rejects a string. -/
inductive NumberError where
  | overflow
  | underflow
  | tooPrecise
  | notNumeric

/-- The errors a request can be answered with, with the data their texts print. -/
inductive ApiError where
  /-- "Empty expression in UpdateExpression is not allowed" -/
  | emptyExpression
  /-- "Invalid UpdateExpression: two document paths overlap at {}" -/
  | pathsOverlap (p : Path)
  /-- "Invalid UpdateExpression: two document paths conflict at {}" -/
  | pathsConflict (p : Path)
  /-- "UpdateExpression: malformed item read: {}" -/
  | malformedItemRead (item : Item)
  /-- "Malformed value object read: {}" -/
  | malformedValueRead (v : Value)
  /-- "Item has invalid format: {}" -/
  | invalidFormat (v : Value)
  /-- "UpdateExpression: {}() not allowed here" -/
  | notAllowedHere (function : String)
  /-- "UpdateExpression: {}() accepts 2 parameters, got {}" -/
  | parameterCount (function : String) (got : ℕ)
  /-- "UpdateExpression: if_not_exists() must include path as its first argument" -/
  | firstArgumentNotPath
  /-- "UpdateExpression: list_append() given a non-list" -/
  | appendNonList
  /-- "UpdateExpression: unknown function '{}' called." -/
  | unknownFunction (function : String)
  /-- "UpdateExpression: invalid number object" -/
  | invalidNumberObject
  /-- "UpdateExpression: expected number, found type '{}'" -/
  | expectedNumber (found : String)
  /-- The errors of `parse_and_validate_number`. -/
  | number (e : NumberError) (s : String)
  /-- "Invalid base64 data" -/
  | invalidBase64
  /-- "An operand in the update expression has an incorrect data type: {}" -/
  | incorrectDataType (v : Value)
  /-- "Incorrect operand type for operator or function. Expected {}: {}" -/
  | incorrectOperandType (expected : String) (v : Value)
  /-- "Mismatched set types: {} and {}" -/
  | mismatchedSetTypes (t1 t2 : String)
  /-- "UpdateExpression: ADD operation for sets must be given sets as arguments" -/
  | addNotSets
  /-- "Set DELETE type mismatch: {} and {}" -/
  | deleteTypeMismatch (t1 t2 : String)
  /-- "UpdateExpression: DELETE operation can only be performed on a set" -/
  | deleteNotSet
  /-- "UpdateExpression: document paths not valid for this item:{}" -/
  | pathsNotValid (paths : List Path)
  /-- "UpdateItem cannot update key column {}" -/
  | keyColumn (name : String)
  /-- "UpdateItem cannot update nested document path on non-existent item" -/
  | nestedOnMissingItem
  /-- "UpdateItem cannot update document path: missing attribute {}" -/
  | missingAttribute (name : String)
  /-- "An item can contain only one attribute definition: {}" -/
  | oneAttributeDefinition (v : Value)
  /-- "Malformed value object for key column {}: {}" -/
  | malformedKeyValue (name : String) (v : Value)
  /-- "Type mismatch: expected type {} for key column {}, got type {}" -/
  | keyTypeMismatch (expected name got : String)
  /-- "The AttributeValue for a key attribute cannot contain an empty string value. Key: {}" -/
  | emptyKeyValue (name : String)

/-- The decimal numbers and the encoding of bytes, which are left open. -/
structure Scalars (D : Type) where
  parseAndValidateNumber : String → Except NumberError D
  add : D → D → D
  sub : D → D → D
  toString : D → String
  /-- `base64_decode` accepts the string. -/
  isBase64 : String → Bool

/-! ## Operations on values -/

def getItemTypeString (v : Value) : Except ApiError String :=
  if v.isNull then .error (.invalidFormat v) else .ok v.typeName

section Operations

variable {D : Type} (sc : Scalars D)

def unwrapNumber : Value → Except ApiError D
  | .null => .error .invalidNumberObject
  | .n s =>
    match sc.parseAndValidateNumber s with
    | .ok d => .ok d
    | .error e => .error (.number e s)
  | v => .error (.expectedNumber v.typeName)

def numberAdd (v1 v2 : Value) : Except ApiError Value := do
  let n1 ← unwrapNumber sc v1
  let n2 ← unwrapNumber sc v2
  return .n (sc.toString (sc.add n1 n2))

def numberSubtract (v1 v2 : Value) : Except ApiError Value := do
  let n1 ← unwrapNumber sc v1
  let n2 ← unwrapNumber sc v2
  return .n (sc.toString (sc.sub n1 n2))

end Operations

def unwrapSet : Value → String × Option (SetType × List String)
  | .set t elements => (t.name, some (t, elements))
  | v => (v.typeName, none)

/-- A set with the given elements. There are no empty sets. -/
def nonemptySet (t : SetType) (elements : List String) : Option Value :=
  if elements.isEmpty then none else some (.set t elements)

def setSum (v1 v2 : Value) : Except ApiError Value :=
  if (unwrapSet v1).1 ≠ (unwrapSet v2).1 then
    .error (.mismatchedSetTypes (unwrapSet v1).1 (unwrapSet v2).1)
  else
    match (unwrapSet v1).2, (unwrapSet v2).2 with
    | some (t, set1), some (_, set2) => .ok (.set t (sumElements set1 set2))
    | _, _ => .error .addNotSets

def setDiff (v1 v2 : Value) : Except ApiError (Option Value) :=
  if (unwrapSet v1).1 ≠ (unwrapSet v2).1 then
    .error (.deleteTypeMismatch (unwrapSet v1).1 (unwrapSet v2).1)
  else
    match (unwrapSet v1).2, (unwrapSet v2).2 with
    | some (t, set1), some (_, set2) => .ok (nonemptySet t (diffElements set1 set2))
    | _, _ => .error .deleteNotSet

def listConcatenate : Value → Value → Value
  | .l list1, .l list2 => .l (list1 ++ list2)
  | _, _ => .null

/-! ## Expressions -/

/-- A value on the right-hand side of an assignment, with its constants resolved. -/
inductive ParsedValue where
  | constant (c : Value)
  | path (p : Path)
  | functionCall (name : String) (parameters : List ParsedValue)

inductive SetRhs where
  | value (v1 : ParsedValue)
  | plus (v1 v2 : ParsedValue)
  | minus (v1 v2 : ParsedValue)

inductive ActionKind where
  | set (rhs : SetRhs)
  | remove
  | add (valref : Value)
  | del (valref : Value)

structure Action where
  path : Path
  action : ActionKind

/-- `extract_path`, from the value of the top-level attribute on. -/
def extractOperators (item : Item) : List PathOp → Value → Except ApiError Value
  | [], v => .ok v
  | _ :: _, .null => .error (.malformedItemRead item)
  | .member k :: ops, .m ms =>
    match ms.lookup k with
    | some v => extractOperators item ops v
    | none => .ok .null
  | .index i :: ops, .l xs =>
    match xs[i]? with
    | some v => extractOperators item ops v
    | none => .ok .null
  | _ :: _, _ => .ok .null

def extractPath (item : Option Item) (p : Path) : Except ApiError Value :=
  match item with
  | none => .ok .null
  | some item =>
    match item.lookup p.root with
    | none => .ok .null
    | some v => extractOperators item p.operators v

def calculateValue (item : Option Item) : ParsedValue → Except ApiError Value
  | .constant c => .ok c
  | .path p => extractPath item p
  | .functionCall name parameters =>
    if name = "list_append" then
      match parameters with
      | [v1, v2] => do
        let v1 ← calculateValue item v1
        let v2 ← calculateValue item v2
        let ret := listConcatenate v1 v2
        if ret.isNull then .error .appendNonList else .ok ret
      | _ => .error (.parameterCount name parameters.length)
    else if name = "if_not_exists" then
      match parameters with
      | [.path p, v2] => do
        let v1 ← extractPath item p
        let v2 ← calculateValue item v2
        return if v1.isNull then v2 else v1
      | [_, _] => .error .firstArgumentNotPath
      | _ => .error (.parameterCount name parameters.length)
    else if name ∈ ["size", "attribute_exists", "attribute_not_exists", "attribute_type",
        "begins_with", "contains"] then
      .error (.notAllowedHere name)
    else .error (.unknownFunction name)

section Results

variable {D : Type} (sc : Scalars D)

def calculateRhs (item : Option Item) : SetRhs → Except ApiError Value
  | .value v1 => calculateValue item v1
  | .plus v1 v2 => do
    let v1 ← calculateValue item v1
    let v2 ← calculateValue item v2
    numberAdd sc v1 v2
  | .minus v1 v2 => do
    let v1 ← calculateValue item v1
    let v2 ← calculateValue item v2
    numberSubtract sc v1 v2

/-- The result of an ADD of `v2` to `v1`, which is null if there is nothing to add to. -/
def addResult (v1 v2 : Value) : Except ApiError Value :=
  if v1.isNull then do
    let v2Type ← getItemTypeString v2
    if v2Type = "N" ∨ v2Type = "SS" ∨ v2Type = "NS" ∨ v2Type = "BS" then .ok v2
    else .error (.incorrectDataType v2)
  else do
    let v1Type ← getItemTypeString v1
    if v1Type = "N" then
      if (← getItemTypeString v2) ≠ "N" then .error (.incorrectOperandType v1Type v2)
      else numberAdd sc v1 v2
    else if v1Type = "SS" ∨ v1Type = "NS" ∨ v1Type = "BS" then
      if (← getItemTypeString v2) ≠ v1Type then .error (.incorrectOperandType v1Type v2)
      else setSum v1 v2
    else .error (.incorrectDataType v1)

/-- `action_result`: the value to write, or none to delete. -/
def actionResult (item : Option Item) (a : Action) : Except ApiError (Option Value) :=
  match a.action with
  | .set rhs => (calculateRhs sc item rhs).map some
  | .remove => .ok none
  | .add v2 => do
    let v1 ← extractPath item a.path
    (addResult sc v1 v2).map some
  | .del v2 => do
    let v1 ← extractPath item a.path
    if v1.isNull then .ok none else setDiff v1 v2

end Results

/-! ## What the expressions mean -/

def appendLists : Option (Option Value) → Option (Option Value) → Option (Option Value)
  | some (some (.l list1)), some (some (.l list2)) => some (some (.l (list1 ++ list2)))
  | _, _ => none

/-- What a value stands for in a document; nothing if it names a missing attribute or calls a
function with other arguments than it takes. -/
def ParsedValue.denote (doc : Value) : ParsedValue → Option (Option Value)
  | .constant c => some (some c)
  | .path p => some (Value.get p.full (some doc))
  | .functionCall name parameters =>
    if name = "list_append" then
      match parameters with
      | [v1, v2] => appendLists (denote doc v1) (denote doc v2)
      | _ => none
    else if name = "if_not_exists" then
      match parameters with
      | [.path p, v2] => (denote doc v2).map fun r => (Value.get p.full (some doc)).or r
      | _ => none
    else none

section Meaning

variable {D : Type} (sc : Scalars D)

def onValues (op : Value → Value → Except ApiError Value) :
    Option (Option Value) → Option (Option Value) → Option (Option Value)
  | some (some v1), some (some v2) => (op v1 v2).toOption.map some
  | _, _ => none

def SetRhs.denote (doc : Value) : SetRhs → Option (Option Value)
  | .value v1 => v1.denote doc
  | .plus v1 v2 => onValues (numberAdd sc) (v1.denote doc) (v2.denote doc)
  | .minus v1 v2 => onValues (numberSubtract sc) (v1.denote doc) (v2.denote doc)

/-- ADD: the sum of two numbers, the union of two sets of strings. -/
def performAdd : Option Value → Value → Option Value
  | none, .n s => some (.n s)
  | none, .set t set2 => some (.set t set2)
  | some (.n s1), .n s2 => (numberAdd sc (.n s1) (.n s2)).toOption
  | some (.set t1 set1), .set t2 set2 =>
    if t1 = t2 then some (.set t1 (unionElements set1 set2)) else none
  | _, _ => none

/-- DELETE: the difference of two sets of strings, an empty one taking the attribute away. -/
def performDel : Option Value → Value → Option (Option Value)
  | none, .set _ _ => some none
  | some (.set t1 set1), .set t2 set2 =>
    if t1 = t2 then some (nonemptySet t1 (differenceElements set1 set2)) else none
  | _, _ => none

/-- What an action puts at its path, nothing taking the attribute away; none if it is not valid
here. -/
def Action.perform (doc : Value) (a : Action) : Option (Option Value) :=
  match a.action with
  | .set rhs => (rhs.denote sc doc).bind fun r => r.map some
  | .remove => some none
  | .add c => (performAdd sc (Value.get a.path.full (some doc)) c).map some
  | .del c => performDel (Value.get a.path.full (some doc)) c

/-- An assignment whose right-hand side stands for an attribute that does not exist. -/
def Action.AssignsMissing (doc : Value) (a : Action) : Prop :=
  ∃ rhs, a.action = .set rhs ∧ rhs.denote sc doc = some none

/-- A DELETE of something that is no set, from an attribute that does not exist. -/
def Action.DeletesNonSet (doc : Value) (a : Action) : Prop :=
  ∃ c, a.action = .del c ∧ (unwrapSet c).2 = none ∧ Value.get a.path.full (some doc) = none

/-- An action of the given kind on two sets of one type. -/
def Action.OnSets (doc : Value) (a : Action) (kind : Value → ActionKind) (t : SetType)
    (set1 set2 : List String) : Prop :=
  Value.get a.path.full (some doc) = some (.set t set1) ∧ a.action = kind (.set t set2)

/-- An ADD or DELETE on sets that has to do with strings that are taken for the same. -/
def Action.Confuses (doc : Value) (a : Action) : Prop :=
  ∃ t set1 set2, a.OnSets doc .add t set1 set2 ∧ AddConfuses set1 set2 ∨
    a.OnSets doc .del t set1 set2 ∧ DeleteConfuses set1 set2

/-- A DELETE that takes every element for one of its own and leaves nothing. -/
def Action.Empties (doc : Value) (a : Action) : Prop :=
  ∃ t set1 set2, a.OnSets doc .del t set1 set2 ∧ ∀ x ∈ set1, ∃ y ∈ set2, Confusable x y

end Meaning

/-! ## The evaluation has this meaning -/

inductive ParsedValue.WellFormed : ParsedValue → Prop
  | constant {c : Value} : c.WellFormed → WellFormed (.constant c)
  | path (p : Path) : WellFormed (.path p)
  | functionCall (name : String) {parameters : List ParsedValue} :
      (∀ v ∈ parameters, WellFormed v) → WellFormed (.functionCall name parameters)

def SetRhs.WellFormed : SetRhs → Prop
  | .value v1 => v1.WellFormed
  | .plus v1 v2 => v1.WellFormed ∧ v2.WellFormed
  | .minus v1 v2 => v1.WellFormed ∧ v2.WellFormed

def Action.WellFormed (a : Action) : Prop :=
  match a.action with
  | .set rhs => rhs.WellFormed
  | .remove => True
  | .add c => c.WellFormed
  | .del c => c.WellFormed

section Agreement

variable {item : Option Item}

theorem extractOperators_eq (attrs : Item) {v : Value} (h : v.WellFormed) (ops : List PathOp) :
    extractOperators attrs ops v = .ok ((Value.get ops (some v)).getD .null) := by
  induction ops generalizing v with
  | nil => rfl
  | cons op ops ih =>
    cases op with
    | member k =>
      cases h with
      | @m ms hnodup hms =>
        change (match ms.lookup k with
          | some v => extractOperators attrs ops v
          | none => .ok .null) = .ok ((Value.get ops (ms.lookup k)).getD .null)
        cases hk : ms.lookup k with
        | none => rw [Value.get_none, getD_none]
        | some u => exact ih (hms _ (mem_of_lookup hk))
      | _ => rfl
    | index i =>
      cases h with
      | @l xs hxs =>
        change (match xs[i]? with
          | some v => extractOperators attrs ops v
          | none => .ok .null) = .ok ((Value.get ops xs[i]?).getD .null)
        cases hi : xs[i]? with
        | none => rw [Value.get_none, getD_none]
        | some u => exact ih (hxs u (List.mem_of_getElem? hi))
      | _ => rfl

theorem extractPath_eq (h : (document item).WellFormed) (p : Path) :
    extractPath item p = .ok ((Value.get p.full (some (document item))).getD .null) := by
  change _ = Except.ok ((Value.get p.operators ((item.getD []).lookup p.root)).getD .null)
  cases item with
  | none =>
    rw [getD_none, List.lookup_nil, Value.get_none]
    rfl
  | some attrs =>
    rw [getD_some, extractPath]
    cases hk : attrs.lookup p.root with
    | none =>
      rw [Value.get_none]
      rfl
    | some v => exact extractOperators_eq attrs (h.lookup hk) p.operators

variable {r1 r2 : Option (Option Value)}

variable {doc w c : Value} {op : Value → Value → Except ApiError Value} {old : Option Value}
  {a : Action}

private theorem toOption_bind {ε α β : Type} (x : Except ε α) (f : α → Except ε β) :
    (x >>= f).toOption = x.toOption.bind fun a => (f a).toOption := by
  cases x <;> rfl

/-- The concatenation of what two values evaluate to, null being no list. -/
private theorem toOption_listConcatenate (r1 r2 : Option (Option Value)) :
    ((r1.map fun r => r.getD .null).bind fun v1 => (r2.map fun r => r.getD .null).bind fun v2 =>
      (if (listConcatenate v1 v2).isNull then Except.error ApiError.appendNonList
        else .ok (listConcatenate v1 v2)).toOption) =
      (appendLists r1 r2).map fun r => r.getD .null := by
  rcases r1 with _ | _ | v1
  · rfl
  · cases r2 <;> rfl
  · rcases r2 with _ | _ | v2 <;> cases v1 <;> first | rfl | (cases v2 <;> rfl)

/-- The evaluation gives the value that is meant, and null where there is none. -/
theorem calculateValue_eq (h : (document item).WellFormed) {v : ParsedValue} (hv : v.WellFormed) :
    (calculateValue item v).toOption =
      (v.denote (document item)).map fun r => r.getD .null := by
  fun_induction calculateValue item v with
  | case1 c => rfl
  | case2 p =>
    rw [extractPath_eq h]
    rfl
  | case3 v1 v2 ih1 ih2 =>
    cases hv with
    | functionCall _ hv =>
      rw [toOption_bind, ih1 (hv v1 (by simp))]
      simp only [toOption_bind, ih2 (hv v2 (by simp)), toOption_listConcatenate]
      rw [ParsedValue.denote, if_pos rfl]
  | case4 parameters hparams =>
    unfold ParsedValue.denote
    rw [if_pos rfl]
    split
    · exact (hparams _ _ rfl).elim
    · rfl
  | case5 p v2 hname ih =>
    cases hv with
    | functionCall _ hv =>
      have hv2 := ih (hv v2 (by simp))
      have hdenote : ParsedValue.denote (document item)
          (.functionCall "if_not_exists" [.path p, v2]) =
          (v2.denote (document item)).map fun r =>
            (Value.get p.full (some (document item))).or r := by
        rw [ParsedValue.denote, if_neg hname, if_pos rfl]
      rw [extractPath_eq h, toOption_bind, hdenote, map_map]
      simp only [toOption_bind, hv2]
      cases hget : Value.get p.full (some (document item)) with
      | none => cases v2.denote (document item) <;> rfl
      | some u =>
        have hnull := (h.get hget).isNull
        cases v2.denote (document item) with
        | none => rfl
        | some r => simp [Except.toOption, hnull, pure, Except.pure]
  | case6 v1 v2 hpath hname =>
    unfold ParsedValue.denote
    rw [if_neg hname, if_pos rfl]
    split
    next p _ heq => exact (hpath p (List.cons.inj heq).1).elim
    next => rfl
  | case7 parameters hpath hparams hname =>
    unfold ParsedValue.denote
    rw [if_neg hname, if_pos rfl]
    split
    · exact (hpath _ _ rfl).elim
    · rfl
  | case8 name _ h1 h2 | case9 name _ h1 h2 =>
    unfold ParsedValue.denote
    rw [if_neg h1, if_neg h2]
    rfl

variable {D : Type} {sc : Scalars D}

/-- `number_add` and `number_subtract`, by the operation on decimals. -/
private def onNumbers (sc : Scalars D) (f : D → D → D) (v1 v2 : Value) : Except ApiError Value := do
  let n1 ← unwrapNumber sc v1
  let n2 ← unwrapNumber sc v2
  return .n (sc.toString (f n1 n2))

variable {f : D → D → D}

/-- An operation that rejects null, on what two values evaluate to. -/
private theorem toOption_onValues (hleft : ∀ v, (op .null v).toOption = none)
    (hright : ∀ v, (op v .null).toOption = none) (r1 r2 : Option (Option Value)) :
    ((r1.map fun r => r.getD .null).bind fun v1 => (r2.map fun r => r.getD .null).bind fun v2 =>
      (op v1 v2).toOption) = (onValues op r1 r2).map fun r => r.getD .null := by
  rcases r1 with _ | _ | v1 <;> rcases r2 with _ | _ | v2 <;>
    simp [onValues, map_map, Function.comp_def, hleft, hright]

private theorem toOption_onNumbers (h : (document item).WellFormed) {v1 v2 : ParsedValue}
    (h1 : v1.WellFormed) (h2 : v2.WellFormed) :
    (do onNumbers sc f (← calculateValue item v1) (← calculateValue item v2)).toOption =
      (onValues (onNumbers sc f) (v1.denote (document item)) (v2.denote (document item))).map
        fun r => r.getD .null := by
  rw [← toOption_onValues (fun _ => rfl), ← calculateValue_eq h h1, ← calculateValue_eq h h2]
  · simp only [toOption_bind]
  · intro v
    rw [onNumbers, toOption_bind]
    cases (unwrapNumber sc v).toOption <;> rfl

/-- The evaluation of a right-hand side, with null for a missing attribute. -/
theorem calculateRhs_eq (h : (document item).WellFormed) {rhs : SetRhs} (hrhs : rhs.WellFormed) :
    (calculateRhs sc item rhs).toOption =
      (rhs.denote sc (document item)).map fun r => r.getD .null := by
  cases rhs with
  | value v1 => exact calculateValue_eq h hrhs
  | plus v1 v2 | minus v1 v2 => exact toOption_onNumbers h hrhs.1 hrhs.2

/-! ## The results of actions -/

theorem addResult_set (t : SetType) (set1 set2 : List String) :
    addResult sc (.set t set1) (.set t set2) = .ok (.set t (sumElements set1 set2)) := by
  cases t <;> rfl

theorem setDiff_set (t : SetType) (set1 set2 : List String) :
    setDiff (.set t set1) (.set t set2) = .ok (nonemptySet t (diffElements set1 set2)) := by
  cases t <;> rfl

private theorem toOption_addResult (hold : ∀ v, old = some v → v.WellFormed) (hc : c.WellFormed)
    (hno : ∀ t set1 set2, old = some (.set t set1) → c = .set t set2 → ¬AddConfuses set1 set2) :
    (addResult sc (old.getD .null) c).toOption = performAdd sc old c := by
  rcases old with _ | u
  · cases hc with
    | set t set2 => cases t <;> rfl
    | _ => rfl
  · cases hold u rfl with
    | set t1 set1 =>
      cases hc with
      | set t2 set2 =>
        by_cases ht : t1 = t2
        · subst ht
          rw [getD_some, addResult_set, sumElements_eq_iff.mpr (hno t1 set1 set2 rfl rfl),
            performAdd, if_pos rfl]
          rfl
        · rw [performAdd, if_neg ht]
          cases t1 <;> cases t2 <;> first | rfl | exact (ht rfl).elim
      | _ => cases t1 <;> rfl
    | _ =>
      cases hc with
      | set t set2 => cases t <;> rfl
      | _ => rfl

private theorem toOption_setDiff {u : Value} (hu : u.WellFormed) (hc : c.WellFormed)
    (hno : ∀ t set1 set2, u = .set t set1 → c = .set t set2 → ¬DeleteConfuses set1 set2) :
    (setDiff u c).toOption = performDel (some u) c := by
  cases hu with
  | set t1 set1 =>
    cases hc with
    | set t2 set2 =>
      by_cases ht : t1 = t2
      · subst ht
        rw [setDiff_set, diffElements_eq_iff.mpr (hno t1 set1 set2 rfl rfl), performDel, if_pos rfl]
        rfl
      · rw [performDel, if_neg ht]
        cases t1 <;> cases t2 <;> first | rfl | exact (ht rfl).elim
    | _ => cases t1 <;> rfl
  | _ =>
    cases hc with
    | set t2 set2 => cases t2 <;> rfl
    | _ => rfl

/-- What an action evaluates to, by what it puts at its path. -/
inductive Action.Result (sc : Scalars D) (doc : Value) (a : Action) :
    Except ApiError (Option Value) → Prop
  | valid {r : Option Value} : a.perform sc doc = some r → ¬ a.Confuses doc → Result sc doc a (.ok r)
  | confuses {r : Option Value} {t : SetType} {es : List String} : a.Confuses doc →
      a.perform sc doc = some (some (.set t es)) → r ≠ some (.set t es) →
      (a.Empties doc ∧ r = none ∨ ¬ a.Empties doc ∧ ∃ elements, r = some (.set t elements)) →
      Result sc doc a (.ok r)
  | assignsMissing : a.AssignsMissing sc doc → Result sc doc a (.ok (some .null))
  | deletesNonSet : a.DeletesNonSet doc → Result sc doc a (.ok none)
  | invalid (e : ApiError) : a.perform sc doc = none → ¬ a.AssignsMissing sc doc →
      ¬ a.DeletesNonSet doc → Result sc doc a (.error e)

/-- Of an action that is not of one of the kinds that its evaluation lets pass. -/
private theorem Action.Result.of_toOption {x : Except ApiError (Option Value)}
    (hx : x.toOption = a.perform sc doc) (hset : ¬ a.AssignsMissing sc doc)
    (hdel : ¬ a.DeletesNonSet doc) (hconf : ¬ a.Confuses doc) : a.Result sc doc x := by
  cases x with
  | error e => exact .invalid e hx.symm hset hdel
  | ok r => exact .valid hx.symm hconf

private theorem perform_del_none {path : Path} (hget : Value.get path.full (some doc) = none)
    (hc : (unwrapSet c).2 ≠ none) : Action.perform sc doc ⟨path, .del c⟩ = some none := by
  cases c with
  | set t set2 => simp only [Action.perform, hget, performDel]
  | _ => exact (hc rfl).elim

private theorem not_confuses (hadd : ∀ c, a.action ≠ .add c) (hdel : ∀ c, a.action ≠ .del c) :
    ¬ a.Confuses doc := by
  rintro ⟨_, _, _, ⟨⟨-, hk⟩, -⟩ | ⟨⟨-, hk⟩, -⟩⟩
  · exact hadd _ hk
  · exact hdel _ hk

/-- An ADD that confuses elements loses one of them. -/
private theorem Action.Result.of_addConfuses {path : Path} {t : SetType} {set1 set2 : List String}
    (hget : Value.get path.full (some doc) = some (.set t set1)) (hconf : AddConfuses set1 set2) :
    Action.Result sc doc ⟨path, .add (.set t set2)⟩
      (.ok (some (.set t (sumElements set1 set2)))) := by
  have hperform : Action.perform sc doc ⟨path, .add (.set t set2)⟩ =
      some (some (.set t (unionElements set1 set2))) := by
    simp only [Action.perform, hget, performAdd, if_pos, Option.map_some]
  refine .confuses ⟨t, set1, set2, .inl ⟨⟨hget, rfl⟩, hconf⟩⟩ hperform ?_ (.inr ⟨?_, _, rfl⟩)
  · simpa using mt sumElements_eq_iff.mp (not_not.mpr hconf)
  · rintro ⟨_, _, _, ⟨-, hk⟩, -⟩
    cases hk

/-- A DELETE that confuses elements takes one away that has to stay. -/
private theorem Action.Result.of_deleteConfuses {path : Path} {t : SetType}
    {set1 set2 : List String} (hget : Value.get path.full (some doc) = some (.set t set1))
    (hconf : DeleteConfuses set1 set2) :
    Action.Result sc doc ⟨path, .del (.set t set2)⟩
      (.ok (nonemptySet t (diffElements set1 set2))) := by
  have hne : differenceElements set1 set2 ≠ [] := by
    obtain ⟨a, ha, hnot, -⟩ := hconf
    exact List.ne_nil_of_mem (mem_differenceElements.mpr ⟨ha, hnot⟩)
  have hempties : Action.Empties doc ⟨path, .del (.set t set2)⟩ ↔ diffElements set1 set2 = [] := by
    rw [diffElements_eq_nil_iff]
    constructor
    · rintro ⟨_, _, _, ⟨hget', hk⟩, hall⟩
      cases hk
      cases hget.symm.trans hget'
      exact hall
    · exact fun hall => ⟨t, set1, set2, ⟨hget, rfl⟩, hall⟩
  have hperform : Action.perform sc doc ⟨path, .del (.set t set2)⟩ =
      some (some (.set t (differenceElements set1 set2))) := by
    simp [Action.perform, hget, performDel, nonemptySet, hne]
  refine .confuses ⟨t, set1, set2, .inr ⟨⟨hget, rfl⟩, hconf⟩⟩ hperform ?_ ?_
  · rw [nonemptySet]
    split_ifs
    · exact nofun
    · simpa using mt diffElements_eq_iff.mp (not_not.mpr hconf)
  · rw [hempties, nonemptySet]
    by_cases hnil : diffElements set1 set2 = []
    · exact .inl ⟨hnil, by rw [hnil]; rfl⟩
    · exact .inr ⟨hnil, _, if_neg (by simpa using hnil)⟩

theorem actionResult_spec (h : (document item).WellFormed) (ha : a.WellFormed) :
    a.Result sc (document item) (actionResult sc item a) := by
  obtain ⟨path, kind⟩ := a
  cases kind with
  | set rhs =>
    change Action.Result sc _ _ ((calculateRhs sc item rhs).map some)
    have heq : (calculateRhs sc item rhs).toOption = _ := calculateRhs_eq h ha
    cases hc : calculateRhs sc item rhs with
    | error e =>
      rw [hc] at heq
      have hnone := map_eq_none_iff.mp heq.symm
      refine .of_toOption ?_ ?_ (fun ⟨_, hk, _⟩ => nomatch hk) (not_confuses nofun nofun)
      · simp [Action.perform, hnone, Except.toOption, Except.map]
      · rintro ⟨rhs', hk, hmissing⟩
        cases hk
        cases hnone.symm.trans hmissing
    | ok v =>
      rw [hc] at heq
      obtain ⟨r, hr, rfl⟩ := map_eq_some_iff.mp heq.symm
      cases r with
      | none => exact .assignsMissing ⟨rhs, rfl, hr⟩
      | some w =>
        refine .valid ?_ (not_confuses nofun nofun)
        simp only [Action.perform, hr]
        rfl
  | remove => exact .valid rfl (not_confuses nofun nofun)
  | add c =>
    change Action.Result sc _ _ (extractPath item path >>= fun v1 => (addResult sc v1 c).map some)
    rw [extractPath_eq h]
    by_cases hconf : Action.Confuses (document item) ⟨path, .add c⟩
    · obtain ⟨t, set1, set2, ⟨⟨hget, hk⟩, hadd⟩ | ⟨⟨-, hk⟩, -⟩⟩ := hconf
      · cases hk
        rw [hget]
        change Action.Result sc _ _ ((addResult sc (.set t set1) (.set t set2)).map some)
        rw [addResult_set]
        exact .of_addConfuses hget hadd
      · cases hk
    · refine .of_toOption ?_ (fun ⟨_, hk, _⟩ => nomatch hk) (fun ⟨_, hk, _⟩ => nomatch hk) hconf
      change _ = (performAdd sc (Value.get path.full (some (document item))) c).map some
      rw [← toOption_addResult (fun v hv => h.get hv) ha]
      · change Except.toOption ((addResult sc _ c).map some) = _
        cases addResult sc ((Value.get path.full (some (document item))).getD .null) c <;> rfl
      · rintro t set1 set2 hget rfl hadd
        exact hconf ⟨t, set1, set2, .inl ⟨⟨hget, rfl⟩, hadd⟩⟩
  | del c =>
    change Action.Result sc _ _ (extractPath item path >>= fun v1 =>
      if v1.isNull then .ok none else setDiff v1 c)
    rw [extractPath_eq h]
    cases hget : Value.get path.full (some (document item)) with
    | none =>
      have hconf : ¬ Action.Confuses (document item) ⟨path, .del c⟩ := by
        rintro ⟨_, _, _, ⟨⟨hget', -⟩, -⟩ | ⟨⟨hget', -⟩, -⟩⟩ <;> cases hget.symm.trans hget'
      by_cases hc : (unwrapSet c).2 = none
      · exact .deletesNonSet ⟨c, rfl, hc, hget⟩
      · exact .valid (perform_del_none hget hc) hconf
    | some u =>
      have hu := h.get hget
      change Action.Result sc _ _ (if u.isNull then .ok none else setDiff u c)
      rw [hu.isNull]
      by_cases hconf : Action.Confuses (document item) ⟨path, .del c⟩
      · obtain ⟨t, set1, set2, ⟨⟨-, hk⟩, -⟩ | ⟨⟨hget', hk⟩, hdel⟩⟩ := hconf
        · cases hk
        · cases hk
          cases hget.symm.trans hget'
          change Action.Result sc _ _ (setDiff _ _)
          rw [setDiff_set]
          exact .of_deleteConfuses hget' hdel
      · refine .of_toOption ?_ (fun ⟨_, hk, _⟩ => nomatch hk) ?_ hconf
        · simp only [Action.perform, hget]
          refine toOption_setDiff hu ha ?_
          rintro t set1 set2 rfl rfl hdel
          exact hconf ⟨t, set1, set2, .inr ⟨⟨hget, rfl⟩, hdel⟩⟩
        · rintro ⟨_, _, _, hnone⟩
          cases hget.symm.trans hnone

end Agreement

end Scylla.Alternator
