import Scylla.Core.Edit

/-!
# Attribute values and document paths

An attribute value is a JSON object with one member, which names the type, or the JSON null for an
attribute that does not exist; in a well-formed value no level is null and no map has two members of
one name. Numbers are the strings they are sent in; arithmetic and the encoding of bytes are left
open.
-/

namespace Scylla.Alternator

inductive SetType where
  | ss
  | ns
  | bs
  deriving DecidableEq

def SetType.name : SetType → String
  | .ss => "SS"
  | .ns => "NS"
  | .bs => "BS"

/-- The JSON null, or a JSON object with one member that names its type. -/
inductive Value where
  | null
  | s (value : String)
  | n (value : String)
  | b (value : String)
  | bool (value : Bool)
  | nul
  | set (type : SetType) (elements : List String)
  | l (elements : List Value)
  | m (members : List (String × Value))

namespace Value

def isNull : Value → Bool
  | .null => true
  | _ => false

/-- The name of the only member, and the empty string for null. -/
def typeName : Value → String
  | .null => ""
  | .s _ => "S"
  | .n _ => "N"
  | .b _ => "B"
  | .bool _ => "BOOL"
  | .nul => "NULL"
  | .set t _ => t.name
  | .l _ => "L"
  | .m _ => "M"

/-- Every nested level is a typed object, and a map has one member of a name. -/
inductive WellFormed : Value → Prop
  | s (v : String) : WellFormed (.s v)
  | n (v : String) : WellFormed (.n v)
  | b (v : String) : WellFormed (.b v)
  | bool (v : Bool) : WellFormed (.bool v)
  | nul : WellFormed .nul
  | set (t : SetType) (elements : List String) : WellFormed (.set t elements)
  | l {elements : List Value} : (∀ v ∈ elements, WellFormed v) → WellFormed (.l elements)
  | m {members : List (String × Value)} :
      (members.map Prod.fst).Nodup → (∀ e ∈ members, WellFormed e.2) → WellFormed (.m members)

variable {v : Value}

theorem WellFormed.isNull (h : v.WellFormed) : v.isNull = false := by
  cases h <;> rfl

variable {ms : List (String × Value)}

theorem WellFormed.nodup (h : (Value.m ms).WellFormed) : (ms.map Prod.fst).Nodup := by
  cases h with
  | m hnodup _ => exact hnodup

theorem WellFormed.lookup (h : (Value.m ms).WellFormed) {k : String} (hv : ms.lookup k = some v) :
    v.WellFormed := by
  cases h with
  | m _ hms => exact hms _ (mem_of_lookup hv)

theorem WellFormed.getElem? {xs : List Value} (h : (Value.l xs).WellFormed) {i : ℕ}
    (hv : xs[i]? = some v) : v.WellFormed := by
  cases h with
  | l hxs => exact hxs v (List.mem_of_getElem? hv)

theorem wellFormed_m (hnodup : (ms.map Prod.fst).Nodup)
    (h : ∀ k v, ms.lookup k = some v → v.WellFormed) : (Value.m ms).WellFormed := by
  refine .m hnodup fun e he => h e.1 e.2 ?_
  exact lookup_of_mem hnodup he

end Value

/-! ## Paths -/

/-- A dereference operator: a dot with a name or an index. -/
inductive PathOp where
  | member (name : String)
  | index (i : ℕ)
  deriving DecidableEq

/-- A path such as `a.b[3].c`, with its top-level attribute and its operators. -/
structure Path where
  root : String
  operators : List PathOp
  deriving DecidableEq

def Path.hasOperators (p : Path) : Bool := !p.operators.isEmpty

/-- The path from the item, of which the top-level attributes are the members. -/
def Path.full (p : Path) : List PathOp := .member p.root :: p.operators

theorem Path.full_inj {p q : Path} : p.full = q.full ↔ p = q := by
  cases p
  cases q
  simp [Path.full]

abbrev Item := List (String × Value)

/-- The item as a document. An item that does not exist has no attributes. -/
def document (item : Option Item) : Value := .m (item.getD [])

namespace Value

def get : List PathOp → Option Value → Option Value
  | [], v => v
  | .member k :: ops, some (.m ms) => get ops (ms.lookup k)
  | .index i :: ops, some (.l xs) => get ops xs[i]?
  | _ :: _, _ => none

def Reaches : List PathOp → Option Value → Prop
  | [], _ => True
  | .member k :: ops, some (.m ms) => Reaches ops (ms.lookup k)
  | .index i :: ops, some (.l xs) => Reaches ops xs[i]?
  | _ :: _, _ => False

theorem get_none : ∀ ops : List PathOp, get ops none = none
  | [] => rfl
  | .member _ :: _ => rfl
  | .index _ :: _ => rfl

theorem WellFormed.get {v w : Value} (h : v.WellFormed) {ops : List PathOp}
    (hw : Value.get ops (some v) = some w) : w.WellFormed := by
  induction ops generalizing v with
  | nil => exact Option.some.inj hw ▸ h
  | cons op ops ih =>
    cases op with
    | member k =>
      cases v with
      | m ms =>
        change Value.get ops (ms.lookup k) = some w at hw
        cases hk : ms.lookup k with
        | none => simp [hk, get_none] at hw
        | some u => exact ih (h.lookup hk) (hk ▸ hw)
      | _ => cases hw
    | index i =>
      cases v with
      | l xs =>
        change Value.get ops xs[i]? = some w at hw
        cases hi : xs[i]? with
        | none => simp [hi, get_none] at hw
        | some u => exact ih (h.getElem? hi) (hi ▸ hw)
      | _ => cases hw

end Value

end Scylla.Alternator
