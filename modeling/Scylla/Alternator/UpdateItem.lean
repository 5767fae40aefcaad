import Scylla.Alternator.Hierarchy

/-!
# The update expression of an UpdateItem request

The actions of the expression are put into a path map, the previous item is read if one of them
needs it, and the top-level attributes of the map are updated or deleted one after the other. There
are no conditions and nothing is returned; of the serialization of values only what it rejects is
modelled.
-/

namespace Scylla.Alternator

open List

/-! ## Columns -/

inductive KeyType where
  | s
  | n
  | b
  deriving DecidableEq

/-- `type_to_string`. -/
def KeyType.name : KeyType → String
  | .s => "S"
  | .n => "N"
  | .b => "B"

/-- A column of its own, which the keys of the table and those of its indexes have. -/
structure Column where
  primaryKey : Bool
  type : KeyType

/-- The columns that attributes have of their own. All other attributes share one map. -/
structure Schema where
  column : String → Option Column

section Storing

variable {D : Type} (sc : Scalars D)

/-- `serialize_item`. Only the outermost level is looked at. -/
def serializeItem : Value → Except ApiError Value
  | .null => .error (.oneAttributeDefinition .null)
  | .n s =>
    match sc.parseAndValidateNumber s with
    | .ok _ => .ok (.n s)
    | .error e => .error (.number e s)
  | .b s => if sc.isBase64 s then .ok (.b s) else .error .invalidBase64
  | v => .ok v

/-- The string of a value of one of the types that keys have. -/
def keyString : Value → String
  | .s v => v
  | .n v => v
  | .b v => v
  | _ => ""

def getKeyFromTypedValue (v : Value) (name : String) (type : KeyType) : Except ApiError Value :=
  if v.isNull then .error (.malformedKeyValue name v)
  else if v.typeName ≠ type.name then .error (.keyTypeMismatch type.name name v.typeName)
  else if keyString v = "" then .error (.emptyKeyValue name)
  else
    match type with
    | .b => if sc.isBase64 (keyString v) then .ok v else .error .invalidBase64
    | .n =>
      match sc.parseAndValidateNumber (keyString v) with
      | .ok _ => .ok v
      | .error e => .error (.number e (keyString v))
    | .s => .ok v

def storedValue (schema : Schema) (name : String) (v : Value) : Except ApiError Value :=
  match schema.column name with
  | some column => getKeyFromTypedValue sc v name column.type
  | none => serializeItem sc v

end Storing

/-! ## Reading before writing -/

mutual

/-- `check_needs_read_before_write` of a value. -/
def ParsedValue.checkNeedsReadBeforeWrite : ParsedValue → Bool
  | .constant _ => false
  | .path _ => true
  | .functionCall _ parameters => checkAnyNeedsReadBeforeWrite parameters

def checkAnyNeedsReadBeforeWrite : List ParsedValue → Bool
  | [] => false
  | v :: vs => v.checkNeedsReadBeforeWrite || checkAnyNeedsReadBeforeWrite vs

end

def SetRhs.checkNeedsReadBeforeWrite : SetRhs → Bool
  | .value v1 => v1.checkNeedsReadBeforeWrite
  | .plus v1 v2 => v1.checkNeedsReadBeforeWrite || v2.checkNeedsReadBeforeWrite
  | .minus v1 v2 => v1.checkNeedsReadBeforeWrite || v2.checkNeedsReadBeforeWrite

def ActionKind.checkNeedsReadBeforeWrite : ActionKind → Bool
  | .set rhs => rhs.checkNeedsReadBeforeWrite
  | .remove => false
  | .add _ => true
  | .del _ => true

/-- `check_needs_read_before_write` of the map of actions. -/
def checkNeedsReadBeforeWrite (map : PathMap Action) : Bool :=
  map.keys.any fun k =>
    match map.child k with
    | .value a => a.action.checkNeedsReadBeforeWrite
    | _ => true

/-! ## The request -/

/-- What is written: the attributes that get a value or are deleted, and the row marker. -/
structure Mutation where
  cells : List (String × Option Value)
  marker : Bool

def Mutation.applyTo (m : Mutation) (attrs : Item) : Item := setMembers m.cells attrs

section Request

variable {D : Type} (sc : Scalars D) (it : Iteration) (schema : Schema) (item : Option Item)

/-- The value of a top-level attribute of which only parts are changed. -/
def nestedResult (name : String) (h : Node Action) : Except ApiError (Option Value) :=
  match item with
  | none => .error .nestedOnMissingItem
  | some attrs =>
    match attrs.lookup name with
    | none => .error (.missingAttribute name)
    | some toplevel => hierarchyActions sc it item h toplevel

def attributeResult (name : String) (h : Node Action) : Except ApiError (Option Value) :=
  match h with
  | .value a => actionResult sc item a
  | h => nestedResult sc it item name h

/-- The write of one top-level attribute: `do_update` or `do_delete`. -/
def updateAttribute (map : PathMap Action) (name : String) :
    Except ApiError (String × Option Value) :=
  if (schema.column name).any (·.primaryKey) then .error (.keyColumn name)
  else do
    match ← attributeResult sc it item name (map.child name) with
    | some v => return (name, some (← storedValue sc schema name v))
    | none => return (name, none)

def apply (map : PathMap Action) : Except ApiError Mutation := do
  let cells ← (it.order map.keys).mapM (updateAttribute sc it schema item map)
  let anyUpdates := cells.any fun cell => cell.2.isSome
  let anyDeletes := cells.any fun cell => cell.2.isNone
  return ⟨cells, anyUpdates || !anyDeletes⟩

/-- A request with an update expression, for an item that is `item` before. -/
def updateItem (actions : List Action) : Except ApiError Mutation :=
  if actions.isEmpty then .error .emptyExpression
  else do
    let map ← attributePathMap Action.path actions
    apply sc it schema (if checkNeedsReadBeforeWrite map then item else none) map

end Request

/-! ## The read that is left out makes no difference -/

section Congr

variable {D : Type} {sc : Scalars D} {it : Iteration} {schema : Schema} {item item' : Option Item}

private theorem calculateValue_congr {v : ParsedValue} (h : v.checkNeedsReadBeforeWrite = false) :
    calculateValue item v = calculateValue item' v := by
  fun_induction calculateValue item v with
  | case1 c => rfl
  | case2 p => cases h
  | case3 v1 v2 ih1 ih2 =>
    simp only [ParsedValue.checkNeedsReadBeforeWrite, checkAnyNeedsReadBeforeWrite,
      Bool.or_eq_false_iff] at h
    rw [ih1 h.1, ih2 h.2.1, calculateValue]
    rfl
  | case5 p v2 hname ih =>
    simp [ParsedValue.checkNeedsReadBeforeWrite, checkAnyNeedsReadBeforeWrite] at h
  | _ =>
    unfold calculateValue
    simp [*]

private theorem calculateRhs_congr {rhs : SetRhs} (h : rhs.checkNeedsReadBeforeWrite = false) :
    calculateRhs sc item rhs = calculateRhs sc item' rhs := by
  cases rhs with
  | value v1 => exact calculateValue_congr h
  | plus v1 v2 | minus v1 v2 =>
    obtain ⟨h1, h2⟩ := Bool.or_eq_false_iff.mp h
    have hv1 : calculateValue item v1 = calculateValue item' v1 := calculateValue_congr h1
    have hv2 : calculateValue item v2 = calculateValue item' v2 := calculateValue_congr h2
    rw [calculateRhs, calculateRhs, hv1, hv2]

private theorem actionResult_congr {a : Action} (h : a.action.checkNeedsReadBeforeWrite = false) :
    actionResult sc item a = actionResult sc item' a := by
  obtain ⟨path, kind⟩ := a
  cases kind with
  | set rhs => exact congrArg (Except.map some) (calculateRhs_congr h)
  | remove => rfl
  | add c => cases h
  | del c => cases h

variable {map : PathMap Action}

private theorem updateAttribute_congr {k : String} (hk : k ∈ map.keys)
    (h : checkNeedsReadBeforeWrite map = false) :
    updateAttribute sc it schema item map k = updateAttribute sc it schema item' map k := by
  have hchild := any_eq_false.mp h k hk
  have hresult : attributeResult sc it item k (map.child k) =
      attributeResult sc it item' k (map.child k) := by
    cases hc : map.child k with
    | value a =>
      rw [hc] at hchild
      exact actionResult_congr (Bool.eq_false_iff.mpr hchild)
    | _ => simp [hc] at hchild
  rw [updateAttribute, updateAttribute, hresult]

private theorem mapM_congr {α β ε : Type} {f g : α → Except ε β} {l : List α}
    (h : ∀ x ∈ l, f x = g x) : l.mapM f = l.mapM g := by
  induction l with
  | nil => rfl
  | cons x l ih =>
    rw [mapM_cons, mapM_cons, h x mem_cons_self, ih fun y hy => h y (mem_cons_of_mem _ hy)]

theorem apply_congr (h : checkNeedsReadBeforeWrite map = false) :
    apply sc it schema item map = apply sc it schema item' map := by
  have hcells : (it.order map.keys).mapM (updateAttribute sc it schema item map) =
      (it.order map.keys).mapM (updateAttribute sc it schema item' map) :=
    mapM_congr fun k hk => updateAttribute_congr ((it.perm _).mem_iff.mp hk) h
  rw [apply, apply, hcells]

end Congr

/-! ## What a request is refused for -/

section Refusal

variable {D : Type} {sc : Scalars D} {it : Iteration} {schema : Schema} {item : Option Item}

theorem storedValue_null (name : String) : ∃ e, storedValue sc schema name .null = .error e := by
  unfold storedValue
  cases schema.column name with
  | none => exact ⟨_, rfl⟩
  | some column => exact ⟨_, rfl⟩

theorem storedValue_set (name : String) (t : SetType) (elements : List String) :
    (∃ e, storedValue sc schema name (.set t elements) = .error e) ↔ schema.column name ≠ none := by
  unfold storedValue
  cases schema.column name with
  | none => exact iff_of_false nofun (fun h => h rfl)
  | some column =>
    obtain ⟨_, type⟩ := column
    exact iff_of_true (by cases t <;> cases type <;> exact ⟨_, rfl⟩) nofun

theorem storedValue_container {name : String} {v : Value}
    (hv : (∃ ms, v = .m ms) ∨ ∃ xs, v = .l xs) :
    (∃ w, storedValue sc schema name v = .ok w) ↔ schema.column name = none := by
  unfold storedValue
  cases schema.column name with
  | none =>
    refine iff_of_true ⟨v, ?_⟩ rfl
    rcases hv with ⟨ms, rfl⟩ | ⟨xs, rfl⟩ <;> rfl
  | some column =>
    refine iff_of_false ?_ nofun
    rintro ⟨w, hw⟩
    obtain ⟨_, type⟩ := column
    rcases hv with ⟨ms, rfl⟩ | ⟨xs, rfl⟩ <;> cases type <;> cases hw

variable {tree : Node Action} {map : PathMap Action} {k : String} {a : Action}
  {actions : List Action} {f : String → Except ApiError (String × Option Value)} {m : Mutation}

theorem attributeResult_nested (hval : tree.hasValue = false) (k : String) :
    attributeResult sc it item k tree = nestedResult sc it item k tree := by
  cases tree with
  | value a => cases hval
  | _ => rfl

private theorem walks_attributeResult (h : (document item).WellFormed) (k : String)
    (hv : tree.Valid) :
    Walks sc item tree ((item.getD []).lookup k) (attributeResult sc it item k tree) := by
  cases hval : tree.hasValue with
  | true =>
    cases tree with
    | value a => exact walks_value a _
    | _ => cases hval
  | false =>
    obtain ⟨q, a, hq⟩ := hv.exists_find
    rw [attributeResult_nested hval]
    cases item with
    | none => exact walks_error _ hq (not_reaches_none hval hq)
    | some attrs =>
      simp only [nestedResult, Option.getD_some]
      cases hk : attrs.lookup k with
      | none => exact walks_error _ hq (not_reaches_none hval hq)
      | some toplevel => exact walks_hierarchyActions it hv (h.lookup hk)

private theorem updateAttribute_ok_iff {cell : String × Option Value} :
    updateAttribute sc it schema item map k = .ok cell ↔
      (schema.column k).any (·.primaryKey) = false ∧ cell.1 = k ∧
        attributeResult sc it item k (map.child k) = .ok cell.2 ∧
          ∀ v, cell.2 = some v → ∃ w, storedValue sc schema k v = .ok w := by
  unfold updateAttribute
  cases hkey : (schema.column k).any (·.primaryKey) with
  | true => simp
  | false =>
    cases hr : attributeResult sc it item k (map.child k) with
    | error e => simp [bind, Except.bind]
    | ok r' =>
      cases r' with
      | none =>
        simp only [bind, Except.bind, pure, Except.pure]
        grind
      | some v =>
        cases hv : storedValue sc schema k v with
        | error e =>
          simp only [bind, Except.bind, hv]
          grind
        | ok w =>
          obtain rfl : w = v := by
            unfold storedValue getKeyFromTypedValue serializeItem at hv
            grind
          simp only [bind, Except.bind, pure, Except.pure, hv]
          grind

def Action.Refused (sc : Scalars D) (schema : Schema) (item : Option Item) (a : Action) : Prop :=
  (schema.column a.path.root).any (·.primaryKey) = true ∨
    ¬ Value.Reaches a.path.full (some (document item)) ∨
    (∃ e, actionResult sc item a = .error e) ∨
    (a.path.operators ≠ [] ∧ schema.column a.path.root ≠ none) ∨
    (a.path.operators = [] ∧ ∃ v e, actionResult sc item a = .ok (some v) ∧
      storedValue sc schema a.path.root v = .error e)

private theorem exists_ok_iff {ε α : Type} {x : Except ε α} :
    (∃ a, x = .ok a) ↔ ¬ ∃ e, x = .error e := by
  cases x with
  | error e => exact iff_of_false nofun (not_not_intro ⟨e, rfl⟩)
  | ok a => exact iff_of_true ⟨a, rfl⟩ nofun

private theorem not_refused_iff : ¬ a.Refused sc schema item ↔
    (schema.column a.path.root).any (·.primaryKey) = false ∧
      Value.Reaches a.path.full (some (document item)) ∧
      (∃ r, actionResult sc item a = .ok r) ∧
      (a.path.operators ≠ [] → schema.column a.path.root = none) ∧
      (a.path.operators = [] → ∀ v, actionResult sc item a = .ok (some v) →
        ∃ w, storedValue sc schema a.path.root v = .ok w) := by
  simp only [Action.Refused, not_or, not_not, exists_ok_iff, not_and, not_exists, ne_eq,
    Bool.not_eq_true]
  refine and_congr_right fun _ => and_congr_right fun _ => and_congr_right fun _ =>
    and_congr_right fun _ => ?_
  exact ⟨fun h ho v hv e => h ho v e hv, fun h ho v e hv => h ho v hv e⟩

private theorem find_child (hm : map.Holds Action.path actions) (ha : a ∈ actions) :
    a.path.root ∈ map.keys ∧ (map.child a.path.root).find a.path.operators = some a := by
  have hfind := (hm.find_iff _ a).mpr ⟨ha, rfl⟩
  obtain ⟨k, hk, q, hq, hfind⟩ := Node.find_members hfind
  obtain ⟨hroot, hops⟩ := List.cons.inj hq
  cases hroot
  obtain rfl := hops
  exact ⟨hk, hfind⟩

private theorem action_of_child (hm : map.Holds Action.path actions) (hk : k ∈ map.keys)
    {q : List PathOp} (hq : (map.child k).find q = some a) : a ∈ actions ∧ a.path = ⟨k, q⟩ := by
  have hfind : map.toNode.find (.member k :: q) = some a := (if_pos hk).trans hq
  obtain ⟨ha, hpath⟩ := (hm.find_iff _ a).mp hfind
  exact ⟨ha, Path.full_inj.mp hpath⟩

private theorem hasValue_of_find {q : List PathOp} (h : tree.find q = some a) :
    tree.hasValue = true ↔ q = [] := by
  cases tree with
  | empty =>
    rw [Node.find_empty] at h
    cases h
  | value b => exact iff_of_true rfl (Node.find_value h).1
  | members =>
    obtain ⟨k, -, q', rfl, -⟩ := Node.find_members h
    exact iff_of_false nofun nofun
  | indexes =>
    obtain ⟨i, -, q', rfl, -⟩ := Node.find_indexes h
    exact iff_of_false nofun nofun

private theorem eq_value (h : tree.find [] = some a) : tree = .value a := by
  cases tree with
  | value b => rw [(Node.find_value h).2]
  | _ => cases h

private theorem nestedResult_container (hv : tree.Valid) (hval : tree.hasValue = false)
    {r : Option Value} (hr : attributeResult sc it item k tree = .ok r) :
    (∃ ms, r = some (.m ms)) ∨ ∃ xs, r = some (.l xs) := by
  rw [attributeResult_nested hval] at hr
  cases item with
  | none => cases hr
  | some attrs =>
    simp only [nestedResult] at hr
    split at hr
    · cases hr
    · exact hierarchyActions_nested hv hval hr

private theorem exists_updateAttribute_iff (hm : map.Holds Action.path actions)
    (h : (document item).WellFormed) (hk : k ∈ map.keys) :
    (∃ cell, updateAttribute sc it schema item map k = .ok cell) ↔
      ∀ a ∈ actions, a.path.root = k → ¬ a.Refused sc schema item := by
  have hv := hm.valid.child k hk
  have hwalks : Walks sc item (map.child k) _ (attributeResult sc it item k (map.child k)) :=
    walks_attributeResult h k hv
  constructor
  · rintro ⟨cell, hcell⟩ a ha rfl
    obtain ⟨hkey, -, hr, hstored⟩ := updateAttribute_ok_iff.mp hcell
    obtain ⟨-, hfind⟩ := find_child hm ha
    obtain ⟨hreach, r, har⟩ := hwalks.exists_iff.mp ⟨_, hr⟩ _ _ hfind
    rintro (hk' | hnot | ⟨e, he⟩ | ⟨hops, hcol⟩ | ⟨hops, v, e, hav, hve⟩)
    · rw [hkey] at hk'
      cases hk'
    · exact hnot hreach
    · rw [har] at he
      cases he
    · have hval : (map.child a.path.root).hasValue = false :=
        Bool.eq_false_iff.mpr (mt (hasValue_of_find hfind).mp hops)
      rcases nestedResult_container hv hval hr with ⟨ms, hms⟩ | ⟨xs, hxs⟩
      · exact hcol ((storedValue_container (.inl ⟨ms, rfl⟩)).mp (hstored _ hms))
      · exact hcol ((storedValue_container (.inr ⟨xs, rfl⟩)).mp (hstored _ hxs))
    · rw [hops] at hfind
      rw [eq_value hfind, attributeResult, hav] at hr
      obtain ⟨w, hw⟩ := hstored v (Except.ok.inj hr).symm
      rw [hve] at hw
      cases hw
  · intro hall
    obtain ⟨q, a, hfind⟩ := hv.exists_find
    obtain ⟨ha, hpath⟩ := action_of_child hm hk hfind
    obtain ⟨hkey, -, -, hcol, hstored⟩ := not_refused_iff.mp (hall a ha (by rw [hpath]))
    rw [hpath] at hkey hcol hstored
    have happ : Applies sc item (map.child k) ((item.getD []).lookup k) := by
      intro q a hq
      obtain ⟨ha, hpath⟩ := action_of_child hm hk hq
      obtain ⟨-, hreach, hresult, -⟩ := not_refused_iff.mp (hall a ha (by rw [hpath]))
      rw [hpath] at hreach
      exact ⟨hreach, hresult⟩
    obtain ⟨r, hr⟩ := hwalks.exists_iff.mpr happ
    refine ⟨(k, r), updateAttribute_ok_iff.mpr ⟨hkey, rfl, hr, fun v (hrv : r = some v) => ?_⟩⟩
    by_cases hq : q = []
    · subst hq
      rw [eq_value hfind, attributeResult, hrv] at hr
      exact hstored rfl v hr
    · have hval : (map.child k).hasValue = false :=
        Bool.eq_false_iff.mpr (mt (hasValue_of_find hfind).mp hq)
      refine (storedValue_container ?_).mpr (hcol hq)
      exact (nestedResult_container hv hval hr).imp
        (fun ⟨ms, hms⟩ => ⟨ms, Option.some.inj (hrv.symm.trans hms)⟩)
        fun ⟨xs, hxs⟩ => ⟨xs, Option.some.inj (hrv.symm.trans hxs)⟩

private theorem mapM_cells (hname : ∀ k cell, f k = .ok cell → cell.1 = k) {keys : List String}
    {cells : List (String × Option Value)} (h : keys.mapM f = .ok cells) :
    cells.map Prod.fst = keys ∧ ∀ cell ∈ cells, f cell.1 = .ok cell := by
  induction keys generalizing cells with
  | nil =>
    cases h
    exact ⟨rfl, nofun⟩
  | cons k keys ih =>
    rw [mapM_cons] at h
    cases hf : f k with
    | error e => simp [hf, bind, Except.bind] at h
    | ok cell =>
      cases hrest : keys.mapM f with
      | error e => simp [hf, hrest, bind, Except.bind] at h
      | ok rest =>
        rw [hf, hrest] at h
        cases h
        obtain ⟨hnames, hcells⟩ := ih hrest
        have hk := hname k cell hf
        refine ⟨by rw [map_cons, hk, hnames], fun c hc => ?_⟩
        rcases mem_cons.mp hc with rfl | hc
        · rw [hk, hf]
        · exact hcells c hc

private theorem exists_mapM_iff {keys : List String} :
    (∃ cells, keys.mapM f = .ok cells) ↔ ∀ k ∈ keys, ∃ cell, f k = .ok cell := by
  induction keys with
  | nil => exact iff_of_true ⟨[], rfl⟩ nofun
  | cons k keys ih =>
    rw [mapM_cons, forall_mem_cons, ← ih]
    cases hf : f k with
    | error e => exact iff_of_false nofun nofun
    | ok cell =>
      cases keys.mapM f with
      | error e => exact iff_of_false nofun nofun
      | ok rest => exact iff_of_true ⟨_, rfl⟩ ⟨⟨_, rfl⟩, _, rfl⟩

theorem apply_error_iff (hm : map.Holds Action.path actions) (h : (document item).WellFormed) :
    (∃ e, apply sc it schema item map = .error e) ↔
      ∃ a ∈ actions, a.Refused sc schema item := by
  have hperm := it.perm map.keys
  have happly : (∃ m, apply sc it schema item map = .ok m) ↔
      ∃ cells, (it.order map.keys).mapM (updateAttribute sc it schema item map) = .ok cells := by
    rw [apply]
    cases (it.order map.keys).mapM (updateAttribute sc it schema item map) with
    | error e => exact iff_of_false nofun nofun
    | ok cells => exact iff_of_true ⟨_, rfl⟩ ⟨_, rfl⟩
  rw [← not_iff_not, ← exists_ok_iff, happly, exists_mapM_iff]
  constructor
  · rintro hall ⟨a, ha, hrefused⟩
    have hroot := (find_child hm ha).1
    exact (exists_updateAttribute_iff hm h hroot).mp (hall _ (hperm.mem_iff.mpr hroot)) a ha rfl
      hrefused
  · intro hno k hk
    refine (exists_updateAttribute_iff hm h (hperm.mem_iff.mp hk)).mpr fun a ha _ hrefused => ?_
    exact hno ⟨a, ha, hrefused⟩

private theorem cells_of_apply (h : apply sc it schema item map = .ok m) :
    m.cells.map Prod.fst = it.order map.keys ∧
      ∀ cell ∈ m.cells, updateAttribute sc it schema item map cell.1 = .ok cell := by
  cases hcells : (it.order map.keys).mapM (updateAttribute sc it schema item map) with
  | error e => simp [apply, hcells, bind, Except.bind] at h
  | ok cells =>
    rw [apply, hcells] at h
    cases h
    exact mapM_cells (fun k cell hc => (updateAttribute_ok_iff.mp hc).2.1) hcells

theorem nodup_cells_of_apply (hv : map.Valid) (h : apply sc it schema item map = .ok m) :
    (m.cells.map Prod.fst).Nodup := by
  rw [(cells_of_apply h).1]
  exact (it.perm map.keys).nodup_iff.mpr hv.nodup

theorem performed_of_apply (hm : map.Holds Action.path actions) (h : (document item).WellFormed)
    (hmut : apply sc it schema item map = .ok m) :
    Performed (outcomes sc item map.toNode) (some (document item))
      (some (.m (m.applyTo (item.getD [])))) := by
  have hnodup := nodup_cells_of_apply hm.valid hmut
  obtain ⟨hnames, hcell⟩ := cells_of_apply hmut
  have hkeys : ∀ k, k ∈ map.keys ↔ (m.cells.lookup k).isSome := fun k => by
    rw [lookup_isSome_iff, hnames, (it.perm map.keys).mem_iff]
  have hlookup := lookup_setMembers hnodup h.nodup
  rw [Mutation.applyTo]
  refine performed_children Node.kindMember (fun k hk => ?_) (fun k hk => ?_)
    fun acts hacts hchild => .members hacts hchild (nodup_setMembers _ h.nodup)
  · obtain ⟨r, hr⟩ := Option.isSome_iff_exists.mp ((hkeys k).mp hk)
    obtain ⟨-, -, hres, -⟩ := updateAttribute_ok_iff.mp (hcell _ (mem_of_lookup hr))
    rw [hlookup, hr]
    exact (walks_attributeResult h k (hm.valid.child k hk)).performed r hres
  · rw [hlookup, Option.not_isSome_iff_eq_none.mp (mt (hkeys k).mpr hk), Option.getD_none]

private theorem updateItem_eq (hne : actions ≠ []) :
    updateItem sc it schema item actions =
      attributePathMap Action.path actions >>= apply sc it schema item := by
  have hempty : actions.isEmpty = false := by simpa using hne
  rw [updateItem, hempty, if_neg Bool.false_ne_true]
  refine congrArg (attributePathMap Action.path actions >>= ·) (funext fun map => ?_)
  cases hread : checkNeedsReadBeforeWrite map with
  | true => rfl
  | false => exact apply_congr hread

theorem updateItem_error_iff (h : (document item).WellFormed) (actions : List Action) :
    (∃ e, updateItem sc it schema item actions = .error e) ↔
      actions = [] ∨ ¬ (actions.Pairwise fun a b => ¬ Clashing Action.path a b) ∨
        ∃ a ∈ actions, a.Refused sc schema item := by
  by_cases hne : actions = []
  · subst hne
    exact iff_of_true ⟨_, rfl⟩ (.inl rfl)
  obtain ⟨hbuild, hholds⟩ := attributePathMap_spec Action.path actions
  rw [updateItem_eq hne, or_iff_right hne, ← hbuild, exists_ok_iff, not_not]
  cases hmap : attributePathMap Action.path actions with
  | error e => exact iff_of_true ⟨e, rfl⟩ (.inl ⟨e, rfl⟩)
  | ok map =>
    rw [or_iff_right nofun]
    exact apply_error_iff (hholds map hmap) h

theorem performed_of_updateItem (h : (document item).WellFormed)
    (hm : updateItem sc it schema item actions = .ok m) :
    (m.cells.map Prod.fst).Nodup ∧ ∃ map : PathMap Action, map.Holds Action.path actions ∧
      Performed (outcomes sc item map.toNode) (some (document item))
        (some (.m (m.applyTo (item.getD [])))) := by
  have hne : actions ≠ [] := by
    rintro rfl
    cases hm
  rw [updateItem_eq hne] at hm
  cases hmap : attributePathMap Action.path actions with
  | error e =>
    rw [hmap] at hm
    cases hm
  | ok map =>
    rw [hmap] at hm
    have hholds := (attributePathMap_spec Action.path actions).2 map hmap
    exact ⟨nodup_cells_of_apply hholds.valid hm, map, hholds, performed_of_apply hholds h hm⟩

end Refusal

end Scylla.Alternator
