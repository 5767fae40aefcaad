import Scylla.Alternator.UpdateItem
import Scylla.Cql.Interval
import Scylla.Mutation.Collection

/-!
# Key conditions of a query

The clustering range of a condition on the sort key, for an entry of KeyConditions and for the
conditions that a KeyConditionExpression is the conjunction of. Strings and bytes are ordered by
their unsigned bytes.
-/

open Scylla.Mutation

namespace Scylla.Alternator

/-- The serialization of key values and the order of numbers, which are left open. -/
structure KeyTypes (D : Type) where
  scalars : Scalars D
  serialize : KeyType → String → Bytes
  decimal : Mutation.KeyType

structure ColumnDefinition where
  name : String
  type : KeyType

/-- The first columns of the partition key and of the clustering key. -/
structure KeySchema where
  pk : ColumnDefinition
  ck : Option ColumnDefinition
  name_ne : ∀ c ∈ ck, c.name ≠ pk.name

inductive ComparisonOperatorType where
  | eq | ne | le | lt | ge | gt | in | between | contains | isNull | notNull | beginsWith
  | notContains
  deriving DecidableEq

inductive PrimitiveOp where
  | eq | ne | lt | le | gt | ge
  deriving DecidableEq

/-- The grammar gives each operator its number of values. -/
inductive PrimitiveCondition where
  | value (v : ParsedValue)
  | compare (op : PrimitiveOp) (v₀ v₁ : ParsedValue)
  | between (v₀ v₁ v₂ : ParsedValue)
  | in (v₀ v₁ : ParsedValue) (vs : List ParsedValue)

inductive KeyConditionError where
  | value (e : ApiError)
  /-- "{} arguments expected for a sort key restriction: {}" -/
  | argumentsExpected (expected : ℕ) (attrs : List Value)
  /-- "Operator {} not supported for sort key" -/
  | operatorNotSupported (op : ComparisonOperatorType)
  | validation (text : String)
  /-- "Wrong number of values {} in primitive_condition", a `std::logic_error` -/
  | wrongNumber (size : ℕ)

abbrev ClusteringRange := Cql.Interval Bytes

/-- The bytes up to the last one that is not 0xFF, which is incremented. -/
def incremented : Bytes → Option Bytes
  | [] => none
  | b :: target =>
    match incremented target with
    | some limit => some (b :: limit)
    | none => if b = 255 then none else some [b + 1]

def getClusteringRangeForBeginsWith (target : Bytes) : ClusteringRange :=
  ⟨some ⟨target, true⟩, (incremented target).map (⟨·, false⟩)⟩

/-- The ranges found so far, one of each kind at most. -/
structure KeyBounds where
  partitionRange : Option Bytes
  ckBound : Option ClusteringRange

abbrev Checked := Except KeyConditionError

def validation {α : Type} (text : String) : Checked α := .error (.validation text)

section FrontEnds

variable {D : Type} (kt : KeyTypes D)

/-- The bytes that `get_key_from_typed_value` returns. -/
def keyBytes (v : Value) (c : ColumnDefinition) : Checked Bytes :=
  match getKeyFromTypedValue kt.scalars v c.name c.type with
  | .ok v => .ok (kt.serialize c.type (keyString v))
  | .error e => .error (.value e)

def calculateCkBound (c : ColumnDefinition) (op : ComparisonOperatorType) (attrs : List Value) :
    Checked ClusteringRange :=
  let expected := if op = .between then 2 else 1
  if attrs.length ≠ expected then .error (.argumentsExpected expected attrs)
  else do
    let rawValue ← keyBytes kt (attrs.getD 0 .null) c
    match op with
    | .eq => .ok ⟨some ⟨rawValue, true⟩, some ⟨rawValue, true⟩⟩
    | .le => .ok ⟨none, some ⟨rawValue, true⟩⟩
    | .lt => .ok ⟨none, some ⟨rawValue, false⟩⟩
    | .ge => .ok ⟨some ⟨rawValue, true⟩, none⟩
    | .gt => .ok ⟨some ⟨rawValue, false⟩, none⟩
    | .between => do
      let upperLimit ← keyBytes kt (attrs.getD 1 .null) c
      .ok ⟨some ⟨rawValue, true⟩, some ⟨upperLimit, true⟩⟩
    | .beginsWith =>
      let type := c.type.name
      if rawValue = [] then .ok ⟨none, none⟩
      else if c.type = .n then validation s!"BEGINS_WITH operator cannot be applied to type {type}"
      else .ok (getClusteringRangeForBeginsWith rawValue)
    | op => .error (.operatorNotSupported op)

variable (schema : KeySchema) (names : Option (String → Option String))

/-- The root has been resolved before; if it still is a reference, it is resolved again. -/
def getToplevel (p : Path) : Checked String :=
  let name := p.root
  if p.hasOperators then
    validation "KeyConditionExpression does not support nested attributes"
  else if name.toList.head? = some '#' then
    match names with
    | none => validation
        s!"ExpressionAttributeNames missing, entry '{name}' required by KeyConditionExpression"
    | some names =>
      match names name with
      | none => validation
          s!"ExpressionAttributeNames missing entry '{name}' required by KeyConditionExpression"
      | some name => .ok name
  else .ok name

/-- Sets the range of the clustering column, the only one that most operators are for. -/
def setCkBound (b : KeyBounds) (key : String) (range : ColumnDefinition → Checked ClusteringRange) :
    Checked KeyBounds :=
  if key = schema.pk.name then
    validation s!"KeyConditionExpression only '=' condition is supported on partition key {key}"
  else
    match schema.ck.filter (key = ·.name) with
    | none => validation s!"KeyConditionExpression condition on non-key attribute {key}"
    | some c =>
      if b.ckBound.isSome then
        validation "KeyConditionExpression allows only one condition for each key"
      else do .ok { b with ckBound := some (← range c) }

def beginsWithRange (v : Value) (c : ColumnDefinition) : Checked ClusteringRange := do
  let rawValue ← keyBytes kt v c
  let type := c.type.name
  if c.type = .n then validation s!"KeyConditionExpression begins_with() not supported on type {type}"
  else if rawValue = [] then .ok ⟨none, none⟩
  else .ok (getClusteringRangeForBeginsWith rawValue)

def betweenRange (v w : Value) (c : ColumnDefinition) : Checked ClusteringRange := do
  let ck1 ← keyBytes kt v c
  let ck2 ← keyBytes kt w c
  .ok ⟨some ⟨ck1, true⟩, some ⟨ck2, true⟩⟩

/-- The range for any operator but `<>`. -/
def comparedRange (op : PrimitiveOp) (toplevelInd : Fin 2) (v : Value) (c : ColumnDefinition) :
    Checked ClusteringRange := do
  let ck ← keyBytes kt v c
  match op, toplevelInd with
  | .lt, 0 | .gt, 1 => .ok ⟨none, some ⟨ck, false⟩⟩
  | .gt, 0 | .lt, 1 => .ok ⟨some ⟨ck, false⟩, none⟩
  | .le, 0 | .ge, 1 => .ok ⟨none, some ⟨ck, true⟩⟩
  | .ge, 0 | .le, 1 => .ok ⟨some ⟨ck, true⟩, none⟩
  | _, _ => .ok ⟨some ⟨ck, true⟩, some ⟨ck, true⟩⟩

/-- The attribute, the constant and which of the two values is the attribute. -/
def attributeAndConstant : ParsedValue → ParsedValue → Checked (Path × Value × Fin 2)
  | .path p, .constant v => .ok (p, v, 0)
  | .constant v, .path p => .ok (p, v, 1)
  | _, _ => validation "KeyConditionExpression must compare attribute with constant"

/-- One condition of the loop of `calculate_bounds_condition_expression`. -/
def addCondition (b : KeyBounds) : PrimitiveCondition → Checked KeyBounds
  | .value (.functionCall name parameters) =>
    if name ≠ "begins_with" then
      validation s!"KeyConditionExpression function '{name}' not supported"
    else
      match parameters with
      | [.path p, .constant v] => do
        setCkBound schema b (← getToplevel names p) (beginsWithRange kt v)
      | _ => validation "KeyConditionExpression begins_with() takes attribute and value"
  | .value _ => validation "KeyConditionExpression cannot be just a value"
  | .compare op v₀ v₁ => do
    let (p, v, toplevelInd) ← attributeAndConstant v₀ v₁
    let key ← getToplevel names p
    if op = .ne then validation "KeyConditionExpression does not support NE operator"
    else if op = .eq ∧ key = schema.pk.name then
      if b.partitionRange.isSome then
        validation "KeyConditionExpression allows only one condition for each key"
      else .ok { b with partitionRange := some (← keyBytes kt v schema.pk) }
    else setCkBound schema b key (comparedRange kt op toplevelInd v)
  | .between (.path p) (.constant v₁) (.constant v₂) => do
    setCkBound schema b (← getToplevel names p) (betweenRange kt v₁ v₂)
  | .between _ _ _ => validation "KeyConditionExpression must compare attribute with constants"
  | .in v₀ v₁ [] => do
    let (p, _) ← attributeAndConstant v₀ v₁
    let _ ← getToplevel names p
    validation "KeyConditionExpression does not support IN operator"
  | .in _ _ vs => .error (.wrongNumber (vs.length + 2))

def calculateBoundsConditionExpression (conditions : List PrimitiveCondition) :
    Checked (Bytes × ClusteringRange) :=
  if conditions.length < 1 ∨ conditions.length > 2 then
    validation "KeyConditionExpression syntax error: must have 1 or 2 conditions"
  else do
    let b ← conditions.foldlM (addCondition kt schema names) ⟨none, none⟩
    let key := schema.pk.name
    match b.partitionRange with
    | none => validation s!"KeyConditionExpression requires a condition on partition key {key}"
    | some pk => .ok (pk, b.ckBound.getD ⟨none, none⟩)

end FrontEnds

section Meaning

variable {D : Type} (kt : KeyTypes D) (c : ColumnDefinition)

/-- The order of the column's type. -/
def ColumnDefinition.cmp (v w : Bytes) : Ordering :=
  match c.type with
  | .n => kt.decimal.cmp v w
  | _ => compareUnsigned v w

/-- A sort key satisfies the operator with these arguments. -/
def ComparisonOperatorType.Holds (k : Bytes) : ComparisonOperatorType → List Bytes → Prop
  | .eq, [v] => c.cmp kt k v = .eq
  | .lt, [v] => c.cmp kt k v = .lt
  | .le, [v] => c.cmp kt k v ≠ .gt
  | .gt, [v] => c.cmp kt k v = .gt
  | .ge, [v] => c.cmp kt k v ≠ .lt
  | .between, [v, w] => c.cmp kt k v ≠ .lt ∧ c.cmp kt k w ≠ .gt
  | .beginsWith, [v] => v <+: k
  | _, _ => False

def PrimitiveOp.Holds : PrimitiveOp → Ordering → Prop
  | .eq, o => o = .eq
  | .ne, o => o ≠ .eq
  | .lt, o => o = .lt
  | .le, o => o ≠ .gt
  | .gt, o => o = .gt
  | .ge, o => o ≠ .lt

/-- What a value of a condition on the sort key stands for: an attribute for the key. -/
def operand (k : Bytes) : ParsedValue → Option Bytes
  | .constant v => (keyBytes kt v c).toOption
  | .path _ => some k
  | .functionCall _ _ => none

/-- The sort key satisfies a condition on it. -/
def PrimitiveCondition.Holds (k : Bytes) : PrimitiveCondition → Prop
  | .value (.functionCall _ [_, v]) => ∃ start ∈ operand kt c k v, start <+: k
  | .compare op v₀ v₁ => ∃ a ∈ operand kt c k v₀, ∃ b ∈ operand kt c k v₁, op.Holds (c.cmp kt a b)
  | .between _ v₁ v₂ => ∃ a ∈ operand kt c k v₁, ∃ b ∈ operand kt c k v₂,
      c.cmp kt k a ≠ .lt ∧ c.cmp kt k b ≠ .gt
  | _ => False

/-- The attribute that a condition is on. -/
def PrimitiveCondition.attribute (names : Option (String → Option String)) :
    PrimitiveCondition → Option String
  | .value (.functionCall _ (.path p :: _)) | .compare _ (.path p) _ | .compare _ _ (.path p)
  | .between (.path p) _ _ => (getToplevel names p).toOption
  | _ => none

open Cql.Interval

theorem isPrefix_iff_incremented (target k : Bytes) :
    target <+: k ↔ compareUnsigned k target ≠ .lt ∧
      ∀ limit ∈ incremented target, compareUnsigned k limit = .lt := by
  induction target generalizing k with
  | nil => cases k <;> simp [incremented, compareUnsigned]
  | cons b target ih =>
    cases k with
    | nil => simp [compareUnsigned]
    | cons a k =>
      have ih := ih k
      rw [List.cons_prefix_cons]
      rcases lt_trichotomy a b with hab | rfl | hab
      · simp [compareUnsigned, hab, hab.ne']
      · have hlt (ha : a ≠ 255) : a < a + 1 := by
          simp only [Fin.lt_def, Fin.val_add_one]
          grind
        cases hi : incremented target <;> by_cases ha : a = 255 <;>
          simp_all [incremented, compareUnsigned]
      · have hb : b ≠ 255 := by grind
        have hsucc : ¬ a < b + 1 := by
          simp only [Fin.lt_def, Fin.val_add_one] at hab ⊢
          grind
        have hnil : compareUnsigned k [] ≠ .lt := by cases k <;> simp [compareUnsigned]
        cases hi : incremented target <;>
          simp [incremented, hi, hb, compareUnsigned, hab, hab.not_gt, hab.ne, hsucc]
        grind

theorem admitsAbove_iff (b : Cql.Bound Bytes) (o : Ordering) :
    b.admitsAbove o = true ↔ if b.inclusive then o ≠ .lt else o = .gt := by
  cases o <;> simp

theorem admitsBelow_iff (b : Cql.Bound Bytes) (o : Ordering) :
    b.admitsBelow o = true ↔ if b.inclusive then o ≠ .gt else o = .lt := by
  cases o <;> simp

theorem contains_beginsWith (target k : Bytes) :
    (getClusteringRangeForBeginsWith target).contains compareUnsigned k = true ↔ target <+: k := by
  rw [isPrefix_iff_incremented, getClusteringRangeForBeginsWith]
  cases incremented target <;> simp [contains, admitsAbove_iff, admitsBelow_iff]

theorem bind_eq_ok {α β : Type} {x : Checked α} {f : α → Checked β} {b : β} :
    x >>= f = .ok b ↔ ∃ a, x = .ok a ∧ f a = .ok b := by
  cases x <;> simp [bind, Except.bind]

variable {kt c}

theorem beginsWith_exact (hn : c.type ≠ .n) (v k : Bytes) :
    (getClusteringRangeForBeginsWith v).contains (c.cmp kt) k = true ↔ v <+: k := by
  have hcmp : c.cmp kt = compareUnsigned := by
    funext v w
    unfold ColumnDefinition.cmp
    split <;> simp_all
  rw [hcmp, contains_beginsWith]

theorem cmp_swap (v w : Bytes) : c.cmp kt v w = (c.cmp kt w v).swap := by
  unfold ColumnDefinition.cmp
  split
  · exact kt.decimal.trans.eq_swap
  · have h := compareUnsigned_swap v w
    have h' := compareUnsigned_swap w v
    cases hv : compareUnsigned v w <;> cases hw : compareUnsigned w v <;> simp_all

variable {r : ClusteringRange}

theorem calculateCkBound_exact {op : ComparisonOperatorType} {attrs : List Value}
    (h : calculateCkBound kt c op attrs = .ok r) (k : Bytes) :
    r.contains (c.cmp kt) k = true ↔
      ∃ vs, attrs.mapM (keyBytes kt · c) = .ok vs ∧ op.Holds kt c k vs := by
  have hlen : attrs.length = if op = .between then 2 else 1 := by
    by_contra hne
    rw [calculateCkBound, if_pos hne] at h
    cases h
  rw [calculateCkBound, if_neg (not_not.mpr hlen)] at h
  obtain ⟨v, hv, h⟩ := bind_eq_ok.mp h
  cases op
  case between =>
    obtain ⟨a, b, rfl⟩ := List.length_eq_two.mp hlen
    obtain ⟨w, hw, h⟩ := bind_eq_ok.mp h
    cases h
    simp_all [bind_eq_ok, contains, admitsAbove_iff, admitsBelow_iff, ComparisonOperatorType.Holds]
  all_goals obtain ⟨a, rfl⟩ := List.length_eq_one_iff.mp hlen
  case beginsWith =>
    have hhold : r.contains (c.cmp kt) k = true ↔ v <+: k := by
      by_cases hnil : v = []
      · simp only [hnil, if_true] at h
        cases h
        simp [hnil, contains]
      · by_cases hn : c.type = .n
        · simp [hnil, hn, validation] at h
        · simp only [hnil, hn, if_false] at h
          cases h
          exact beginsWith_exact hn v k
    simp_all [bind_eq_ok, ComparisonOperatorType.Holds]
  all_goals
    cases h <;> cases hcmp : c.cmp kt k v <;>
      simp_all [bind_eq_ok, contains, ComparisonOperatorType.Holds]

theorem comparedRange_exact {op : PrimitiveOp} (hop : op ≠ .ne) {i : Fin 2} {v : Value}
    (h : comparedRange kt op i v c = .ok r) :
    ∃ ck, keyBytes kt v c = .ok ck ∧ ∀ k, r.contains (c.cmp kt) k = true ↔
      op.Holds (if i = 0 then c.cmp kt k ck else c.cmp kt ck k) := by
  obtain ⟨ck, hck, h⟩ := bind_eq_ok.mp h
  refine ⟨ck, hck, fun k => ?_⟩
  have hswap := @cmp_swap D kt c ck k
  fin_cases i <;> cases op <;> cases h <;> cases hcmp : c.cmp kt k ck <;>
    simp_all [contains, PrimitiveOp.Holds]

variable {schema : KeySchema} {names : Option (String → Option String)} {b b' : KeyBounds}

theorem setCkBound_eq_ok (hck : schema.ck = some c) {key : String}
    {range : ColumnDefinition → Checked ClusteringRange}
    (h : setCkBound schema b key range = .ok b') :
    b.ckBound = none ∧ key = c.name ∧ ∃ r, range c = .ok r ∧ b'.ckBound = some r := by
  unfold setCkBound validation at h
  by_cases hpk : key = schema.pk.name
  · simp [hpk] at h
  by_cases hkey : key = c.name
  · cases hb : b.ckBound <;> simp_all [Option.filter]
    obtain ⟨r, hr, h⟩ := bind_eq_ok.mp h
    cases h
    exact ⟨r, hr, rfl⟩
  · simp_all [Option.filter]

theorem addCondition_cases (hck : schema.ck = some c) {cond : PrimitiveCondition}
    (h : addCondition kt schema names b cond = .ok b') :
    (b'.ckBound = b.ckBound ∧ cond.attribute names ≠ some c.name) ∨
      b.ckBound = none ∧ cond.attribute names = some c.name ∧
        ∃ r, b'.ckBound = some r ∧ ∀ k, r.contains (c.cmp kt) k = true ↔ cond.Holds kt c k := by
  unfold addCondition at h
  split at h
  case h_1 name parameters =>
    split at h
    · cases h
    split at h
    · obtain ⟨key, hkey, h⟩ := bind_eq_ok.mp h
      obtain ⟨hb, rfl, r, hr, hb'⟩ := setCkBound_eq_ok hck h
      refine .inr ⟨hb, by simp [PrimitiveCondition.attribute, hkey, Except.toOption], r, hb', ?_⟩
      obtain ⟨raw, hraw, hr⟩ := bind_eq_ok.mp hr
      intro k
      by_cases hn : c.type = .n
      · simp [hn, validation] at hr
      have hhold := @beginsWith_exact D kt c hn raw k
      by_cases hnil : raw = [] <;> simp only [hn, hnil, if_true, if_false] at hr <;> cases hr <;>
        simp_all [PrimitiveCondition.Holds, operand, Except.toOption, contains]
    · cases h
  case h_2 => cases h
  case h_3 op v₀ v₁ =>
    obtain ⟨⟨p, v, i⟩, hv, h⟩ := bind_eq_ok.mp h
    obtain ⟨key, hkey, h⟩ := bind_eq_ok.mp h
    have hattr : (PrimitiveCondition.compare op v₀ v₁).attribute names = some key := by
      unfold attributeAndConstant at hv
      split at hv <;> cases hv <;> simp [PrimitiveCondition.attribute, hkey, Except.toOption]
    split at h
    · cases h
    rename_i hne
    split at h
    · rename_i hpk
      split at h
      · cases h
      obtain ⟨raw, -, h⟩ := bind_eq_ok.mp h
      cases h
      refine .inl ⟨rfl, ?_⟩
      rw [hattr, hpk.2]
      exact fun hname => schema.name_ne c hck (Option.some.inj hname).symm
    · obtain ⟨hb, rfl, r, hr, hb'⟩ := setCkBound_eq_ok hck h
      refine .inr ⟨hb, hattr, r, hb', fun k => ?_⟩
      obtain ⟨ck, hck, hexact⟩ := comparedRange_exact hne hr
      rw [hexact]
      unfold attributeAndConstant at hv
      split at hv <;> cases hv <;>
        simp [PrimitiveCondition.Holds, operand, hck, Except.toOption]
  case h_4 p v₁ v₂ =>
    obtain ⟨key, hkey, h⟩ := bind_eq_ok.mp h
    obtain ⟨hb, rfl, r, hr, hb'⟩ := setCkBound_eq_ok hck h
    refine .inr ⟨hb, by simp [PrimitiveCondition.attribute, hkey, Except.toOption], r, hb', ?_⟩
    obtain ⟨lower, hlower, hr⟩ := bind_eq_ok.mp hr
    obtain ⟨upper, hupper, hr⟩ := bind_eq_ok.mp hr
    cases hr
    simp [PrimitiveCondition.Holds, operand, hlower, hupper, Except.toOption,
      contains, admitsAbove_iff, admitsBelow_iff]
  case h_5 => cases h
  case h_6 =>
    obtain ⟨_, _, h⟩ := bind_eq_ok.mp h
    obtain ⟨_, _, h⟩ := bind_eq_ok.mp h
    cases h
  case h_7 => cases h

theorem foldlM_addCondition (hck : schema.ck = some c) {conditions : List PrimitiveCondition}
    (h : conditions.foldlM (addCondition kt schema names) b = .ok b') (k : Bytes) :
    (∀ r ∈ b'.ckBound, r.contains (c.cmp kt) k = true) ↔
      (∀ r ∈ b.ckBound, r.contains (c.cmp kt) k = true) ∧
        ∀ cond ∈ conditions, cond.attribute names = some c.name → cond.Holds kt c k := by
  induction conditions generalizing b with
  | nil =>
    cases h
    simp
  | cons cond conditions ih =>
    rw [List.foldlM_cons] at h
    obtain ⟨b₁, hcond, h⟩ := bind_eq_ok.mp h
    rw [ih h, List.forall_mem_cons]
    obtain ⟨hb, hne⟩ | ⟨hb, hattr, r, hr, hexact⟩ := addCondition_cases hck hcond
    · simp [hb, hne]
    · simp [hb, hattr, hr, hexact k]

/-- The range that is built for conditions holds exactly the sort keys that satisfy them. -/
theorem keyConditions_exact (kt : KeyTypes D) {schema : KeySchema} {c : ColumnDefinition}
    (hck : schema.ck = some c) :
    (∀ op attrs r, calculateCkBound kt c op attrs = .ok r → ∀ k,
      (r.contains (c.cmp kt) k = true ↔
        ∃ vs, attrs.mapM (keyBytes kt · c) = .ok vs ∧ op.Holds kt c k vs)) ∧
    (∀ names conditions pk r,
      calculateBoundsConditionExpression kt schema names conditions = .ok (pk, r) → ∀ k,
        (r.contains (c.cmp kt) k = true ↔
          ∀ cond ∈ conditions, cond.attribute names = some c.name → cond.Holds kt c k)) ∧
    ∀ start k, start ≠ [] →
      ((getClusteringRangeForBeginsWith start).contains compareUnsigned k = true ↔
        start <+: k) := by
  refine ⟨fun op attrs r h k => calculateCkBound_exact h k, ?_,
    fun start k _ => contains_beginsWith start k⟩
  intro names conditions pk r h k
  unfold calculateBoundsConditionExpression at h
  split at h
  · cases h
  obtain ⟨b, hb, h⟩ := bind_eq_ok.mp h
  have hrun := foldlM_addCondition hck hb k
  dsimp only at h
  split at h
  · cases h
  cases h
  cases hbound : b.ckBound <;> simp_all [contains]

/-- One constant, which stands for the bytes 61 and FF. -/
def oneConstant : KeyTypes Unit where
  scalars := ⟨fun _ => .ok (), fun _ _ => (), fun _ _ => (), fun _ => "", fun _ => true⟩
  serialize _ _ := [97, 255]
  decimal := ⟨fun _ _ => .eq, { eq_swap := rfl, isLE_trans := fun _ _ => rfl }⟩

def bothKeys : KeySchema := ⟨⟨"p", .b⟩, some ⟨"c", .b⟩, by rintro _ ⟨⟩; decide⟩

/-- `:x = p AND begins_with(c, :x)` -/
def conjunction : List PrimitiveCondition :=
  [.compare .eq (.constant (.b "Yf8=")) (.path ⟨"p", []⟩),
    .value (.functionCall "begins_with" [.path ⟨"c", []⟩, .constant (.b "Yf8=")])]

theorem keyConditions_exact_beginsWith :
    calculateBoundsConditionExpression oneConstant bothKeys none conjunction =
      .ok ([97, 255], ⟨some ⟨[97, 255], true⟩, some ⟨[98], false⟩⟩) ∧
    ∀ k, (⟨some ⟨[97, 255], true⟩, some ⟨[98], false⟩⟩ : ClusteringRange).contains
      (ColumnDefinition.cmp oneConstant ⟨"c", .b⟩) k = true ↔
        ∀ cond ∈ conjunction, cond.attribute none = some "c" → cond.Holds oneConstant ⟨"c", .b⟩ k :=
  ⟨rfl, (@keyConditions_exact Unit oneConstant bothKeys _ rfl).2.1 none conjunction _ _ rfl⟩

end Meaning
end Scylla.Alternator
