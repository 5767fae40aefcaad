import Mathlib.Data.List.Sort
import Scylla.Alternator.Expression

/-!
# Maps of attribute paths

The actions of an update expression are kept in a tree of the operators of their paths. The tree
built from a list of paths exists exactly if no two of them overlap (one leads through the other) or
conflict (one place would have to be a map and a list), in whatever order they are listed, and it
then finds each of them.
-/

namespace Scylla.Alternator

open Function
open List

/-! ## Overlaps and conflicts -/

/-- One of the paths leads to the other, or through it. -/
def Overlap (p q : List PathOp) : Prop := p <+: q ∨ q <+: p

/-- The paths ask for a member and for an index at the same place. -/
def Conflict (p q : List PathOp) : Prop :=
  ∃ (common : List PathOp) (k : String) (i : ℕ) (p' q' : List PathOp),
    p = common ++ .member k :: p' ∧ q = common ++ .index i :: q' ∨
      p = common ++ .index i :: p' ∧ q = common ++ .member k :: q'

/-- The paths cannot both be in one map. -/
def Clash (p q : List PathOp) : Prop := Overlap p q ∨ Conflict p q

variable {p q : List PathOp}

theorem clash_nil_left (p : List PathOp) : Clash [] p := .inl (.inl p.nil_prefix)

theorem clash_nil_right (p : List PathOp) : Clash p [] := .inl (.inr p.nil_prefix)

private theorem conflict_cons {op op' : PathOp} : Conflict (op :: p) (op' :: q) ↔
    op = op' ∧ Conflict p q ∨
      ∃ k i, op = .member k ∧ op' = .index i ∨ op = .index i ∧ op' = .member k := by
  constructor
  · rintro ⟨_ | ⟨c, common⟩, k, i, p', q', h⟩
    · simp only [nil_append, List.cons.injEq] at h
      exact .inr ⟨k, i, h.imp (.imp And.left And.left) (.imp And.left And.left)⟩
    · simp only [cons_append, List.cons.injEq] at h
      rcases h with ⟨⟨rfl, hp⟩, rfl, hq⟩ | ⟨⟨rfl, hp⟩, rfl, hq⟩
      · exact .inl ⟨rfl, common, k, i, p', q', .inl ⟨hp, hq⟩⟩
      · exact .inl ⟨rfl, common, k, i, p', q', .inr ⟨hp, hq⟩⟩
  · rintro (⟨rfl, common, k, i, p', q', h⟩ | ⟨k, i, h⟩)
    · exact ⟨op :: common, k, i, p', q', by simpa using h⟩
    · exact ⟨[], k, i, p, q, by simpa using h⟩

theorem clash_cons {op op' : PathOp} : Clash (op :: p) (op' :: q) ↔
    op = op' ∧ Clash p q ∨
      ∃ k i, op = .member k ∧ op' = .index i ∨ op = .index i ∧ op' = .member k := by
  unfold Clash Overlap
  rw [cons_prefix_cons, cons_prefix_cons, conflict_cons, eq_comm (a := op') (b := op)]
  simp only [and_or_left, or_assoc]

/-! ## The tree -/

inductive Node (A : Type) where
  | empty
  | value (a : A)
  | members (keys : List String) (child : String → Node A)
  | indexes (keys : List ℕ) (child : ℕ → Node A)

namespace Node

variable {A : Type}

def hasValue : Node A → Bool
  | .value _ => true
  | _ => false

def values : Node A → List A
  | .empty => []
  | .value a => [a]
  | .members keys child => keys.flatMap fun k => (child k).values
  | .indexes keys child => keys.flatMap fun i => (child i).values

def add (p : Path) (a : A) : List PathOp → Node A → Except ApiError (Node A)
  | [], .empty => .ok (.value a)
  | [], _ => .error (.pathsOverlap p)
  | .member k :: ops, h =>
    match h with
    | .empty => (add p a ops .empty).map fun c =>
        .members [k] (update (fun _ => .empty) k c)
    | .members keys child =>
      if k ∈ keys then
        (add p a ops (child k)).map fun c => .members keys (update child k c)
      else (add p a ops .empty).map fun c => .members (keys ++ [k]) (update child k c)
    | .indexes _ _ => .error (.pathsConflict p)
    | .value _ => .error (.pathsOverlap p)
  | .index i :: ops, h =>
    match h with
    | .empty => (add p a ops .empty).map fun c =>
        .indexes [i] (update (fun _ => .empty) i c)
    | .indexes keys child =>
      if i ∈ keys then
        (add p a ops (child i)).map fun c => .indexes keys (update child i c)
      else
        (add p a ops .empty).map fun c =>
          .indexes (keys.orderedInsert (· ≤ ·) i) (update child i c)
    | .members _ _ => .error (.pathsConflict p)
    | .value _ => .error (.pathsOverlap p)

def find : List PathOp → Node A → Option A
  | [], .value a => some a
  | .member k :: ops, .members keys child => if k ∈ keys then find ops (child k) else none
  | .index i :: ops, .indexes keys child => if i ∈ keys then find ops (child i) else none
  | _, _ => none

/-- Every branch of the tree ends in a value, and its keys are as the containers keep them. -/
inductive Valid : Node A → Prop
  | value (a : A) : Valid (.value a)
  | members {keys : List String} {child : String → Node A} : keys ≠ [] → keys.Nodup →
      (∀ k ∈ keys, (child k).Valid) → Valid (.members keys child)
  | indexes {keys : List ℕ} {child : ℕ → Node A} : keys ≠ [] → keys.Pairwise (· < ·) →
      (∀ i ∈ keys, (child i).Valid) → Valid (.indexes keys child)

theorem find_empty (q : List PathOp) : find q (.empty : Node A) = none := by
  rcases q with _ | ⟨_ | _, _⟩ <;> rfl

variable {a b : A} {h : Node A}

theorem find_value (h : find q (.value a) = some b) : q = [] ∧ b = a := by
  rcases q with _ | ⟨_ | _, _⟩
  · exact ⟨rfl, (Option.some.inj h).symm⟩
  · cases h
  · cases h

theorem find_members {keys : List String} {child : String → Node A}
    (h : find q (.members keys child) = some b) :
    ∃ k ∈ keys, ∃ q', q = .member k :: q' ∧ find q' (child k) = some b := by
  rcases q with _ | ⟨k | _, q'⟩
  · cases h
  · rw [find, Option.ite_none_right_eq_some] at h
    exact ⟨k, h.1, q', rfl, h.2⟩
  · cases h

theorem find_indexes {keys : List ℕ} {child : ℕ → Node A}
    (h : find q (.indexes keys child) = some b) :
    ∃ i ∈ keys, ∃ q', q = .index i :: q' ∧ find q' (child i) = some b := by
  rcases q with _ | ⟨_ | i, q'⟩
  · cases h
  · cases h
  · rw [find, Option.ite_none_right_eq_some] at h
    exact ⟨i, h.1, q', rfl, h.2⟩

theorem Valid.exists_find (hv : h.Valid) : ∃ q a, find q h = some a := by
  induction hv with
  | value a => exact ⟨[], a, rfl⟩
  | members hne _ _ ih =>
    obtain ⟨k, hk⟩ := exists_mem_of_ne_nil _ hne
    obtain ⟨q, a, hq⟩ := ih k hk
    exact ⟨.member k :: q, a, (if_pos hk).trans hq⟩
  | indexes hne _ _ ih =>
    obtain ⟨i, hi⟩ := exists_mem_of_ne_nil _ hne
    obtain ⟨q, a, hq⟩ := ih i hi
    exact ⟨.index i :: q, a, (if_pos hi).trans hq⟩

structure Added (a : A) (ops : List PathOp) (h : Node A) (x : Except ApiError (Node A)) : Prop where
  error_iff : (∃ e, x = .error e) ↔ ∃ q b, find q h = some b ∧ Clash q ops
  valid : ∀ h', x = .ok h' → h'.Valid
  find_eq : ∀ h', x = .ok h' → ∀ q, find q h' = if q = ops then some a else find q h

private theorem pairwise_lt_orderedInsert {keys : List ℕ} (h : keys.Pairwise (· < ·)) {i : ℕ}
    (hi : i ∉ keys) : (keys.orderedInsert (· ≤ ·) i).Pairwise (· < ·) := by
  have hle : (keys.orderedInsert (· ≤ ·) i).Pairwise (· ≤ ·) :=
    (h.imp fun hlt => le_of_lt hlt).orderedInsert i
  have hne : (keys.orderedInsert (· ≤ ·) i).Nodup :=
    (perm_orderedInsert _ i keys).nodup_iff.mpr
      (nodup_cons.mpr ⟨hi, h.imp fun hlt => ne_of_lt hlt⟩)
  exact (hle.and hne).imp fun ⟨h1, h2⟩ => lt_of_le_of_ne h1 h2

variable {x : Except ApiError (Node A)}

section Children

variable {κ : Type} [DecidableEq κ]

structure Kind (op : κ → PathOp) (mk : List κ → (κ → Node A) → Node A) (Kept : List κ → Prop)
    (insert : κ → List κ → List κ) : Prop where
  find_mk : ∀ keys child k q, find (op k :: q) (mk keys child) =
    if k ∈ keys then find q (child k) else none
  of_find : ∀ {keys child q b}, find q (mk keys child) = some b →
    ∃ k ∈ keys, ∃ q', q = op k :: q' ∧ find q' (child k) = some b
  clash : ∀ {j k p q}, Clash (op j :: p) (op k :: q) ↔ j = k ∧ Clash p q
  kept_nil : Kept []
  kept_insert : ∀ {keys k}, Kept keys → k ∉ keys → Kept (insert k keys)
  mem_insert : ∀ {keys j k}, j ∈ insert k keys ↔ j = k ∨ j ∈ keys
  valid : ∀ {keys child}, keys ≠ [] → Kept keys → (∀ k ∈ keys, (child k).Valid) →
    (mk keys child).Valid
  add_mk : ∀ p a ops keys child k, add p a (op k :: ops) (mk keys child) =
    if k ∈ keys then (add p a ops (child k)).map fun c => mk keys (update child k c)
    else (add p a ops .empty).map fun c => mk (insert k keys) (update child k c)

theorem kindMember :
    Kind .member (.members (A := A)) List.Nodup fun k keys => keys ++ [k] where
  find_mk _ _ _ _ := rfl
  of_find := find_members
  clash := by simp [clash_cons]
  kept_nil := nodup_nil
  kept_insert h hk := concat_eq_append ▸ h.concat hk
  mem_insert := by simp [or_comm]
  valid := .members
  add_mk _ _ _ _ _ _ := rfl

theorem kindIndex :
    Kind .index (.indexes (A := A)) (List.Pairwise (· < ·)) (List.orderedInsert (· ≤ ·)) where
  find_mk _ _ _ _ := rfl
  of_find := find_indexes
  clash := by simp [clash_cons]
  kept_nil := List.Pairwise.nil
  kept_insert h hk := pairwise_lt_orderedInsert h hk
  mem_insert := mem_orderedInsert _
  valid := .indexes
  add_mk _ _ _ _ _ _ := rfl

variable {op : κ → PathOp} {mk : List κ → (κ → Node A) → Node A} {Kept : List κ → Prop}
  {insert : κ → List κ → List κ} (hkind : Kind op mk Kept insert) {keys keys' : List κ}
  {child : κ → Node A} {k : κ} {ops : List PathOp}

include hkind

private theorem Kind.added_child (hkeys : ∀ j, j ∈ keys' ↔ j = k ∨ j ∈ keys)
    (hkept : Kept keys') (hchild : ∀ j ∈ keys, (child j).Valid)
    {c : Node A} (hc : ∀ q, find (op k :: q) (mk keys child) = find q c) (hx : Added a ops c x) :
    Added a (op k :: ops) (mk keys child)
      (x.map fun c => mk keys' (update child k c)) := by
  have hclash : (∃ q b, find q c = some b ∧ Clash q ops) ↔
      ∃ q b, find q (mk keys child) = some b ∧ Clash q (op k :: ops) := by
    constructor
    · rintro ⟨q, b, hq, hcl⟩
      exact ⟨op k :: q, b, (hc q).trans hq, hkind.clash.mpr ⟨rfl, hcl⟩⟩
    · rintro ⟨q, b, hq, hcl⟩
      obtain ⟨j, -, q', rfl, -⟩ := hkind.of_find hq
      obtain ⟨rfl, hcl'⟩ := hkind.clash.mp hcl
      exact ⟨q', b, (hc q').symm.trans hq, hcl'⟩
  cases x with
  | error e =>
    exact ⟨iff_of_true ⟨e, rfl⟩ (hclash.mp (hx.error_iff.mp ⟨e, rfl⟩)), nofun, nofun⟩
  | ok c' =>
    refine ⟨iff_of_false nofun (mt hclash.mpr (mt hx.error_iff.mpr nofun)), ?_, ?_⟩
    · rintro h' ⟨⟩
      refine hkind.valid (ne_nil_of_mem ((hkeys k).mpr (.inl rfl))) hkept fun j hj => ?_
      by_cases hjk : j = k
      · rw [hjk, update_self]
        exact hx.valid c' rfl
      · rw [update_of_ne hjk]
        exact hchild j (((hkeys j).mp hj).resolve_left hjk)
    · rintro h' ⟨⟩ q
      by_cases hq : ∃ j q', q = op j :: q'
      · obtain ⟨j, q', rfl⟩ := hq
        rw [hkind.find_mk]
        by_cases hjk : j = k
        · subst hjk
          have heq : op j :: q' = op j :: ops ↔ q' = ops := by simp
          rw [if_pos ((hkeys j).mpr (.inl rfl)), update_self, hx.find_eq c' rfl, hc]
          simp only [heq]
        · have hne : op j :: q' ≠ op k :: ops := fun h =>
            hjk (hkind.clash.mp (.inl (.inl ⟨[], (append_nil _).trans h⟩))).1
          have hmem : j ∈ keys' ↔ j ∈ keys := (hkeys j).trans (or_iff_right hjk)
          rw [if_neg hne, update_of_ne hjk, hkind.find_mk]
          simp only [hmem]
      · have hnone : ∀ keys child, find q (mk keys child) = none := fun keys child =>
          Option.eq_none_iff_forall_ne_some.mpr fun b hb =>
            let ⟨j, _, q', heq, _⟩ := hkind.of_find hb
            hq ⟨j, q', heq⟩
        rw [hnone, hnone, if_neg fun h => hq ⟨k, ops, h⟩]

theorem Kind.added {p : Path} (hkept : Kept keys) (hchild : ∀ j ∈ keys, (child j).Valid)
    (ih : ∀ {h : Node A}, h = .empty ∨ h.Valid → Added a ops h (add p a ops h)) (k : κ) :
    Added a (op k :: ops) (mk keys child) (add p a (op k :: ops) (mk keys child)) := by
  rw [hkind.add_mk]
  by_cases hk : k ∈ keys
  · rw [if_pos hk]
    refine hkind.added_child (fun j => ?_) hkept hchild (fun q => ?_) (ih (.inr (hchild k hk)))
    · exact ⟨.inr, fun hj => hj.elim (fun hjk => hjk ▸ hk) id⟩
    · rw [hkind.find_mk, if_pos hk]
  · rw [if_neg hk]
    refine hkind.added_child (fun j => hkind.mem_insert) (hkind.kept_insert hkept hk) hchild
      (fun q => ?_) (ih (.inl rfl))
    rw [hkind.find_mk, if_neg hk, find_empty]

end Children

private theorem added_error {ops : List PathOp} (e : ApiError)
    (hclash : ∃ q b, find q h = some b ∧ Clash q ops) : Added a ops h (.error e) :=
  ⟨iff_of_true ⟨e, rfl⟩ hclash, nofun, nofun⟩

private theorem Added.of_find_eq {ops : List PathOp} {h' : Node A}
    (hx : Added a ops h x) (hfind : ∀ q, find q h = find q h') : Added a ops h' x :=
  ⟨by simpa only [hfind] using hx.error_iff, hx.valid, by simpa only [hfind] using hx.find_eq⟩

theorem add_spec (p : Path) (a : A) (ops : List PathOp) (hv : h = .empty ∨ h.Valid) :
    Added a ops h (add p a ops h) := by
  induction ops generalizing h with
  | nil =>
    rcases hv with rfl | hv
    · refine ⟨iff_of_false nofun ?_, ?_, ?_⟩
      · rintro ⟨q, b, hq, -⟩
        rw [find_empty] at hq
        cases hq
      · rintro h' ⟨⟩
        exact .value a
      · rintro h' ⟨⟩ q
        rcases q with _ | ⟨_ | _, _⟩ <;> rfl
    · obtain ⟨q, b, hq⟩ := hv.exists_find
      have hclash : ∃ q b, find q h = some b ∧ Clash q [] := ⟨q, b, hq, clash_nil_right q⟩
      cases hv with
      | value b => exact added_error _ hclash
      | members => exact added_error _ hclash
      | indexes => exact added_error _ hclash
  | cons op ops ih =>
    cases op with
    | member k =>
      rcases hv with rfl | hv
      · -- an empty node becomes one without members first
        have hx : Added a (.member k :: ops) (.members [] fun _ => .empty) _ :=
          kindMember.added .nil (by simp) ih k
        refine hx.of_find_eq ?_
        rintro (_ | ⟨_ | _, _⟩) <;> rfl
      · cases hv with
        | value b => exact added_error _ ⟨[], b, rfl, clash_nil_left _⟩
        | members _ hnodup hchild => exact kindMember.added hnodup hchild ih k
        | indexes hne hsorted hchild =>
          obtain ⟨q, b, hq⟩ := (Valid.indexes hne hsorted hchild).exists_find
          obtain ⟨i, -, q', rfl, -⟩ := find_indexes hq
          exact added_error _ ⟨_, b, hq, clash_cons.mpr (.inr ⟨k, i, .inr ⟨rfl, rfl⟩⟩)⟩
    | index i =>
      rcases hv with rfl | hv
      · have hx : Added a (.index i :: ops) (.indexes [] fun _ => .empty) _ :=
          kindIndex.added .nil (by simp) ih i
        refine hx.of_find_eq ?_
        rintro (_ | ⟨_ | _, _⟩) <;> rfl
      · cases hv with
        | value b => exact added_error _ ⟨[], b, rfl, clash_nil_left _⟩
        | indexes _ hsorted hchild => exact kindIndex.added hsorted hchild ih i
        | members hne hnodup hchild =>
          obtain ⟨q, b, hq⟩ := (Valid.members hne hnodup hchild).exists_find
          obtain ⟨k, -, q', rfl, -⟩ := find_members hq
          exact added_error _ ⟨_, b, hq, clash_cons.mpr (.inr ⟨k, i, .inl ⟨rfl, rfl⟩⟩)⟩

end Node

/-! ## Maps -/

/-- `attribute_path_map`: a tree for each top-level attribute that has one. -/
structure PathMap (A : Type) where
  keys : List String
  child : String → Node A

section Map

variable {A : Type}

/-- The map as a tree whose members are the top-level attributes. -/
def PathMap.toNode (map : PathMap A) : Node A := .members map.keys map.child

def attributePathMapAdd (map : PathMap A) (p : Path) (a : A) : Except ApiError (PathMap A) :=
  if p.root ∉ map.keys then
    if p.hasOperators then
      (Node.add p a p.operators .empty).map fun c =>
        ⟨map.keys ++ [p.root], update map.child p.root c⟩
    else .ok ⟨map.keys ++ [p.root], update map.child p.root (.value a)⟩
  else if !p.hasOperators then .error (.pathsOverlap ⟨p.root, []⟩)
  else if (map.child p.root).hasValue then .error (.pathsOverlap ⟨p.root, []⟩)
  else
    (Node.add p a p.operators (map.child p.root)).map fun c =>
      ⟨map.keys, update map.child p.root c⟩

structure PathMap.Valid (map : PathMap A) : Prop where
  nodup : map.keys.Nodup
  child : ∀ k ∈ map.keys, (map.child k).Valid

theorem PathMap.valid_toNode {map : PathMap A} (h : map.toNode.Valid) : map.Valid := by
  cases h with
  | members _ hnodup hchild => exact ⟨hnodup, hchild⟩

private theorem map_map_toNode (x : Except ApiError (Node A)) (f : Node A → PathMap A) :
    (x.map f).map PathMap.toNode = x.map fun c => (f c).toNode := by
  cases x <;> rfl

theorem attributePathMapAdd_spec {map : PathMap A} (hv : map.Valid) (p : Path) (a : A) :
    Node.Added a p.full map.toNode ((attributePathMapAdd map p a).map PathMap.toNode) := by
  have hadd : Node.Added a p.full map.toNode (Node.add p a p.full map.toNode) :=
    Node.kindMember.added hv.nodup hv.child (Node.add_spec p a _) p.root
  rw [Path.full, PathMap.toNode, Node.kindMember.add_mk] at hadd
  rw [attributePathMapAdd]
  by_cases hroot : p.root ∈ map.keys
  · have herror : ∀ e e', Node.add p a p.operators (map.child p.root) = .error e →
        Node.Added a p.full map.toNode (.error e') := by
      intro e e' he
      rw [if_pos hroot, he] at hadd
      exact Node.added_error _ (hadd.error_iff.mp ⟨e, rfl⟩)
    have hchild := hv.child _ hroot
    rw [if_pos hroot] at hadd
    rw [if_neg (not_not_intro hroot)]
    split
    next hops =>
      have hnil : p.operators = [] := by simpa [Path.hasOperators] using hops
      refine herror (.pathsOverlap p) _ ?_
      rw [hnil]
      generalize map.child p.root = c at hchild
      cases hchild <;> rfl
    next hops =>
      split
      next hval =>
        refine herror (.pathsOverlap p) _ ?_
        cases hc : map.child p.root with
        | value b => rcases p.operators with _ | ⟨_ | _, _⟩ <;> rfl
        | _ => simp [hc, Node.hasValue] at hval
      next => rwa [map_map_toNode]
  · rw [if_neg hroot] at hadd
    rw [if_pos hroot]
    split
    next => rwa [map_map_toNode]
    next hops =>
      have hnil : p.operators = [] := by simpa [Path.hasOperators] using hops
      rw [Path.full, hnil]
      rwa [hnil] at hadd

def attributePathMap (path : A → Path) (entries : List A) : Except ApiError (PathMap A) :=
  entries.foldlM (fun map a => attributePathMapAdd map (path a) a) ⟨[], fun _ => .empty⟩

/-- The map finds exactly the entries of the list, each under its path. -/
structure PathMap.Holds (map : PathMap A) (path : A → Path) (entries : List A) : Prop where
  valid : map.Valid
  find_iff : ∀ q a, map.toNode.find q = some a ↔ a ∈ entries ∧ (path a).full = q

section Build

variable {path : A → Path} {map map' : PathMap A} {seen entries : List A}

/-- Two entries whose paths cannot both be in one map. -/
def Clashing (path : A → Path) (a b : A) : Prop := Clash (path a).full (path b).full

theorem attributePathMapAdd_error_iff (hm : map.Holds path seen) (a : A) :
    (∃ e, attributePathMapAdd map (path a) a = .error e) ↔ ∃ b ∈ seen, Clashing path b a := by
  have hspec := (attributePathMapAdd_spec hm.valid (path a) a).error_iff
  have hmap : (∃ e, (attributePathMapAdd map (path a) a).map PathMap.toNode = .error e) ↔
      ∃ e, attributePathMapAdd map (path a) a = .error e := by
    cases attributePathMapAdd map (path a) a with
    | error e => exact iff_of_true ⟨e, rfl⟩ ⟨e, rfl⟩
    | ok map' => exact iff_of_false nofun nofun
  rw [← hmap, hspec]
  constructor
  · rintro ⟨q, b, hq, hc⟩
    obtain ⟨hb, rfl⟩ := (hm.find_iff q b).mp hq
    exact ⟨b, hb, hc⟩
  · rintro ⟨b, hb, hc⟩
    exact ⟨(path b).full, b, (hm.find_iff _ _).mpr ⟨hb, rfl⟩, hc⟩

theorem PathMap.Holds.add (hm : map.Holds path seen) {a : A}
    (h : attributePathMapAdd map (path a) a = .ok map') : map'.Holds path (seen ++ [a]) := by
  have hspec := attributePathMapAdd_spec hm.valid (path a) a
  rw [h] at hspec
  refine ⟨PathMap.valid_toNode (hspec.valid _ rfl), fun q b => ?_⟩
  rw [hspec.find_eq _ rfl, mem_append, mem_singleton]
  have hnone : ¬ ∃ b ∈ seen, Clashing path b a := by
    rw [← attributePathMapAdd_error_iff hm, h]
    exact nofun
  by_cases hq : q = (path a).full
  · rw [if_pos hq, Option.some.injEq]
    constructor
    · rintro rfl
      exact ⟨.inr rfl, hq.symm⟩
    · rintro ⟨hb | hb, hbq⟩
      · have hclash : Clashing path b a := .inl (.inl (by rw [hbq.trans hq]))
        exact (hnone ⟨b, hb, hclash⟩).elim
      · exact hb.symm
  · rw [if_neg hq, hm.find_iff]
    refine and_congr_left fun hbq => (or_iff_left ?_).symm
    rintro rfl
    exact hq hbq.symm

theorem attributePathMap_from (hm : map.Holds path seen)
    (hseen : seen.Pairwise fun a b => ¬ Clashing path a b) :
    ((∃ map', entries.foldlM (fun map a => attributePathMapAdd map (path a) a) map = .ok map') ↔
        (seen ++ entries).Pairwise fun a b => ¬ Clashing path a b) ∧
      ∀ map', entries.foldlM (fun map a => attributePathMapAdd map (path a) a) map = .ok map' →
        map'.Holds path (seen ++ entries) := by
  induction entries generalizing map seen with
  | nil =>
    rw [append_nil]
    exact ⟨iff_of_true ⟨map, rfl⟩ hseen, fun map' h => Except.ok.inj h ▸ hm⟩
  | cons a entries ih =>
    have herror := attributePathMapAdd_error_iff hm a
    rw [foldlM_cons]
    cases hadd : attributePathMapAdd map (path a) a with
    | error e =>
      obtain ⟨b, hb, hc⟩ := herror.mp ⟨e, hadd⟩
      refine ⟨iff_of_false nofun fun hp => ?_, nofun⟩
      exact (pairwise_append.mp hp).2.2 b hb a mem_cons_self hc
    | ok map1 =>
      have hno : ¬ ∃ b ∈ seen, Clashing path b a := by
        rw [← herror, hadd]
        exact nofun
      have hseen' : (seen ++ [a]).Pairwise fun a b => ¬ Clashing path a b := by
        refine pairwise_append.mpr ⟨hseen, pairwise_singleton _ _, ?_⟩
        intro b hb c hc
        exact mem_singleton.mp hc ▸ fun hcl => hno ⟨b, hb, hcl⟩
      have hrest := ih (hm.add hadd) hseen'
      rw [append_assoc, singleton_append] at hrest
      exact hrest

theorem attributePathMap_spec (path : A → Path) (entries : List A) :
    ((∃ map, attributePathMap path entries = .ok map) ↔
        entries.Pairwise fun a b => ¬ Clashing path a b) ∧
      ∀ map, attributePathMap path entries = .ok map → map.Holds path entries := by
  have hm : PathMap.Holds (⟨[], fun _ => .empty⟩ : PathMap A) path [] := by
    refine ⟨⟨nodup_nil, by simp⟩, fun q a => iff_of_false ?_ (by simp)⟩
    rcases q with _ | ⟨_ | _, _⟩
    · exact nofun
    · simp [PathMap.toNode, Node.find]
    · exact nofun
  exact attributePathMap_from hm List.Pairwise.nil

end Build

end Map

end Scylla.Alternator
