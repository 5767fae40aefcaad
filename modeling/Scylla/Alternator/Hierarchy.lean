import Scylla.Alternator.PathMap

/-!
# Performing the actions of a path map on a document

`hierarchyActions` edits a document on its walk over a tree of actions, and the elements of a list
move while later indexes are still to be edited. `Performed` says what is meant: every action takes
place where its path leads in the original document. The walk succeeds exactly if every path leads
somewhere and every action has a result, and then gives what is meant.
-/

namespace Scylla.Alternator

/-- The order in which a container without an order is walked. -/
structure Iteration where
  order : List String → List String
  perm : ∀ keys, (order keys).Perm keys

section Walk

variable {D : Type} (sc : Scalars D) (it : Iteration) (item : Option Item)

/-- What the tree `subh` makes of a place that does not exist, where `h` is the tree around it. -/
def createdBy (h subh : Node Action) : Except ApiError (Option Value) :=
  match subh with
  | .value a => actionResult sc item a
  | _ => .error (.pathsNotValid (h.values.map (·.path)))

/-- `hierarchy_actions`: the document after the actions, or none if it is to be removed. -/
def hierarchyActions (h : Node Action) (obj : Value) : Except ApiError (Option Value) :=
  if obj.isNull then .error (.malformedValueRead obj)
  else
    match h with
    | .empty => .ok (some obj)
    | .value a => actionResult sc item a
    | .members keys child =>
      match obj with
      | .m ms =>
        (editMembers (fun k subobj =>
          match subobj with
          | some subobj => hierarchyActions (child k) subobj
          | none => createdBy sc item (.members keys child) (child k))
          (it.order keys) ms).map fun ms => some (.m ms)
      | _ => .error (.pathsNotValid ((Node.members keys child).values.map (·.path)))
    | .indexes keys child =>
      match obj with
      | .l xs =>
        (editIndexes (fun i subobj =>
          match subobj with
          | some subobj => hierarchyActions (child i) subobj
          | none => createdBy sc item (.indexes keys child) (child i))
          keys (xs, 0)).map fun st => some (.l st.1)
      | _ => .error (.pathsNotValid ((Node.indexes keys child).values.map (·.path)))

end Walk

/-! ## What is meant -/

/-- The document `old` with everything in `acts` done to it is `new`: `acts` says what is put at a
path, if anything. Paths lead where they do in `old`: indexes count its elements, elements past the
end follow in the order of their indexes, and taking one away there does nothing. -/
inductive Performed :
    (List PathOp → Option (Option Value)) → Option Value → Option Value → Prop
  | untouched {acts} {old : Option Value} : (∀ p, acts p = none) → Performed acts old old
  | replaced {acts} {old new : Option Value} : acts [] = some new →
      (∀ p, acts p ≠ none → p = []) → Performed acts old new
  | members {acts} {ms ms' : List (String × Value)} :
      (∀ p, acts p ≠ none → ∃ k q, p = .member k :: q) →
      (∀ k, Performed (fun p => acts (.member k :: p)) (ms.lookup k) (ms'.lookup k)) →
      (ms'.map Prod.fst).Nodup → Performed acts (some (.m ms)) (some (.m ms'))
  | indexes {acts} {xs : List Value} {n : ℕ} {new : ℕ → Option Value} :
      (∀ p, acts p ≠ none → ∃ i q, p = .index i :: q) →
      (∀ i, Performed (fun p => acts (.index i :: p)) xs[i]? (new i)) →
      (∀ i, n ≤ i → new i = none) →
      Performed acts (some (.l xs)) (some (.l ((List.range n).filterMap new)))

/-- What is put into a well-formed document and is well formed leaves it so. -/
theorem Performed.wellFormed {acts : List PathOp → Option (Option Value)} {old new : Option Value}
    (h : Performed acts old new) (hold : ∀ v ∈ old, v.WellFormed)
    (hacts : ∀ p v, acts p = some (some v) → v.WellFormed) : ∀ v ∈ new, v.WellFormed := by
  induction h with
  | untouched _ => exact hold
  | replaced hnew _ => exact fun v hv => hacts [] v (hv ▸ hnew)
  | @members acts ms ms' _ _ hnodup ih =>
    rintro v ⟨⟩
    have hms : (Value.m ms).WellFormed := hold _ rfl
    refine Value.wellFormed_m hnodup fun k v hk => ?_
    exact ih k (fun u hu => hms.lookup hu) (fun p u hu => hacts _ u hu) v hk
  | @indexes acts xs n new _ _ _ ih =>
    rintro v ⟨⟩
    have hxs : (Value.l xs).WellFormed := hold _ rfl
    refine .l fun v hv => ?_
    obtain ⟨i, -, hi⟩ := List.mem_filterMap.mp hv
    exact ih i (fun u hu => hxs.getElem? hu) (fun p u hu => hacts _ u hu) v hi

/-- Two lists of results with the same outcome have the same results, if the first has nothing
wherever the second has nothing. -/
private theorem eqOn_of_filterMap_eq {f g : ℕ → Option Value} {l : List ℕ}
    (hle : ∀ i ∈ l, g i = none → f i = none) (heq : l.filterMap f = l.filterMap g) :
    ∀ i ∈ l, f i = g i := by
  have hlength : ∀ l : List ℕ, (∀ i ∈ l, g i = none → f i = none) →
      (l.filterMap f).length ≤ (l.filterMap g).length := by
    intro l hl
    induction l with
    | nil => simp
    | cons i l ih => grind
  induction l with
  | nil => exact nofun
  | cons i l ih =>
    have hshort := hlength l fun i hi => hle i (List.mem_cons_of_mem _ hi)
    grind

private theorem filterMap_range_of_le {f : ℕ → Option Value} {n m : ℕ} (hnm : n ≤ m)
    (hf : ∀ i, n ≤ i → f i = none) : (List.range m).filterMap f = (List.range n).filterMap f := by
  induction m, hnm using Nat.le_induction with
  | base => rfl
  | succ m hm ih => rw [List.range_succ, List.filterMap_append, ih,
      List.filterMap_cons_none (hf m hm), List.filterMap_nil, List.append_nil]

section Unique

variable {acts acts' : List PathOp → Option (Option Value)} {old new new' : Option Value}

/-- Actions at the same paths; what `acts'` takes away, `acts` takes away. -/
def TakesMore (acts acts' : List PathOp → Option (Option Value)) : Prop :=
  ∀ p, (acts p = none ↔ acts' p = none) ∧ (acts' p = some none → acts p = some none)

theorem Performed.eq_none (h : Performed acts old new) (h' : Performed acts' old none)
    (hmore : TakesMore acts acts') : new = none := by
  cases h' with
  | untouched hnone =>
    cases h with
    | untouched _ => rfl
    | replaced hnew _ => exact nomatch hnew.symm.trans ((hmore []).1.mpr (hnone []))
  | replaced hnew' _ =>
    have htaken := (hmore []).2 hnew'
    cases h with
    | untouched hnone => exact nomatch htaken.symm.trans (hnone [])
    | replaced hnew _ => exact Option.some.inj (hnew.symm.trans htaken)
    | members hpaths _ _ | indexes hpaths _ _ =>
      exact nomatch hpaths [] (by rw [htaken]; exact nofun)

/-- Actions of which one takes more, and that make the same of a document, are the same. -/
theorem Performed.unique (h : Performed acts old new) (h' : Performed acts' old new')
    (hmore : TakesMore acts acts') (heq : new = new') : acts = acts' := by
  funext p
  induction h generalizing acts' new' p with
  | untouched hnone => rw [hnone p, (hmore p).1.mp (hnone p)]
  | @replaced acts old new hnew hpaths =>
    by_cases hp : acts p = none
    · rw [hp, (hmore p).1.mp hp]
    · have hp' : acts' p ≠ none := mt (hmore p).1.mpr hp
      obtain rfl := hpaths p hp
      cases h' with
      | untouched hnone => exact (hp' (hnone [])).elim
      | replaced hnew' _ => rw [hnew, hnew', heq]
      | members hpaths' _ _ | indexes hpaths' _ _ => exact nomatch hpaths' [] hp'
  | @members acts ms ms' hpaths _ _ ih =>
    by_cases hp : acts p = none
    · rw [hp, (hmore p).1.mp hp]
    · have hp' : acts' p ≠ none := mt (hmore p).1.mpr hp
      obtain ⟨k, q, rfl⟩ := hpaths p hp
      cases h' with
      | untouched hnone => exact (hp' (hnone _)).elim
      | replaced _ hpaths' => exact nomatch hpaths' _ hp'
      | @members _ _ ms'' _ hperf _ =>
        obtain rfl : ms' = ms'' := Value.m.inj (Option.some.inj heq)
        exact ih k (hperf k) (fun p => hmore _) rfl q
  | @indexes acts xs n new hpaths hperf hend ih =>
    by_cases hp : acts p = none
    · rw [hp, (hmore p).1.mp hp]
    · have hp' : acts' p ≠ none := mt (hmore p).1.mpr hp
      obtain ⟨i, q, rfl⟩ := hpaths p hp
      cases h' with
      | untouched hnone => exact (hp' (hnone _)).elim
      | replaced _ hpaths' => exact nomatch hpaths' _ hp'
      | @indexes _ _ n' new' _ hperf' hend' =>
        have hlists := Value.l.inj (Option.some.inj heq)
        rw [← filterMap_range_of_le (le_max_left n n') hend,
          ← filterMap_range_of_le (le_max_right n n') hend'] at hlists
        have hnone : ∀ i, new' i = none → new i = none := fun i hi =>
          (hperf i).eq_none (hi ▸ hperf' i) fun p => hmore _
        have hi : new i = new' i := by
          by_cases hlt : i < max n n'
          · exact eqOn_of_filterMap_eq (fun i _ => hnone i) hlists i (List.mem_range.mpr hlt)
          · rw [hend i (by omega), hend' i (by omega)]
        exact ih i (hperf' i) (fun p => hmore _) hi q

end Unique

/-! ## The walk does what is meant -/

section Correct

variable {D : Type} {sc : Scalars D} {it : Iteration} {item : Option Item}

/-- What the tree `subh` makes of a place, which may not exist. -/
private def atPlace (sc : Scalars D) (it : Iteration) (item : Option Item) (h subh : Node Action) :
    Option Value → Except ApiError (Option Value)
  | some obj => hierarchyActions sc it item subh obj
  | none => createdBy sc item h subh

private theorem hierarchyActions_m (keys : List String) (child : String → Node Action)
    (ms : List (String × Value)) :
    hierarchyActions sc it item (.members keys child) (.m ms) =
      (editMembers (fun k => atPlace sc it item (.members keys child) (child k))
        (it.order keys) ms).map fun ms => some (.m ms) := by
  rfl

private theorem hierarchyActions_l (keys : List ℕ) (child : ℕ → Node Action) (xs : List Value) :
    hierarchyActions sc it item (.indexes keys child) (.l xs) =
      (editIndexes (fun k => atPlace sc it item (.indexes keys child) (child k))
        keys (xs, 0)).map fun st => some (.l st.1) := by
  rfl

def outcomes (sc : Scalars D) (item : Option Item) (h : Node Action) (p : List PathOp) :
    Option (Option Value) :=
  (h.find p).bind fun a => (actionResult sc item a).toOption

variable {h : Node Action} {old : Option Value} {q : List PathOp} {a : Action}
  {child : String → Node Action}

theorem find_of_outcomes {p : List PathOp} (hp : outcomes sc item h p ≠ none) :
    ∃ a, h.find p = some a := by
  obtain ⟨r, hr⟩ := Option.ne_none_iff_exists'.mp hp
  exact (Option.bind_eq_some_iff.mp hr).imp fun a ha => ha.1

/-- All paths of the tree lead to a place, and all its actions have a result. -/
def Applies (sc : Scalars D) (item : Option Item) (h : Node Action) (old : Option Value) : Prop :=
  ∀ q a, h.find q = some a → Value.Reaches q old ∧ ∃ r, actionResult sc item a = .ok r

/-- The walk at a place goes through exactly if the tree applies there, and does what is meant. -/
structure Walks (sc : Scalars D) (item : Option Item) (h : Node Action)
    (old : Option Value) (x : Except ApiError (Option Value)) : Prop where
  exists_iff : (∃ r, x = .ok r) ↔ Applies sc item h old
  performed : ∀ r, x = .ok r → Performed (outcomes sc item h) old r

theorem walks_error (e : ApiError) (hq : h.find q = some a) (hreach : ¬ Value.Reaches q old) :
    Walks sc item h old (.error e) :=
  ⟨iff_of_false nofun fun happ => hreach (happ q a hq).1, nofun⟩

theorem walks_value (a : Action) (old : Option Value) :
    Walks sc item (.value a) old (actionResult sc item a) := by
  refine ⟨⟨fun h q b hq => ?_, fun h => (h [] a rfl).2⟩, fun r hr => .replaced ?_ fun p hp => ?_⟩
  · obtain ⟨rfl, rfl⟩ := Node.find_value hq
    exact ⟨trivial, h⟩
  · change (actionResult sc item a).toOption = _
    rw [hr]
    rfl
  · obtain ⟨b, hb⟩ := find_of_outcomes hp
    exact (Node.find_value hb).1

private theorem ok_of_map {ε α β : Type} {x : Except ε α} {f : α → β} {b : β}
    (h : x.map f = .ok b) : ∃ a, x = .ok a ∧ b = f a := by
  cases x <;> simp_all [Except.map]

section Children

variable {κ : Type} [DecidableEq κ] {op : κ → PathOp}
  {mk : List κ → (κ → Node Action) → Node Action} {Kept : List κ → Prop}
  {insert : κ → List κ → List κ} (hkind : Node.Kind op mk Kept insert) {keys : List κ}
  {child : κ → Node Action} {sub : κ → Option Value}

include hkind

theorem performed_children {new : κ → Option Value} {r : Option Value}
    (hin : ∀ k ∈ keys, Performed (outcomes sc item (child k)) (sub k) (new k))
    (hout : ∀ k ∉ keys, new k = sub k) (hmk : ∀ acts, (∀ p, acts p ≠ none → ∃ k q, p = op k :: q) →
      (∀ k, Performed (fun p => acts (op k :: p)) (sub k) (new k)) → Performed acts old r) :
    Performed (outcomes sc item (mk keys child)) old r := by
  refine hmk _ (fun p hp => ?_) fun k => ?_
  · obtain ⟨a, ha⟩ := find_of_outcomes hp
    obtain ⟨k, -, q, rfl, -⟩ := hkind.of_find ha
    exact ⟨k, q, rfl⟩
  · simp only [outcomes, hkind.find_mk]
    by_cases hk : k ∈ keys
    · simp only [if_pos hk]
      exact hin k hk
    · rw [hout k hk]
      simp only [if_neg hk]
      exact .untouched fun _ => rfl

/-- A walk over children that goes through where those of all do, and puts their results together.
-/
private theorem walks_children {place : κ → Except ApiError (Option Value)}
    {x : Except ApiError (Option Value)}
    (hreach : ∀ k q, Value.Reaches (op k :: q) old ↔ Value.Reaches q (sub k))
    (ih : ∀ k ∈ keys, Walks sc item (child k) (sub k) (place k))
    (hok : (∀ k ∈ keys, ∃ r, place k = .ok r) → ∃ r, x = .ok r)
    (hnew : ∀ r, x = .ok r → ∃ new : κ → Option Value, (∀ k ∈ keys, place k = .ok (new k)) ∧
      (∀ k ∉ keys, new k = sub k) ∧ ∀ acts, (∀ p, acts p ≠ none → ∃ k q, p = op k :: q) →
        (∀ k, Performed (fun p => acts (op k :: p)) (sub k) (new k)) → Performed acts old r) :
    Walks sc item (mk keys child) old x := by
  refine ⟨⟨?_, fun happ => hok fun k hk => (ih k hk).exists_iff.mpr fun q a hq => ?_⟩, ?_⟩
  · rintro ⟨r, hr⟩ q a hq
    obtain ⟨new, hin, -⟩ := hnew r hr
    obtain ⟨k, hk, q', rfl, hq'⟩ := hkind.of_find hq
    rw [hreach]
    exact (ih k hk).exists_iff.mp ⟨_, hin k hk⟩ q' a hq'
  · rw [← hreach]
    exact happ (op k :: q) a (by rw [hkind.find_mk, if_pos hk, hq])
  · intro r hr
    obtain ⟨new, hin, hout, hmk⟩ := hnew r hr
    exact performed_children hkind (fun k hk => (ih k hk).performed _ (hin k hk)) hout hmk

end Children

private theorem walks_m {keys : List String} {ms : List (String × Value)} (hnodup : keys.Nodup)
    (hms : (ms.map Prod.fst).Nodup) (ih : ∀ k ∈ keys, Walks sc item (child k) (ms.lookup k)
      (atPlace sc it item (.members keys child) (child k) (ms.lookup k))) :
    Walks sc item (.members keys child) (some (.m ms))
      (hierarchyActions sc it item (.members keys child) (.m ms)) := by
  have hmem : ∀ k, k ∈ it.order keys ↔ k ∈ keys := fun k => (it.perm keys).mem_iff
  have horder : (it.order keys).Nodup := (it.perm keys).nodup_iff.mpr hnodup
  rw [hierarchyActions_m]
  refine walks_children Node.kindMember (fun _ _ => Iff.rfl) ih (fun hok => ?_) fun r hr => ?_
  · obtain ⟨ms', hms'⟩ := exists_editMembers horder hms fun k hk => hok k ((hmem k).mp hk)
    exact ⟨_, congrArg (Except.map _) hms'⟩
  · obtain ⟨ms', hedit, rfl⟩ := ok_of_map hr
    obtain ⟨hin, hout, hnodup'⟩ := lookup_editMembers horder hms hedit
    exact ⟨fun k => ms'.lookup k, fun k hk => hin k ((hmem k).mpr hk), fun k hk => hout k (mt (hmem k).mp hk),
      fun acts hacts hchild => .members hacts hchild hnodup'⟩

private theorem walks_l {keys : List ℕ} {child : ℕ → Node Action} {xs : List Value}
    (hsorted : keys.Pairwise (· < ·)) (ih : ∀ i ∈ keys, Walks sc item (child i) xs[i]?
      (atPlace sc it item (.indexes keys child) (child i) xs[i]?)) :
    Walks sc item (.indexes keys child) (some (.l xs))
      (hierarchyActions sc it item (.indexes keys child) (.l xs)) := by
  rw [hierarchyActions_l]
  refine walks_children Node.kindIndex (fun _ _ => Iff.rfl) ih (fun hok => ?_) fun r hr => ?_
  · obtain ⟨st, hst⟩ := exists_editIndexes hsorted hok
    exact ⟨_, congrArg (Except.map _) hst⟩
  · obtain ⟨⟨ys, total⟩, hedit, rfl⟩ := ok_of_map hr
    obtain ⟨new, n, hin, hout, hnone, rfl⟩ := editIndexes_eq_filterMap hsorted hedit
    exact ⟨new, hin, hout, fun acts hacts hchild => .indexes hacts hchild hnone⟩

/-- A tree with members asks for a map, and one with indexes for a list. -/
private theorem not_reaches_of_members {keys : List String} (hold : ∀ ms, old ≠ some (.m ms))
    (hq : Node.find q (.members keys child) = some a) : ¬ Value.Reaches q old := by
  obtain ⟨k, -, q', rfl, -⟩ := Node.find_members hq
  rcases old with _ | v
  · exact id
  · cases v <;> first | exact id | exact (hold _ rfl).elim

private theorem not_reaches_of_indexes {keys : List ℕ} {child : ℕ → Node Action}
    (hold : ∀ xs, old ≠ some (.l xs)) (hq : Node.find q (.indexes keys child) = some a) :
    ¬ Value.Reaches q old := by
  obtain ⟨i, -, q', rfl, -⟩ := Node.find_indexes hq
  rcases old with _ | v
  · exact id
  · cases v <;> first | exact id | exact (hold _ rfl).elim

private theorem walks_atPlace (hv : h.Valid) (parent : Node Action)
    (hold : ∀ v ∈ old, v.WellFormed) : Walks sc item h old (atPlace sc it item parent h old) := by
  induction hv generalizing parent old with
  | value a =>
    cases old with
    | none => exact walks_value a none
    | some obj =>
      have heq : hierarchyActions sc it item (.value a) obj = actionResult sc item a := by
        unfold hierarchyActions
        rw [(hold obj rfl).isNull]
        rfl
      rw [atPlace, heq]
      exact walks_value a (some obj)
  | @members keys child hne hnodup hchild ih =>
    obtain ⟨q, a, hq⟩ := (Node.Valid.members hne hnodup hchild).exists_find
    cases old with
    | none => exact walks_error _ hq (not_reaches_of_members (by simp) hq)
    | some obj =>
      have hobj := hold obj rfl
      cases hobj with
      | @m ms hms hvals =>
        refine walks_m hnodup hms fun k hk => ih k hk _ fun v hv => ?_
        exact hvals _ (mem_of_lookup hv)
      | _ => exact walks_error _ hq (not_reaches_of_members (by simp) hq)
  | @indexes keys child hne hsorted hchild ih =>
    obtain ⟨q, a, hq⟩ := (Node.Valid.indexes hne hsorted hchild).exists_find
    cases old with
    | none => exact walks_error _ hq (not_reaches_of_indexes (by simp) hq)
    | some obj =>
      have hobj := hold obj rfl
      cases hobj with
      | @l xs hvals =>
        refine walks_l hsorted fun i hi => ih i hi _ fun v hv => ?_
        exact hvals v (List.mem_of_getElem? hv)
      | _ => exact walks_error _ hq (not_reaches_of_indexes (by simp) hq)

theorem walks_hierarchyActions (it : Iteration) (hv : h.Valid) {obj : Value}
    (hobj : obj.WellFormed) : Walks sc item h (some obj) (hierarchyActions sc it item h obj) :=
  walks_atPlace hv h fun _ hv => Option.some.inj hv ▸ hobj

theorem not_reaches_none (hval : h.hasValue = false) (hq : h.find q = some a) :
    ¬ Value.Reaches q none := by
  cases h with
  | empty => exact nomatch (Node.find_empty q).symm.trans hq
  | value b => cases hval
  | members => exact not_reaches_of_members (by simp) hq
  | indexes => exact not_reaches_of_indexes (by simp) hq

/-- A document of which only a part is edited is not removed, and stays a map or a list. -/
theorem hierarchyActions_nested (hv : h.Valid) (hval : h.hasValue = false) {obj : Value}
    {r : Option Value} (hr : hierarchyActions sc it item h obj = .ok r) :
    (∃ ms, r = some (.m ms)) ∨ ∃ xs, r = some (.l xs) := by
  cases hv with
  | value a => cases hval
  | members =>
    cases obj with
    | m ms =>
      rw [hierarchyActions_m] at hr
      obtain ⟨ms', -, rfl⟩ := ok_of_map hr
      exact .inl ⟨ms', rfl⟩
    | _ => cases hr
  | indexes =>
    cases obj with
    | l xs =>
      rw [hierarchyActions_l] at hr
      obtain ⟨st, -, rfl⟩ := ok_of_map hr
      exact .inr ⟨st.1, rfl⟩
    | _ => cases hr

end Correct

end Scylla.Alternator
