import Mathlib.Data.Finset.Range

/-!
# Editing associations and lists at their original places

A container is edited at several places, one after the other; each edit may look at what stands at
its place, put another element there or take it away. `editMembers` does so for an association list
and `editIndexes` for a list, whose elements move up when one before them is taken away. The edits
see the container as it was before the first of them: the outcome at each place depends on the
original element there alone.
-/

namespace Scylla

open Function
open List

variable {κ α ε : Type*}

section Members

variable [DecidableEq κ]

def setMember (k : κ) (r : Option α) (ms : List (κ × α)) : List (κ × α) :=
  match r with
  | none => ms.eraseP (·.1 == k)
  | some v =>
    if (ms.lookup k).isSome then ms.map fun e => if e.1 = k then (k, v) else e
    else ms ++ [(k, v)]

def editMembers (f : κ → Option α → Except ε (Option α)) (keys : List κ) (ms : List (κ × α)) :
    Except ε (List (κ × α)) :=
  keys.foldlM (fun ms k => (f k (ms.lookup k)).map fun r => setMember k r ms) ms

theorem lookup_cons_ite (k : κ) (e : κ × α) (ms : List (κ × α)) :
    (e :: ms).lookup k = if k = e.1 then some e.2 else ms.lookup k := by
  grind

variable {ms : List (κ × α)}

theorem lookup_isSome_iff {k : κ} : (ms.lookup k).isSome ↔ k ∈ ms.map Prod.fst := by
  rw [List.lookup_isSome_iff, mem_map]
  exact exists_congr fun e => and_congr_right fun _ => beq_iff_eq.trans eq_comm

theorem mem_of_lookup {k : κ} {v : α} (h : ms.lookup k = some v) : (k, v) ∈ ms := by
  obtain ⟨before, after, rfl, -⟩ := lookup_eq_some_iff.mp h
  exact mem_append_right _ mem_cons_self

theorem lookup_of_mem (h : (ms.map Prod.fst).Nodup) {e : κ × α} (he : e ∈ ms) :
    ms.lookup e.1 = some e.2 := by
  induction ms <;> grind

private theorem lookup_eraseP (h : (ms.map Prod.fst).Nodup) (k k' : κ) :
    (ms.eraseP (·.1 == k)).lookup k' = if k' = k then none else ms.lookup k' := by
  induction ms with
  | nil => simp
  | cons e ms ih => grind [lookup_isSome_iff]

private theorem lookup_map_replace (k k' : κ) (v : α) (ms : List (κ × α)) :
    (ms.map fun e => if e.1 = k then (k, v) else e).lookup k' =
      if k' = k then (ms.lookup k).map fun _ => v else ms.lookup k' := by
  induction ms with
  | nil => simp
  | cons e ms ih =>
    grind

theorem lookup_setMember (h : (ms.map Prod.fst).Nodup) (k k' : κ) (r : Option α) :
    (setMember k r ms).lookup k' = if k' = k then r else ms.lookup k' := by
  cases r with
  | none => exact lookup_eraseP h k k'
  | some v =>
    cases hk : ms.lookup k with
    | some w => simp [setMember, hk, lookup_map_replace]
    | none =>
      rw [setMember, hk, if_neg (by simp), lookup_append, lookup_cons_ite]
      by_cases hk' : k' = k <;> simp [hk', hk]

theorem nodup_setMember (h : (ms.map Prod.fst).Nodup) (k : κ) (r : Option α) :
    ((setMember k r ms).map Prod.fst).Nodup := by
  cases r with
  | none => exact h.sublist ((eraseP_sublist).map _)
  | some v =>
    rw [setMember]
    split
    · have hkeys : (ms.map fun e => if e.1 = k then (k, v) else e).map Prod.fst =
          ms.map Prod.fst := by
        rw [map_map]
        exact map_congr_left fun e _ => by grind
      rwa [hkeys]
    next hs =>
      rw [lookup_isSome_iff] at hs
      simp only [map_append, nodup_append, map_cons, map_nil]
      grind

def setMembers (cells : List (κ × Option α)) (ms : List (κ × α)) : List (κ × α) :=
  cells.foldl (fun ms cell => setMember cell.1 cell.2 ms) ms

theorem nodup_setMembers (cells : List (κ × Option α)) (h : (ms.map Prod.fst).Nodup) :
    ((setMembers cells ms).map Prod.fst).Nodup := by
  induction cells generalizing ms with
  | nil => exact h
  | cons cell cells ih => exact ih (nodup_setMember h cell.1 cell.2)

theorem lookup_setMembers {cells : List (κ × Option α)} (hcells : (cells.map Prod.fst).Nodup)
    (h : (ms.map Prod.fst).Nodup) (k : κ) :
    (setMembers cells ms).lookup k = (cells.lookup k).getD (ms.lookup k) := by
  induction cells generalizing ms with
  | nil => rfl
  | cons cell cells ih =>
    obtain ⟨hnot, hcells⟩ := nodup_cons.mp hcells
    have hrec := ih hcells (nodup_setMember h cell.1 cell.2)
    rw [← lookup_isSome_iff, Option.not_isSome_iff_eq_none] at hnot
    change (setMembers cells (setMember cell.1 cell.2 ms)).lookup k = _
    rw [hrec, lookup_cons_ite, lookup_setMember h]
    by_cases hk : k = cell.1 <;> simp [hk, hnot]

section Fold

variable {f : κ → Option α → Except ε (Option α)} {keys : List κ} {ms' : List (κ × α)}

theorem lookup_editMembers (hkeys : keys.Nodup) (hms : (ms.map Prod.fst).Nodup)
    (h : editMembers f keys ms = .ok ms') :
    (∀ k ∈ keys, f k (ms.lookup k) = .ok (ms'.lookup k)) ∧
      (∀ k ∉ keys, ms'.lookup k = ms.lookup k) ∧ (ms'.map Prod.fst).Nodup := by
  induction keys generalizing ms with
  | nil =>
    cases h
    exact ⟨by simp, fun k _ => rfl, hms⟩
  | cons k keys ih =>
    obtain ⟨hnot, hkeys⟩ := nodup_cons.mp hkeys
    rw [editMembers, foldlM_cons] at h
    cases hf : f k (ms.lookup k) with
    | error e => simp [hf, Except.map, bind, Except.bind] at h
    | ok r =>
      rw [hf] at h
      obtain ⟨hin, hout, hnodup⟩ := ih hkeys (nodup_setMember hms k r) h
      have hlook := lookup_setMember hms k
      grind

theorem exists_editMembers (hkeys : keys.Nodup) (hms : (ms.map Prod.fst).Nodup)
    (h : ∀ k ∈ keys, ∃ r, f k (ms.lookup k) = .ok r) : ∃ ms', editMembers f keys ms = .ok ms' := by
  induction keys generalizing ms with
  | nil => exact ⟨ms, rfl⟩
  | cons k keys ih =>
    obtain ⟨hnot, hkeys⟩ := nodup_cons.mp hkeys
    obtain ⟨r, hr⟩ := h k mem_cons_self
    have hrest : ∀ k' ∈ keys, ∃ r', f k' ((setMember k r ms).lookup k') = .ok r' := by
      intro k' hk'
      have hne : k' ≠ k := fun heq => hnot (heq ▸ hk')
      rw [lookup_setMember hms, if_neg hne]
      exact h k' (mem_cons_of_mem _ hk')
    obtain ⟨ms', hms'⟩ := ih hkeys (nodup_setMember hms k r) hrest
    refine ⟨ms', ?_⟩
    rw [editMembers, foldlM_cons, hr]
    exact hms'

end Fold

end Members

section Indexes

/-- The list with `r` at place `c`: an element is replaced or erased, and past the end appended. -/
def setIndex (c : ℕ) (r : Option α) (xs : List α) : List α :=
  match r with
  | none => xs.eraseIdx c
  | some v => if c < xs.length then xs.set c v else xs ++ [v]

/-- Edits the places `keys` in turn; the state carries how many elements were erased, by which later
places have moved. -/
def editIndexes (f : ℕ → Option α → Except ε (Option α)) (keys : List ℕ) (st : List α × ℕ) :
    Except ε (List α × ℕ) :=
  keys.foldlM (fun st i =>
    let c := i - st.2
    (f i st.1[c]?).map fun r =>
      (setIndex c r st.1, if c < st.1.length ∧ r.isNone then st.2 + 1 else st.2)) st

private theorem filterMap_range'_getElem? (xs : List α) {b n : ℕ} (hn : xs.length ≤ n) :
    (range' b (n - b)).filterMap (fun i => xs[i]?) = xs.drop b := by
  induction h : n - b generalizing b with
  | zero => simp [drop_eq_nil_of_le (show xs.length ≤ b by omega)]
  | succ m ih =>
    rw [range'_succ, filterMap_cons, ih (by omega)]
    by_cases hb : b < xs.length
    · simp [hb]
    · simp [drop_eq_nil_of_le, not_lt.mp hb, Nat.le_succ_of_le]

/-- One edit at a place whose elements before it have been edited already. -/
private theorem setIndex_spec {seen xs : List α} {i removed : ℕ} (hle : seen.length + removed ≤ i)
    (heq : i ≤ xs.length → seen.length + removed = i) (r : Option α) :
    (seen ++ xs.drop i)[i - removed]? = xs[i]? ∧
      setIndex (i - removed) r (seen ++ xs.drop i) = (seen ++ r.toList) ++ xs.drop (i + 1) ∧
      (i - removed < (seen ++ xs.drop i).length ↔ i < xs.length) := by
  by_cases hi : i < xs.length
  · have hc : i - removed = seen.length := by
      omega
    rw [hc, drop_eq_getElem_cons hi, getElem?_eq_getElem hi]
    generalize xs.drop (i + 1) = rest
    refine ⟨by simp, ?_, by simp [hi]⟩
    cases r with
    | none => simp [setIndex, eraseIdx_append_of_length_le]
    | some v => simp [setIndex]
  · have hc : seen.length ≤ i - removed := by omega
    rw [drop_eq_nil_of_le (not_lt.mp hi), drop_eq_nil_of_le (by omega), append_nil, append_nil]
    refine ⟨by grind, ?_, by grind⟩
    cases r with
    | none => simp [setIndex, eraseIdx_of_length_le hc]
    | some v => simp [setIndex, not_lt.mpr hc]

/-- Between two edited places the list is as it was. -/
private theorem drop_eq_filterMap_append (xs : List α) {b i : ℕ} (hbi : b ≤ i) :
    xs.drop b = (range' b (i - b)).filterMap (fun j => xs[j]?) ++ xs.drop i := by
  induction h : i - b generalizing b with
  | zero =>
    obtain rfl : b = i := by omega
    simp
  | succ m ih =>
    rw [range'_succ, filterMap_cons]
    have hrec := ih (show b + 1 ≤ i by omega) (by omega)
    by_cases hb : b < xs.length
    · simp only [getElem?_eq_getElem hb, cons_append, ← hrec]
      exact drop_eq_getElem_cons hb
    · simp only [getElem?_eq_none (not_lt.mp hb), ← hrec]
      rw [drop_eq_nil_of_le (not_lt.mp hb), drop_eq_nil_of_le (show xs.length ≤ b + 1 by omega)]

section Fold

variable {f : ℕ → Option α → Except ε (Option α)} {xs out : List α} {b removed total : ℕ}

/-- The places before `b` are done: `seen` has taken their place, `removed` original elements are
gone, and none before the end is unaccounted for. -/
private structure Done (xs seen : List α) (b removed : ℕ) : Prop where
  le : seen.length + removed ≤ b
  eq : b ≤ xs.length → seen.length + removed = b

variable {seen : List α} {i : ℕ} {keys : List ℕ}

private theorem Done.skip (hd : Done xs seen b removed) (hbi : b ≤ i) :
    Done xs (seen ++ (range' b (i - b)).filterMap fun j => xs[j]?) i removed := by
  have hlen := congrArg length (drop_eq_filterMap_append xs hbi)
  obtain ⟨hle, heq⟩ := hd
  constructor <;> grind

private theorem Done.step (hd : Done xs seen i removed) (r : Option α) :
    Done xs (seen ++ r.toList) (i + 1) (if i < xs.length ∧ r.isNone then removed + 1 else removed) := by
  obtain ⟨hle, heq⟩ := hd
  cases r <;> constructor <;> grind

private theorem editIndexes_cons (f : ℕ → Option α → Except ε (Option α))
    (hd : Done xs seen b removed) (keys : List ℕ) (hbi : b ≤ i) :
    ∃ seen' : Option α → List α, ∃ removed' : Option α → ℕ,
      (∀ r, seen' r = seen ++ (range' b (i - b)).filterMap (fun j => xs[j]?) ++ r.toList) ∧
      (∀ r, Done xs (seen' r) (i + 1) (removed' r)) ∧
      editIndexes f (i :: keys) (seen ++ xs.drop b, removed) =
        f i xs[i]? >>= fun r => editIndexes f keys (seen' r ++ xs.drop (i + 1), removed' r) := by
  have hskip := hd.skip hbi
  refine ⟨_, _, fun r => rfl, fun r => hskip.step r, ?_⟩
  rw [editIndexes, foldlM_cons, drop_eq_filterMap_append xs hbi, ← append_assoc]
  simp only [(setIndex_spec hskip.le hskip.eq none).1, (setIndex_spec hskip.le hskip.eq _).2.1,
    (setIndex_spec hskip.le hskip.eq none).2.2]
  cases f i xs[i]? with
  | error e => rfl
  | ok r => rfl

private theorem editIndexes_from (hd : Done xs seen b removed) (hkeys : keys.Pairwise (· < ·))
    (hb : ∀ i ∈ keys, b ≤ i)
    (h : editIndexes f keys (seen ++ xs.drop b, removed) = .ok (out, total)) :
    ∃ r : ℕ → Option α, (∀ i ∈ keys, f i xs[i]? = .ok (r i)) ∧ (∀ i ∉ keys, r i = xs[i]?) ∧
      ∀ n, xs.length ≤ n → (∀ i ∈ keys, i < n) →
        out = seen ++ (range' b (n - b)).filterMap r := by
  induction keys generalizing b removed seen with
  | nil =>
    cases h
    refine ⟨fun i => xs[i]?, by simp, fun i _ => rfl, fun n hn _ => ?_⟩
    rw [filterMap_range'_getElem? xs hn]
  | cons i keys ih =>
    obtain ⟨hlt, hkeys⟩ := pairwise_cons.mp hkeys
    have hbi := hb i mem_cons_self
    obtain ⟨seen', removed', hseen, hdone, heq⟩ := editIndexes_cons f hd keys hbi
    rw [heq] at h
    cases hf : f i xs[i]? with
    | error e => simp [hf, bind, Except.bind] at h
    | ok v =>
      rw [hf] at h
      obtain ⟨r, hin, hout, hr⟩ := ih (hdone v) hkeys (fun j hj => hlt j hj) h
      refine ⟨update r i v, by grind, by grind, fun n hn hkn => ?_⟩
      have hin' : i < n := hkn i mem_cons_self
      have hbefore : (range' b (i - b)).filterMap (update r i v) =
          (range' b (i - b)).filterMap fun j => xs[j]? :=
        filterMap_congr fun j hj => by grind
      have hafter : (range' (i + 1) (n - (i + 1))).filterMap (update r i v) =
          (range' (i + 1) (n - (i + 1))).filterMap r :=
        filterMap_congr fun j hj => by grind
      have hsplit : range' b (n - b) =
          range' b (i - b) ++ i :: range' (i + 1) (n - (i + 1)) := by
        rw [← range'_succ, show n - b = (i - b) + (n - (i + 1) + 1) by omega,
          ← range'_append_1, show b + (i - b) = i by omega]
      rw [hr n hn fun j hj => hkn j (mem_cons_of_mem _ hj), hseen, hsplit,
        filterMap_append, hbefore, ← singleton_append, filterMap_append, hafter]
      cases v <;> simp

/-- A run of edits in increasing order leaves the outcomes for the original elements, in their
order. -/
theorem editIndexes_eq_filterMap (hkeys : keys.Pairwise (· < ·))
    (h : editIndexes f keys (xs, 0) = .ok (out, total)) :
    ∃ r : ℕ → Option α, ∃ n, (∀ i ∈ keys, f i xs[i]? = .ok (r i)) ∧
      (∀ i ∉ keys, r i = xs[i]?) ∧ (∀ i, n ≤ i → r i = none) ∧
      out = (range n).filterMap r := by
  have hd : Done xs [] 0 0 := ⟨le_refl _, fun _ => rfl⟩
  obtain ⟨r, hin, hout, hr⟩ := editIndexes_from hd hkeys (fun i _ => Nat.zero_le i) h
  obtain ⟨m, hm⟩ := keys.toFinset.exists_nat_subset_range
  have hlt : ∀ i ∈ keys, i < max xs.length m := fun i hi =>
    lt_max_of_lt_right (Finset.mem_range.mp (hm (mem_toFinset.mpr hi)))
  refine ⟨r, max xs.length m, hin, hout, fun i hi => ?_, ?_⟩
  · rw [hout i fun hmem => absurd (hlt i hmem) (not_lt.mpr hi)]
    exact getElem?_eq_none (le_of_max_le_left hi)
  · rw [hr _ (le_max_left _ _) hlt, range_eq_range']
    rfl

private theorem exists_editIndexes_from (hd : Done xs seen b removed)
    (hkeys : keys.Pairwise (· < ·)) (hb : ∀ i ∈ keys, b ≤ i)
    (h : ∀ i ∈ keys, ∃ r, f i xs[i]? = .ok r) :
    ∃ st, editIndexes f keys (seen ++ xs.drop b, removed) = .ok st := by
  induction keys generalizing b removed seen with
  | nil => exact ⟨_, rfl⟩
  | cons i keys ih =>
    obtain ⟨hlt, hkeys⟩ := pairwise_cons.mp hkeys
    obtain ⟨v, hv⟩ := h i mem_cons_self
    obtain ⟨seen', removed', -, hdone, heq⟩ :=
      editIndexes_cons f hd keys (hb i mem_cons_self)
    rw [heq, hv]
    exact ih (hdone v) hkeys hlt fun j hj => h j (mem_cons_of_mem _ hj)

theorem exists_editIndexes (hkeys : keys.Pairwise (· < ·))
    (h : ∀ i ∈ keys, ∃ r, f i xs[i]? = .ok r) : ∃ st, editIndexes f keys (xs, 0) = .ok st := by
  have hd : Done xs [] 0 0 := ⟨le_refl _, fun _ => rfl⟩
  exact exists_editIndexes_from hd hkeys (fun i _ => Nat.zero_le i) h

end Fold

end Indexes

end Scylla
