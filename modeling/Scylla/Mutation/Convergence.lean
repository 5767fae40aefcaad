import Scylla.Mutation.Partition

/-!
# Replica convergence

Replicas that have received the same mutations, in any order and with any repetitions, hold equal
partitions. Equality compares the bytes of collection keys, and merging keeps the bytes of the
left operand's key, so tables converge up to `mutation_partition::equal` exactly if the key types
of their collections do not identify different bytes; a set of decimals is not of that kind.
-/

namespace Scylla.Mutation

open List

variable {k : ColumnKind} {c : CellOf k}

namespace CellOf

/-- The shards of a counter. -/
def shards : (k : ColumnKind) → CellOf k → List CounterShard
  | .counter, CounterCell.live _ l => l.val
  | _, _ => []

/-- No cell of a collection is deleted by the collection's own tombstone. -/
def Uncovered : (k : ColumnKind) → CellOf k → Prop
  | .collection _ => CollectionMutation.Uncovered
  | _ => fun _ => True

theorem valid_of {history : ℕ → I64 → I64}
    (hc : Uncovered k c) (hs : ∀ x ∈ shards k c, x.IsFrom history) : Valid history k c := by
  cases k with
  | atomic => trivial
  | counter =>
    cases c with
    | dead t d => trivial
    | live t l => exact hs
  | collection kt => exact hc

end CellOf

namespace MutationPartition

variable {s : Schema} {P : Type*} [LinearOrder P]

structure WellFormed (p : MutationPartition s P) : Prop where
  regular : ∀ e ∈ p.rows, e.row.deletedAt.IsRegular
  staticRow : ∀ i, ∀ c ∈ p.staticRow i, CellOf.Uncovered _ c
  rows : ∀ e ∈ p.rows, ∀ i, ∀ c ∈ e.row.cells i, CellOf.Uncovered _ c

/-- A shard is in a cell: of the static row, or of the row at a position. -/
def HasShard (p : MutationPartition s P) (x : CounterShard) : Option P → ℕ → Prop
  | none, i => ∃ h, ∃ c ∈ p.staticRow ⟨i, h⟩, x ∈ CellOf.shards _ c
  | some y, i => ∃ e ∈ p.rows, e.position = y ∧ ∃ h, ∃ c ∈ e.row.cells ⟨i, h⟩, x ∈ CellOf.shards _ c

def ShardsAgree (ps : List (MutationPartition s P)) : Prop :=
  ∀ p ∈ ps, ∀ q ∈ ps, ∀ x y row i, p.HasShard x row i → q.HasShard y row i → x.id = y.id →
    x.logicalClock = y.logicalClock → x.value = y.value

theorem ShardsAgree.exists_history {ps : List (MutationPartition s P)} (h : ShardsAgree ps)
    (hw : ∀ p ∈ ps, p.WellFormed) : ∃ history, ∀ p ∈ ps, p.Valid history := by
  choose history hfrom using fun row i => CounterShard.exists_history
    (q := fun x => ∃ p ∈ ps, p.HasShard x row i)
    fun x y ⟨p, hp, hx⟩ ⟨q, hq, hy⟩ => h p hp q hq x y row i hx hy
  refine ⟨history, fun p hp => ⟨fun i c hc => ?_, fun e he => ⟨(hw p hp).regular e he, ?_⟩⟩⟩
  · exact CellOf.valid_of ((hw p hp).staticRow i c hc)
      fun x hx => hfrom none i x ⟨p, hp, i.isLt, c, hc, hx⟩
  · intro i c hc
    exact CellOf.valid_of ((hw p hp).rows e he i c hc)
      fun x hx => hfrom (some e.position) i x ⟨p, hp, e, he, rfl, i.isLt, c, hc, hx⟩

end MutationPartition

namespace Schema

/-- The key types of the collections identify no two different keys. -/
def KeysInjective (s : Schema) : Prop :=
  ∀ kt, ColumnKind.collection kt ∈ s.staticColumns ++ s.regularColumns → kt.IsInjective

end Schema

theorem CellOf.equalByKey_iff_eq (hk : ∀ kt, k = .collection kt → kt.IsInjective) {a b : CellOf k} :
    CellOf.EqualByKey k a b ↔ a = b := by
  cases k with
  | atomic => exact Iff.rfl
  | counter => exact Iff.rfl
  | collection kt => exact CollectionMutation.equalByKey_eq (hk kt rfl)

theorem Row.equalBy_congr {columns : List ColumnKind}
    (hk : ∀ kt, ColumnKind.collection kt ∈ columns → kt.IsInjective) {a b : Row columns}
    (h : a.EqualBy CellOf.EqualByKey b) : a.EqualBy (fun _ => Eq) b := by
  intro i
  have hi := h i
  revert hi
  cases a i <;> cases b i
  · exact fun _ => .none
  · rintro ⟨⟩
  · rintro ⟨⟩
  · rintro ⟨hrel⟩
    refine .some ((CellOf.equalByKey_iff_eq fun kt hkt => ?_).mp hrel)
    exact hk kt (hkt ▸ get_mem columns i)

theorem MutationPartition.EqualByKey.equal {s : Schema} {P : Type*} [LinearOrder P]
    {a b : MutationPartition s P} (h : a.EqualByKey b) (hs : s.KeysInjective) : a.Equal b where
  tombstone := h.tombstone
  rows := h.rows.imp fun _ _ ⟨hpos, hdel, hmark, hcells⟩ => ⟨hpos, hdel, hmark,
    Row.equalBy_congr (fun kt hkt => hs kt (mem_append_right _ hkt)) hcells⟩
  rowTombstones := h.rowTombstones
  staticRow := Row.equalBy_congr (fun kt hkt => hs kt (mem_append_left _ hkt)) h.staticRow

namespace MutationPartition

variable {s : Schema} {P : Type*} [LinearOrder P]

theorem apply_convergent (a b c : MutationPartition s P) (l l' : List (MutationPartition s P))
    (hw : ∀ p ∈ a :: b :: c :: l, p.WellFormed) (hshards : ShardsAgree (a :: b :: c :: l))
    (hl : ∀ p, p ∈ l ↔ p ∈ l') :
    ((a.apply b).EqualByKey (b.apply a) ∧
      ((a.apply b).apply c).EqualByKey (a.apply (b.apply c)) ∧
      (a.apply a).EqualByKey a ∧ (l.foldl apply a).EqualByKey (l'.foldl apply a)) ∧
    (s.KeysInjective →
      (a.apply b).Equal (b.apply a) ∧ ((a.apply b).apply c).Equal (a.apply (b.apply c)) ∧
      (a.apply a).Equal a ∧ (l.foldl apply a).Equal (l'.foldl apply a)) := by
  obtain ⟨history, hvalid⟩ := hshards.exists_history hw
  have laws := mergeLaws s P history
  have ha := hvalid a (by simp)
  have hb := hvalid b (by simp)
  have hc := hvalid c (by simp)
  have hall : ∀ p ∈ l, p.Valid history := fun p hp => hvalid p (by simp [hp])
  have hcomm := laws.comm ha hb
  have hassoc := laws.assoc ha hb hc
  have hidem := laws.idem ha
  have hlist : (l.foldl apply a).EqualByKey (l'.foldl apply a) :=
    laws.foldl_eq_of_mem_iff (forall_mem_cons.mpr ⟨ha, hall⟩) fun p => by
      rw [mem_cons, mem_cons, hl]
  exact ⟨⟨hcomm, hassoc, hidem, hlist⟩, fun hs =>
    ⟨hcomm.equal hs, hassoc.equal hs, hidem.equal hs, hlist.equal hs⟩⟩

end MutationPartition

/-! ## Keys that identify different bytes -/

/-- A cell that is not covered and has no shards. -/
def CellOf.Plain (k : ColumnKind) (c : CellOf k) : Prop := Uncovered k c ∧ shards k c = []

/-- A collection with one element, written at timestamp 1. -/
def CollectionMutation.ofKey (kt : KeyType) (key : Bytes) : CollectionMutation kt :=
  ⟨Tombstone.none, [(key, .live 1 [])], pairwise_singleton _ _⟩

theorem CollectionMutation.plain_ofKey (kt : KeyType) (key : Bytes) :
    CellOf.Plain (.collection kt) (ofKey kt key) := by
  refine ⟨fun e he => ?_, rfl⟩
  cases mem_singleton.mp he
  exact (by decide : missingTimestamp < (1 : I64))

theorem CollectionMutation.cells_merge_ofKey {kt : KeyType} {key key' : Bytes}
    (h : kt.cmp key key' = .eq) :
    ((ofKey kt key).merge (ofKey kt key')).cells = [(key, .live 1 [])] := by
  have hlive : missingTimestamp < (AtomicCell.live 1 []).timestamp := by decide
  simp [ofKey, merge, cellKilled, Tombstone.none, hlive, combine, mergeInto_cons_cons, mergeElement,
    h]

theorem CellOf.exists_apply_ne {kt : KeyType} (hk : k = .collection kt) (hkt : ¬ kt.IsInjective) :
    ∃ c d : CellOf k, Plain k c ∧ Plain k d ∧ apply c d ≠ apply d c := by
  subst hk
  unfold KeyType.IsInjective at hkt
  push Not at hkt
  obtain ⟨x, y, hxy, hne⟩ := hkt
  have hyx : kt.cmp y x = .eq := Std.OrientedCmp.eq_symm hxy
  refine ⟨.ofKey kt x, .ofKey kt y, CollectionMutation.plain_ofKey kt x,
    CollectionMutation.plain_ofKey kt y, fun heq => hne ?_⟩
  have hcells : (CollectionMutation.merge (.ofKey kt x) (.ofKey kt y)).cells =
      (CollectionMutation.merge (.ofKey kt y) (.ofKey kt x)).cells :=
    congrArg CollectionMutation.cells heq
  rw [CollectionMutation.cells_merge_ofKey hxy, CollectionMutation.cells_merge_ofKey hyx] at hcells
  exact congrArg Prod.fst (List.cons.inj hcells).1

namespace Row

variable {columns : List ColumnKind} {i : Fin columns.length}

/-- All cells are plain. -/
def Plain (r : Row columns) : Prop := ∀ i, ∀ c ∈ r i, CellOf.Plain _ c

theorem plain_empty : (empty : Row columns).Plain := fun _ _ hc => nomatch hc

theorem plain_single {c : CellOf (columns.get i)} (h : CellOf.Plain _ c) : (single i c).Plain := by
  intro j d hd
  by_cases hj : j = i
  · subst hj
    rw [single_self] at hd
    cases hd
    exact h
  · rw [single_of_ne hj] at hd
    cases hd

end Row

namespace MutationPartition

variable {s : Schema} {P : Type*} [LinearOrder P] {x : P} {r r' : Row s.staticColumns}
  {cells cells' : Row s.regularColumns}

/-- A partition with these cells in its static row and in the row at a position. -/
def ofCells (x : P) (staticRow : Row s.staticColumns) (cells : Row s.regularColumns) :
    MutationPartition s P where
  tombstone := Tombstone.none
  staticRow
  staticRowContinuous := true
  rows := [⟨x, ⟨RowTombstone.none, {}, cells⟩, false, true, nofun⟩]
  rows_sorted := pairwise_singleton _ _
  rowTombstones := .empty

theorem commute_of_equal (h : ((ofCells x r cells).apply (ofCells x r' cells')).Equal
      ((ofCells x r' cells').apply (ofCells x r cells))) :
    r.apply r' = r'.apply r ∧ cells.apply cells' = cells'.apply cells := by
  refine ⟨funext fun i => optionRel_eq.mp (h.staticRow i), funext fun i => ?_⟩
  have hrows := h.rows
  simp only [nonDummyRows, apply, ofCells, mergeInto_cons_cons, compare_eq_iff_eq.mpr rfl] at hrows
  obtain ⟨⟨-, -, -, hcells⟩, -⟩ := forall₂_cons.mp hrows
  exact optionRel_eq.mp (hcells i)

def Convergent (s : Schema) (P : Type*) [LinearOrder P] : Prop :=
  ∀ (a b c : MutationPartition s P) (l l' : List (MutationPartition s P)),
    (∀ p ∈ a :: b :: c :: l, p.WellFormed) → ShardsAgree (a :: b :: c :: l) →
    (∀ p, p ∈ l ↔ p ∈ l') →
    (a.apply b).Equal (b.apply a) ∧ ((a.apply b).apply c).Equal (a.apply (b.apply c)) ∧
      (a.apply a).Equal a ∧ (l.foldl apply a).Equal (l'.foldl apply a)

theorem wellFormed_of_plain {p : MutationPartition s P}
    (hregular : ∀ e ∈ p.rows, e.row.deletedAt.IsRegular) (hstatic : p.staticRow.Plain)
    (hrows : ∀ e ∈ p.rows, e.row.cells.Plain) :
    p.WellFormed ∧ ∀ y row i, ¬ p.HasShard y row i := by
  refine ⟨⟨hregular, fun i c hc => (hstatic i c hc).1, fun e he i c hc => (hrows e he i c hc).1⟩,
    fun y row i hy => ?_⟩
  cases row with
  | none =>
    obtain ⟨hi, c, hc, hy⟩ := hy
    rw [(hstatic ⟨i, hi⟩ c hc).2] at hy
    cases hy
  | some z =>
    obtain ⟨e, he, -, hi, c, hc, hy⟩ := hy
    rw [(hrows e he ⟨i, hi⟩ c hc).2] at hy
    cases hy

theorem Convergent.commute (h : Convergent s P) (x : P) (hr : r.Plain) (hr' : r'.Plain)
    (hcells : cells.Plain) (hcells' : cells'.Plain) :
    r.apply r' = r'.apply r ∧ cells.apply cells' = cells'.apply cells := by
  have hwell {r₀ : Row s.staticColumns} {cells₀ : Row s.regularColumns} (hr₀ : r₀.Plain)
      (hcells₀ : cells₀.Plain) : (ofCells x r₀ cells₀).WellFormed ∧
        ∀ y row i, ¬ (ofCells x r₀ cells₀).HasShard y row i := by
    refine wellFormed_of_plain (fun e he => ?_) hr₀ fun e he => ?_
    · cases mem_singleton.mp he
      rfl
    · cases mem_singleton.mp he
      exact hcells₀
  obtain ⟨ha, ha'⟩ := hwell hr hcells
  obtain ⟨hb, hb'⟩ := hwell hr' hcells'
  refine commute_of_equal (h (ofCells x r cells) (ofCells x r' cells') (ofCells x r cells) [] []
    (by simp [ha, hb]) (fun p hp q _ y z row i hy _ => ?_) fun _ => Iff.rfl).1
  simp only [mem_cons, not_mem_nil, or_false] at hp
  rcases hp with rfl | rfl | rfl
  · exact absurd hy (ha' y row i)
  · exact absurd hy (hb' y row i)
  · exact absurd hy (ha' y row i)

/-- A table converges up to `mutation_partition::equal` exactly if the key types of its collections
identify no two different keys. -/
theorem convergent_iff_keysInjective (s : Schema) (P : Type*) [LinearOrder P] [Inhabited P] :
    Convergent s P ↔ s.KeysInjective := by
  refine ⟨fun h kt hkt => ?_, fun h a b c l l' hw hshards hl =>
    (apply_convergent a b c l l' hw hshards hl).2 h⟩
  by_contra hinj
  have hcell {columns : List ColumnKind} {i : Fin columns.length} {c d : CellOf (columns.get i)}
      (heq : (Row.single i c).apply (Row.single i d) = (Row.single i d).apply (Row.single i c)) :
      CellOf.apply c d = CellOf.apply d c := by
    simpa only [Row.apply, Row.single_self, Option.merge_some_some, Option.some.injEq] using
      congrFun heq i
  rcases mem_append.mp hkt with hkt | hkt
  · obtain ⟨i, hi⟩ := get_of_mem hkt
    obtain ⟨c, d, hc, hd, hne⟩ := CellOf.exists_apply_ne hi hinj
    exact hne (hcell (h.commute default (Row.plain_single hc) (Row.plain_single hd)
      Row.plain_empty Row.plain_empty).1)
  · obtain ⟨i, hi⟩ := get_of_mem hkt
    obtain ⟨c, d, hc, hd, hne⟩ := CellOf.exists_apply_ne hi hinj
    exact hne (hcell (h.commute default Row.plain_empty Row.plain_empty (Row.plain_single hc)
      (Row.plain_single hd)).2)

/-- A partition of a table with one static column, with nothing but its value. -/
def ofStaticCell {k : ColumnKind} (c : CellOf k) :
    MutationPartition { staticColumns := [k], regularColumns := [] } ℕ where
  tombstone := Tombstone.none
  staticRow := fun ⟨0, _⟩ => some c
  staticRowContinuous := true
  rows := []
  rows_sorted := .nil
  rowTombstones := .empty

/-- A static counter after one node's increments up to a logical clock. -/
def counterAt (value clock : I64) :
    MutationPartition { staticColumns := [.counter], regularColumns := [] } ℕ :=
  ofStaticCell (k := .counter)
    (CounterCell.live 1 ⟨[⟨1, value, clock⟩], pairwise_singleton _ _⟩)

end MutationPartition

/-! ## Keys that compare as equal -/

def bigEndian (b : Bytes) : ℕ := b.foldl (fun n x => 256 * n + x) 0

def signedBigEndian (b : Bytes) : ℤ :=
  match b with
  | [] => 0
  | x :: _ => if x < 128 then bigEndian b else bigEndian b - 256 ^ b.length

def asRational (b : Bytes) : ℚ :=
  let scale := signedBigEndian (b.take 4)
  let unscaled := signedBigEndian (b.drop 4)
  if scale < 0 then unscaled * 10 ^ scale.natAbs else mkRat unscaled (10 ^ scale.natAbs)

/-- The empty value is smaller than every decimal. -/
def decimalKey (b : Bytes) : Option ℚ := if b = [] then none else some (asRational b)

/-- The decimal type: decimals compare as numbers, whatever their scale. -/
def decimalType : KeyType where
  cmp v w := compare (decimalKey v) (decimalKey w)
  trans := inferInstanceAs (Std.TransCmp (compareOn decimalKey))

/-- A static set of decimals with one element, written at timestamp 1. -/
def decimalSet (key : Bytes) :
    MutationPartition { staticColumns := [.collection decimalType], regularColumns := [] } ℕ :=
  MutationPartition.ofStaticCell (k := .collection decimalType) (.ofKey decimalType key)

/-- The decimals 1.0 and 1.00 are one element, but the merged set keeps the bytes that were there
first: two replicas that receive them in different orders differ. -/
theorem apply_not_commutative_decimalSet :
    (decimalSet [0, 0, 0, 1, 10]).WellFormed ∧ (decimalSet [0, 0, 0, 2, 100]).WellFormed ∧
      MutationPartition.ShardsAgree [decimalSet [0, 0, 0, 1, 10], decimalSet [0, 0, 0, 2, 100]] ∧
      ¬ ((decimalSet [0, 0, 0, 1, 10]).apply (decimalSet [0, 0, 0, 2, 100])).Equal
        ((decimalSet [0, 0, 0, 2, 100]).apply (decimalSet [0, 0, 0, 1, 10])) := by
  have hwell (k : Bytes) : (decimalSet k).WellFormed ∧
      ∀ y row i, ¬ (decimalSet k).HasShard y row i := by
    refine MutationPartition.wellFormed_of_plain (forall_mem_nil _) ?_ (forall_mem_nil _)
    rintro ⟨_ | n, hn⟩ c hc
    · cases hc
      exact CollectionMutation.plain_ofKey _ _
    · exact absurd hn (by simp)
  refine ⟨(hwell _).1, (hwell _).1, fun p hp q _ y z row i hy => ?_, ?_⟩
  · simp only [mem_cons, not_mem_nil, or_false] at hp
    rcases hp with rfl | rfl <;> exact absurd hy ((hwell _).2 y row i)
  · intro h
    have h0 := h.staticRow ⟨0, by simp⟩
    rw [optionRel_eq] at h0
    revert h0
    decide

end Scylla.Mutation
