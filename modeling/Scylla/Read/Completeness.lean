import Scylla.Read.Reconcile

/-!
# Rows that replicas have not got to

A row returned after reconciliation is complete when every replica has sent what it has there. Three
things are not checked: replicas that were stopped by the limit of a partition in the partition
where a limit in total runs out; rows behind the one where it does, which are taken when rows
counted before are not taken because of the limit in their partition; and reversed reads, where the
first row sent is taken for the last one.
-/

namespace Scylla.Read

open Option
open List
open Bool
open Content

/-! ## Prefixes of live rows -/

section

variable {P : Type*} {live : P → Bool}

variable [LinearOrder P]

end

/-! ## Cut partitions -/

namespace Content

variable {P R : Type*} [LinearOrder P] {ops : RowOps R} {c : Content P R} {n : ℕ} {x y : P}

end Content

/-! ## What a replica has sent -/

section

variable {rows : ℕ}

variable {K P R : Type*} [LinearOrder P] {ops : RowOps R} {returnStatic : Bool} {limits : Limits}

variable {ps : List (K × Content P R)}

variable {partitions : Option ℕ}

variable [LinearOrder K]

/-- An entry of a list without repeated keys is the one found under its key. -/
theorem find?_eq_some_of_mem {α : Type*} {key : α → K} {l : List α}
    (hl : l.Pairwise fun a b => key a < key b) {a : α} (ha : a ∈ l) :
    l.find? (fun b => key b = key a) = some a := by
  induction l with
  | nil => cases ha
  | cons b l ih =>
    obtain ⟨hb, hl⟩ := pairwise_cons.mp hl
    rcases mem_cons.mp ha with rfl | ha
    · simp
    · rw [find?_cons_of_neg (by simp [(hb a ha).ne])]
      exact ih hl ha

namespace Data

variable (d : Data K P ops) {k : K} {c : Content P R}

theorem find_of_mem (h : (k, c) ∈ d.partitions) : d.find ops k = some c :=
  congrArg (Option.map Prod.snd) (find?_eq_some_of_mem d.sorted h)

end Data

/-! ## The order of rows -/

/-- The place of a row in its partition; no row is before all rows. -/
def clusteringPlace : Option P → WithBot P
  | none => ⊥
  | some x => x

/-- The place of a row in a read that is not reversed. -/
def place (a : K × Option P) : K ×ₗ WithBot P := toLex (a.1, clusteringPlace a.2)

variable {a b : K × Option P}

theorem place_lt_iff :
    place a < place b ↔ a.1 < b.1 ∨ a.1 = b.1 ∧ clusteringPlace a.2 < clusteringPlace b.2 :=
  Prod.Lex.lt_iff

variable {d : Data K P ops} {k : K} {x : P}

end

/-! ## Rows taken from a result -/

section

variable {K P R : Type*} [LinearOrder P] {ops : RowOps R}

variable {orig cmd : Limits} {x : P} {replies : List (List (Sent K P R))} {m : Reconciled K P R}

variable {returnStatic : Bool}

variable [LinearOrder K]

variable {data : List (Data K P ops)}

variable {rp all : List (Reconciled K P R)}

variable {reply : List (Sent K P R)}

variable {s : K × Option P}

/-- What is left when no information is found missing: all partitions, or what is not after the
shortest read. -/
theorem gotIncompleteInformation_eq_some {reversed shortReads : Bool}
    (h : gotIncompleteInformation ops cmd orig reversed shortReads replies all = some rp) :
    scan ops cmd orig reversed orig.rows orig.partitions all ≠ .incomplete ∧
      (rp = all ∧ (∀ last ∈ lastReconciledRow reversed all
          (scan ops cmd orig reversed orig.rows orig.partitions all),
            stoppedBefore cmd reversed replies last = []) ∨
        ∃ last ∈ lastReconciledRow reversed all
            (scan ops cmd orig reversed orig.rows orig.partitions all),
          ∃ s ∈ shortestRead reversed (stoppedBefore cmd reversed replies last),
            shortReads = true ∧ rp = trim ops reversed s all) := by
  obtain ⟨hcomplete, h⟩ := ite_none_left_eq_some.mp h
  refine ⟨hcomplete, ?_⟩
  split at h
  next hnone => exact .inl ⟨(Option.some.inj h).symm, by simp [hnone]⟩
  next last hlast =>
    split at h
    next hnone =>
      refine .inl ⟨(Option.some.inj h).symm, fun last' hlast' => ?_⟩
      cases hlast.symm.trans hlast'
      cases hstopped : stoppedBefore cmd reversed replies last with
      | nil => rfl
      | cons r rs =>
        rw [hstopped] at hnone
        cases hnone
    next s hs =>
      obtain ⟨hshort, rfl⟩ := ite_some_none_eq_some.mp h
      exact .inr ⟨last, hlast, s, hs, hshort, rfl⟩

/-- A limit in total runs out in these reconciled partitions, with so many rows behind them. -/
def RunsOut (ops : RowOps R) (orig : Limits) (rp : List (Reconciled K P R)) (rows : ℕ) : Prop :=
  orig.rows ≤ totalLiveCount ops rp + rows ∨
    ∃ n ∈ orig.partitions, n ≤ livePartitionCount ops rp

section

variable {before : List (Reconciled K P R)}

omit [LinearOrder K] [LinearOrder P] in
theorem RunsOut.mono {rows rows' : ℕ} (h : RunsOut ops orig before rows) (hsub : before <+ rp)
    (hle : rows ≤ rows') : RunsOut ops orig rp rows' := by
  refine h.imp (fun h => ?_) fun ⟨n, hn, h⟩ => ⟨n, hn, h.trans (hsub.countP_le)⟩
  have hsum : totalLiveCount ops before ≤ totalLiveCount ops rp :=
    (hsub.map _).sum_le_sum fun _ _ => Nat.zero_le _
  omega

end

section

variable {otherDiffers : Content P R → Option (Content P R) → Bool} {reversed shortReads : Bool}

end

end

/-! ## Rows that no check covers -/

namespace Incomplete

open Mutation

def written : DeletableRow [] := { DeletableRow.empty with marker := ⟨1, 0, 0⟩ }

def deleted : DeletableRow [] :=
  { DeletableRow.empty with deletedAt := RowTombstone.ofRegular ⟨2, 0, fun _ => rfl⟩ }

def ofRows (rows : List (ℕ × DeletableRow [])) : Content ℕ (DeletableRow []) where
  keys := rows.map Prod.fst
  rowAt x := ((rows.find? (·.1 = x)).map Prod.snd).getD DeletableRow.empty
  partition := DeletableRow.empty
  static := DeletableRow.empty

/-- A replica where row `3` of the first partition is deleted. -/
def first : Data ℕ ℕ (rowOps []) where
  partitions := [(0, ofRows [(1, written), (2, written), (3, deleted)]), (1, ofRows [(1, written)])]
  sorted := by decide
  rows_sorted := by decide
  partition_dead := by decide

/-- A replica where row `1` of the first partition is deleted, but not row `3`. -/
def second : Data ℕ ℕ (rowOps []) where
  partitions := [(0, ofRows [(1, deleted), (3, written), (4, written)]), (1, ofRows [(1, written)])]
  sorted := by decide
  rows_sorted := by decide
  partition_dead := by decide

def twoRows : Limits := ⟨2, none, none, by decide, by decide, by decide⟩

end Incomplete

end Scylla.Read
