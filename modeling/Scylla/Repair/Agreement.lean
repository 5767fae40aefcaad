import Scylla.Repair.Round

/-!
# What holds between the rounds

The rows that any node has passed lie below all rows that are pending. A node that has passed its
rows holds exactly the rows any node has passed, and it received each once and none that it had.
What the nodes must have exchanged to move up to a boundary is `Advanced`, and `Consistent.advance`
says that it is enough.
-/

namespace Scylla.Repair

open List
open RepairMeta

variable {Row K P H : Type}

section Forall2

variable {α β : Type} {R : α → β → Prop}

theorem exists_mem_left_of_forall₂ {l : List α} {l' : List β} (h : Forall₂ R l l') {b : β}
    (hb : b ∈ l') : ∃ a ∈ l, R a b := by
  induction h with
  | nil => simp at hb
  | cons hr _ ih =>
    rcases mem_cons.mp hb with rfl | hb
    · exact ⟨_, mem_cons_self, hr⟩
    · obtain ⟨a, ha, hr⟩ := ih hb
      exact ⟨a, mem_cons_of_mem _ ha, hr⟩

theorem exists_mem_right_of_forall₂ {l : List α} {l' : List β} (h : Forall₂ R l l') {a : α}
    (ha : a ∈ l) : ∃ b ∈ l', R a b :=
  exists_mem_left_of_forall₂ h.flip ha

end Forall2

section

variable [LinearOrder K] [LinearOrder P]

namespace Table

variable (t : Table Row K P H)

structure Consistent (skipped : Option (K ×ₗ P)) (nodes : List (RepairMeta Row K P H)) : Prop where
  disk : ∀ m ∈ nodes, m.disk = m.passed skipped ++ m.pending skipped
  sorted : ∀ m ∈ nodes, m.disk.Pairwise fun r r' => t.boundary r < t.boundary r'
  separated : ∀ m ∈ nodes, ∀ r ∈ m.passed skipped, ∀ m' ∈ nodes, ∀ r' ∈ m'.pending skipped,
    t.boundary r < t.boundary r'
  complete : ∀ m ∈ nodes, ∀ r,
    (r ∈ m.passed skipped ∨ r ∈ m.received) ↔ ∃ m' ∈ nodes, r ∈ m'.passed skipped
  nodup : ∀ m ∈ nodes, m.received.Nodup
  fresh : ∀ m ∈ nodes, ∀ r ∈ m.received, r ∉ m.passed skipped
  written : ∀ m ∈ nodes, ∀ r, r ∈ m.writtenRows ↔ r ∈ m.received
  clean : ∀ m ∈ nodes, ∀ x ∈ m.rowBuf, x.dirtyOnMaster = false
  flag : ∀ m ∈ nodes, m.dirtyOnMaster = false

structure Advanced (b : K ×ₗ P) (moved : RepairMeta Row K P H → List Row)
    (nodes : List (RepairMeta Row K P H)) (skipped : Option (K ×ₗ P))
    (m m' : RepairMeta Row K P H) : Prop where
  disk : m'.disk = m.disk
  pending : m.pending none = moved m ++ m'.pending skipped
  below : ∀ r ∈ moved m, t.boundary r ≤ b
  above : ∀ r ∈ m'.pending skipped, b < t.boundary r
  received : ∃ rows, m'.received = m.received ++ rows ∧ rows.Nodup ∧
    (∀ r, r ∈ rows ↔ (∃ n ∈ nodes, r ∈ moved n) ∧ r ∉ moved m) ∧
    ∀ r, r ∈ m'.writtenRows ↔ r ∈ m.writtenRows ∨ r ∈ rows
  clean : ∀ x ∈ m'.rowBuf, x ∈ m.rowBuf
  flag : m'.dirtyOnMaster = false

variable {t}

theorem consistent_start {disks : List (List Row)}
    (hsorted : ∀ rows ∈ disks, rows.Pairwise fun r r' => t.boundary r < t.boundary r') :
    t.Consistent none (disks.map (RepairMeta.start t)) := by
  have hpassed : ∀ rows, (RepairMeta.start t rows).passed none = [] := fun rows =>
    passed_eq rfl
  have hreceived : ∀ rows, (RepairMeta.start t rows).received = [] := fun _ => rfl
  constructor
  all_goals
    intro m hm
    obtain ⟨rows, hrows, rfl⟩ := mem_map.mp hm
  · rw [hpassed]; rfl
  · exact hsorted rows hrows
  · simp [hpassed]
  · simp [hpassed, hreceived]
  · exact nodup_nil
  · simp [hreceived]
  · simp [RepairMeta.start, writtenRows]
  · simp [RepairMeta.start]
  · rfl

section Rounds

variable {skipped : Option (K ×ₗ P)} {nodes nodes' : List (RepairMeta Row K P H)}

theorem Consistent.fill (h : t.Consistent skipped nodes) (maxRowBufSize : ℕ) :
    t.Consistent none (nodes.map fun m => (t.getSyncBoundary maxRowBufSize skipped m).1) := by
  have hpending := t.pending_getSyncBoundary maxRowBufSize skipped
  have hpassed : ∀ m ∈ nodes,
      (t.getSyncBoundary maxRowBufSize skipped m).1.passed none = m.passed skipped := by
    intro m hm
    refine passed_eq ?_
    rw [hpending]
    exact h.disk m hm
  have hexists : ∀ r, (∃ m' ∈ nodes.map fun m => (t.getSyncBoundary maxRowBufSize skipped m).1,
      r ∈ m'.passed none) ↔ ∃ m ∈ nodes, r ∈ m.passed skipped := by
    intro r
    simp only [mem_map, exists_exists_and_eq_and]
    exact exists_congr fun m => and_congr_right fun hm => by rw [hpassed m hm]
  constructor
  all_goals
    intro m' hm'
    obtain ⟨m, hm, rfl⟩ := mem_map.mp hm'
  · rw [hpending, hpassed m hm]
    exact h.disk m hm
  · exact h.sorted m hm
  · rw [hpassed m hm]
    intro r hr n' hn' r' hr'
    obtain ⟨n, hn, rfl⟩ := mem_map.mp hn'
    rw [hpending] at hr'
    exact h.separated m hm r hr n hn r' hr'
  · intro r
    rw [hexists r, hpassed m hm]
    exact h.complete m hm r
  · exact h.nodup m hm
  · rw [hpassed m hm]
    exact h.fresh m hm
  · exact h.written m hm
  · intro x hx
    rcases mem_append.mp hx with hx | hx
    · split at hx
      · simp at hx
      · exact h.clean m hm x hx
    · obtain ⟨r, -, rfl⟩ := mem_map.mp hx
      rfl
  · exact h.flag m hm

section Advance

variable {b : K ×ₗ P} {moved : RepairMeta Row K P H → List Row} {m m' : RepairMeta Row K P H}

section

variable (hc : t.Consistent none nodes)

include hc

theorem Advanced.passed_eq_append (hm : m ∈ nodes) (ha : t.Advanced b moved nodes skipped m m') :
    m'.passed skipped = m.passed none ++ moved m := by
  refine passed_eq ?_
  rw [ha.disk, append_assoc, ← ha.pending]
  exact hc.disk m hm

theorem Consistent.not_mem_pending
    (hm : m ∈ nodes) (hm' : m' ∈ nodes) {r : Row} (hr : r ∈ m.passed none) :
    r ∉ m'.pending none :=
  fun hr' => lt_irrefl _ (hc.separated m hm r hr m' hm' r hr')

theorem Consistent.advance (hadvanced : Forall₂ (t.Advanced b moved nodes skipped) nodes nodes') :
    t.Consistent skipped nodes' := by
  have hback : ∀ m' ∈ nodes', ∃ m ∈ nodes, t.Advanced b moved nodes skipped m m' :=
    fun m' hm' => exists_mem_left_of_forall₂ hadvanced hm'
  have hmoved : ∀ m ∈ nodes, ∀ r ∈ moved m, r ∈ m.pending none := by
    intro m hm r hr
    obtain ⟨m', -, ha⟩ := exists_mem_right_of_forall₂ hadvanced hm
    rw [ha.pending]
    exact mem_append_left _ hr
  have hexists : ∀ r, (∃ m' ∈ nodes', r ∈ m'.passed skipped) ↔
      (∃ m ∈ nodes, r ∈ m.passed none) ∨ ∃ m ∈ nodes, r ∈ moved m := by
    intro r
    constructor
    · rintro ⟨m', hm', hr⟩
      obtain ⟨m, hm, ha⟩ := hback m' hm'
      rw [ha.passed_eq_append hc hm, mem_append] at hr
      exact hr.imp (fun hr => ⟨m, hm, hr⟩) fun hr => ⟨m, hm, hr⟩
    · rintro (⟨m, hm, hr⟩ | ⟨m, hm, hr⟩)
      all_goals
        obtain ⟨m', hm', ha⟩ := exists_mem_right_of_forall₂ hadvanced hm
        refine ⟨m', hm', ?_⟩
        rw [ha.passed_eq_append hc hm, mem_append]
      · exact Or.inl hr
      · exact Or.inr hr
  -- what a node had received lies below every row a round brings in
  have hbefore : ∀ m ∈ nodes, ∀ r ∈ m.received, ∀ n ∈ nodes, r ∉ moved n := by
    intro m hm r hr n hn hr'
    obtain ⟨n', hn', hpassed⟩ := (hc.complete m hm r).mp (Or.inr hr)
    exact hc.not_mem_pending hn' hn hpassed (hmoved n hn r hr')
  constructor
  all_goals
    intro m' hm'
    obtain ⟨m, hm, ha⟩ := hback m' hm'
    have hpassed := ha.passed_eq_append hc hm
    obtain ⟨rows, hreceived, hnodup, hrows, hwritten⟩ := ha.received
  · rw [hpassed, ha.disk, append_assoc, ← ha.pending]
    exact hc.disk m hm
  · rw [ha.disk]
    exact hc.sorted m hm
  · intro r hr n' hn' r' hr'
    obtain ⟨n, hn, hb⟩ := hback n' hn'
    rw [hpassed] at hr
    rcases mem_append.mp hr with hr | hr
    · exact hc.separated m hm r hr n hn r' (by rw [hb.pending]; exact mem_append_right _ hr')
    · exact (ha.below r hr).trans_lt (hb.above r' hr')
  · intro r
    rw [hexists r, hpassed, hreceived, mem_append, mem_append, hrows r, ← hc.complete m hm r]
    have hown : r ∈ moved m → ∃ n ∈ nodes, r ∈ moved n := fun hr => ⟨m, hm, hr⟩
    by_cases hr : r ∈ moved m
    · simp [hr, hown hr]
    · simp [hr, or_assoc]
  · rw [hreceived, nodup_append]
    refine ⟨hc.nodup m hm, hnodup, ?_⟩
    rintro r hr r' hr' rfl
    obtain ⟨n, hn, hr'⟩ := ((hrows r).mp hr').1
    exact hbefore m hm r hr n hn hr'
  · intro r hr
    rw [hreceived, mem_append] at hr
    rw [hpassed, mem_append, not_or]
    rcases hr with hr | hr
    · exact ⟨hc.fresh m hm r hr, hbefore m hm r hr m hm⟩
    · obtain ⟨⟨n, hn, hmem⟩, hnot⟩ := (hrows r).mp hr
      exact ⟨fun hr => hc.not_mem_pending hm hn hr (hmoved n hn r hmem), hnot⟩
  · intro r
    rw [hwritten, hreceived, mem_append, hc.written m hm]
  · exact fun x hx => hc.clean m hm x (ha.clean x hx)
  · exact ha.flag

end

/-- How many rows the nodes still have to look at. -/
def totalPending (skipped : Option (K ×ₗ P)) (nodes : List (RepairMeta Row K P H)) : ℕ :=
  (nodes.map fun m => (m.pending skipped).length).sum

theorem totalPending_lt (hadvanced : Forall₂ (t.Advanced b moved nodes skipped) nodes nodes')
    (hsome : ∃ m ∈ nodes, moved m ≠ []) :
    totalPending skipped nodes' < totalPending none nodes := by
  have hsum : ∀ {l l' : List (RepairMeta Row K P H)},
      Forall₂ (t.Advanced b moved nodes skipped) l l' →
        totalPending none l = (l.map fun m => (moved m).length).sum + totalPending skipped l' := by
    intro l l' hl
    induction hl with
    | nil => rfl
    | cons ha _ ih =>
      simp only [totalPending, map_cons, sum_cons] at ih ⊢
      rw [ha.pending, length_append, ih]
      omega
  obtain ⟨m, hm, hmoved⟩ := hsome
  have hle : (moved m).length ≤ (nodes.map fun m => (moved m).length).sum :=
    le_sum_of_mem (mem_map_of_mem hm)
  have hpos := length_pos_of_ne_nil hmoved
  rw [hsum hadvanced]
  omega

end Advance

end Rounds

end Table

end

end Scylla.Repair
