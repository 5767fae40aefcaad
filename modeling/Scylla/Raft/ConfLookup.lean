import Scylla.Raft.ConfIdx

/-!
# Looking up a configuration

A snapshot is taken with the configuration in effect at its index. The log knows the indexes of its
last two configurations and scans its entries only for older ones; a log that knows only one takes
it for the only one after the snapshot. This is wrong when the last configuration is truncated and
two others stay.
-/

namespace Scylla.Raft

open List
open Option

namespace Log

variable {l l' : Log}

/-! ## Lookups -/

/-- The loop of `last_conf_for`: the last configuration up to an index, by scanning. -/
def scanConf (l : Log) : ℕ → Option Configuration
  | 0 => some l.snapshot.config
  | i + 1 =>
    if l.snapshot.idx < i + 1 then
      match l.getEntry (i + 1) with
      | none => none
      | some e =>
        match e.data.configuration? with
        | some c => some c
        | none => scanConf l i
    else some l.snapshot.config

/-- `last_conf_for`; no value where an assertion fails or an entry is not a configuration. -/
def lastConfFor (l : Log) (idx : ℕ) : Option Configuration :=
  if l.lastIdx < idx then none
  else if idx < l.snapshot.idx then none
  else if l.lastConfIdx = 0 then
    if l.prevConfIdx = 0 then some l.snapshot.config else none
  else if l.lastConfIdx ≤ idx then l.confAt l.lastConfIdx
  else if l.prevConfIdx = 0 then
    -- taken for the only configuration after the snapshot
    some l.snapshot.config
  else if l.prevConfIdx ≤ idx then l.confAt l.prevConfIdx
  else l.scanConf idx

inductive ConfInEffect (l : Log) (idx : ℕ) : Configuration → Prop
  | entry {e : LogEntry} {c : Configuration} : e ∈ l.entries → e.data = .configuration c →
      l.snapshot.idx < e.idx → e.idx ≤ idx →
      (∀ e' ∈ l.entries, e'.isConf = true → e'.idx ≤ idx → e'.idx ≤ e.idx) → ConfInEffect l idx c
  | snapshot : (∀ e ∈ l.entries, e.isConf = true → l.snapshot.idx < e.idx → idx < e.idx) →
      ConfInEffect l idx l.snapshot.config

def IsLastConf (l : Log) (e : LogEntry) : Prop :=
  e ∈ l.entries ∧ e.isConf = true ∧ l.snapshot.idx < e.idx ∧
    ∀ e' ∈ l.entries, e'.isConf = true → e'.idx ≤ e.idx

structure LookupsExact (l : Log) : Prop where
  lastConfFor_eq : ∀ idx, l.snapshot.idx ≤ idx → idx ≤ l.lastIdx →
    ∃ c, l.lastConfFor idx = some c ∧ l.ConfInEffect idx c
  getPrevConfiguration_eq : ∀ e, l.IsLastConf e →
    ∃ c, l.getPrevConfiguration = some c ∧ l.ConfInEffect (e.idx - 1) c
  getPrevConfiguration_none : (∀ e, ¬ l.IsLastConf e) → l.getPrevConfiguration = none

/-! ## Scanning -/

theorem data_of_configuration? {d : EntryData} {c : Configuration} (h : d.configuration? = some c) :
    d = .configuration c := by
  cases d with
  | configuration c' =>
    cases h
    rfl
  | command _ => cases h
  | dummy => cases h

variable {e : LogEntry} {i k : ℕ} {es entries : List LogEntry} {snp : SnapshotDescriptor}

theorem exists_data_of_isConf (h : e.isConf = true) : ∃ c, e.data = .configuration c := by
  obtain ⟨c, hc⟩ := isSome_iff_exists.mp h
  exact ⟨c, data_of_configuration? hc⟩

theorem mem_of_getEntry (h : l.getEntry i = some e) : e ∈ l.entries :=
  mem_of_getElem? (ite_none_right_eq_some.mp h).2

theorem Valid.getEntry_of_mem (h : l.Valid) (he : e ∈ l.entries) : l.getEntry e.idx = some e := by
  obtain ⟨n, hn⟩ := mem_iff_getElem?.mp he
  have hidx := h.idx_eq n e hn
  have hle : l.firstIdx ≤ e.idx := by omega
  rw [getEntry, if_pos hle, hidx, Nat.add_sub_cancel_left, hn]

theorem Valid.eq_of_idx (h : l.Valid) {e' : LogEntry} (he : e ∈ l.entries) (he' : e' ∈ l.entries)
    (hidx : e.idx = e'.idx) : e = e' := by
  have hget := h.getEntry_of_mem he
  rw [hidx, h.getEntry_of_mem he'] at hget
  exact (Option.some.inj hget).symm

theorem Valid.confAt_of_mem (h : l.Valid) {c : Configuration} (he : e ∈ l.entries)
    (hc : e.data = .configuration c) : l.confAt e.idx = some c := by
  rw [confAt, h.getEntry_of_mem he, bind_some, hc]
  rfl

theorem Valid.scanConf_eq (h : l.Valid) (hi : i ≤ l.lastIdx) :
    ∃ c, l.scanConf i = some c ∧ l.ConfInEffect i c := by
  induction i with
  | zero => exact ⟨_, rfl, .snapshot fun e _ _ hlt => Nat.zero_lt_of_lt hlt⟩
  | succ i ih =>
    rw [scanConf]
    split
    next hlt =>
      have hfirst := h.firstIdx_le
      obtain ⟨e, he⟩ := h.exists_entry (by omega) hi
      have hidx := h.getEntry_idx he
      rw [he]
      dsimp only
      cases hconf : e.data.configuration? with
      | some c =>
        have hdata := data_of_configuration? hconf
        exact ⟨c, rfl, .entry (mem_of_getEntry he) hdata (hidx ▸ hlt) hidx.le
          fun _ _ _ hle => hidx ▸ hle⟩
      | none =>
        obtain ⟨c, hscan, heff⟩ := ih (by omega)
        refine ⟨c, hscan, ?_⟩
        -- the entry at this index is no configuration
        have hne : ∀ e' ∈ l.entries, e'.isConf = true → e'.idx ≠ i + 1 := by
          intro e' he' hconf' hidx'
          rw [h.eq_of_idx he' (mem_of_getEntry he) (hidx'.trans hidx.symm), LogEntry.isConf,
            hconf] at hconf'
          cases hconf'
        cases heff with
        | entry he' hdata hsnap hle hmax =>
          refine .entry he' hdata hsnap (by omega) fun e'' he'' hconf'' hle'' => ?_
          exact hmax e'' he'' hconf'' (by have := hne e'' he'' hconf''; omega)
        | snapshot hnone =>
          refine .snapshot fun e' he' hconf' hsnap => ?_
          have hlt' := hnone e' he' hconf' hsnap
          have hne' := hne e' he' hconf'
          omega
    next hge =>
      exact ⟨_, rfl, .snapshot fun e _ _ hlt => by omega⟩

/-! ## What the log has to know -/

theorem mem_confs_iff :
    i ∈ l.confs ↔ ∃ e ∈ l.entries, e.isConf = true ∧ l.snapshot.idx < e.idx ∧ e.idx = i := by
  constructor
  · intro hi
    obtain ⟨hlt, e, he, hconf, rfl⟩ := mem_confs hi
    exact ⟨e, he, hconf, hlt, rfl⟩
  · rintro ⟨e, he, hconf, hlt, rfl⟩
    exact mem_map_of_mem (mem_filter.mpr ⟨mem_filter.mpr ⟨he, decide_eq_true hlt⟩, hconf⟩)

theorem Valid.confInEffect_of_mem (h : l.Valid) {idx : ℕ} (hk : k ∈ l.confs) (hle : k ≤ idx)
    (hmax : ∀ j ∈ l.confs, j ≤ idx → j ≤ k) : ∃ c, l.confAt k = some c ∧ l.ConfInEffect idx c := by
  obtain ⟨e, he, hconf, hlt, rfl⟩ := mem_confs_iff.mp hk
  obtain ⟨c, hc⟩ := exists_data_of_isConf hconf
  refine ⟨c, h.confAt_of_mem he hc, .entry he hc hlt hle fun e' he' hconf' hle' => ?_⟩
  rcases lt_or_ge l.snapshot.idx e'.idx with hlt' | hge
  · exact hmax e'.idx (mem_confs_iff.mpr ⟨e', he', hconf', hlt', rfl⟩) hle'
  · exact hge.trans hlt.le

theorem confInEffect_snapshot {idx : ℕ} (h : ∀ j ∈ l.confs, idx < j) :
    l.ConfInEffect idx l.snapshot.config :=
  .snapshot fun e he hconf hlt => h e.idx (mem_confs_iff.mpr ⟨e, he, hconf, hlt, rfl⟩)

theorem IsLastConf.mem_confs (h : l.IsLastConf e) : e.idx ∈ l.confs :=
  mem_confs_iff.mpr ⟨e, h.1, h.2.1, h.2.2.1, rfl⟩

theorem IsLastConf.le (h : l.IsLastConf e) (hk : k ∈ l.confs) : k ≤ e.idx := by
  obtain ⟨e', he', hconf, -, rfl⟩ := mem_confs_iff.mp hk
  exact h.2.2.2 e' he' hconf

theorem exists_isLastConf (hk : k ∈ l.confs) (hmax : ∀ j ∈ l.confs, j ≤ k) :
    ∃ e, l.IsLastConf e := by
  obtain ⟨e, he, hconf, hlt, rfl⟩ := mem_confs_iff.mp hk
  refine ⟨e, he, hconf, hlt, fun e' he' hconf' => ?_⟩
  rcases lt_or_ge l.snapshot.idx e'.idx with hlt' | hge
  · exact hmax e'.idx (mem_confs_iff.mpr ⟨e', he', hconf', hlt', rfl⟩)
  · exact hge.trans hlt.le

theorem Valid.lookupsExact (h : l.Valid) (hlast : l.KnowsLast) (hprev : l.KnowsPrev) :
    l.LookupsExact := by
  rcases known_cases hlast hprev with ⟨hnil, hlast0, hprev0⟩ | ⟨hone, hprev0⟩ | ⟨init, htwo⟩
  · have hnone (k : ℕ) : k ∉ l.confs := hnil ▸ not_mem_nil
    refine ⟨fun idx hsnap hidx => ⟨l.snapshot.config, ?_, ?_⟩, fun e he => ?_, fun _ => ?_⟩
    · rw [lastConfFor, if_neg hidx.not_gt, if_neg hsnap.not_gt, if_pos hlast0, if_pos hprev0]
    · exact confInEffect_snapshot fun j hj => absurd hj (hnone j)
    · exact absurd he.mem_confs (hnone _)
    · rw [getPrevConfiguration, if_neg (not_not_intro hprev0), if_neg (by omega)]
  · have hmem : l.lastConfIdx ∈ l.confs := by simp [hone]
    have heq {k : ℕ} (hk : k ∈ l.confs) : k = l.lastConfIdx := by
      rw [hone] at hk
      exact mem_singleton.mp hk
    have hpos := pos_of_mem_confs hmem
    refine ⟨fun idx hsnap hidx => ?_, fun e he => ?_, fun hno => ?_⟩
    · rw [lastConfFor, if_neg hidx.not_gt, if_neg hsnap.not_gt, if_neg hpos]
      rcases le_or_gt l.lastConfIdx idx with hle | hgt
      · rw [if_pos hle]
        exact h.confInEffect_of_mem hmem hle fun j hj _ => (heq hj).le
      · rw [if_neg hgt.not_ge, if_pos hprev0]
        exact ⟨_, rfl, confInEffect_snapshot fun j hj => (heq hj).symm ▸ hgt⟩
    · rw [getPrevConfiguration, if_neg (not_not_intro hprev0), if_pos (mem_confs hmem).1]
      refine ⟨_, rfl, confInEffect_snapshot fun j hj => ?_⟩
      rw [heq hj, ← heq he.mem_confs]
      have := pos_of_mem_confs he.mem_confs
      omega
    · obtain ⟨e, he⟩ := exists_isLastConf hmem fun j hj => (heq hj).le
      exact absurd he (hno e)
  · have hmem : l.lastConfIdx ∈ l.confs := by simp [htwo]
    have hmem' : l.prevConfIdx ∈ l.confs := by simp [htwo]
    have hpos := pos_of_mem_confs hmem
    have hpos' := pos_of_mem_confs hmem'
    have hsorted := h.pairwise_confs
    rw [htwo, pairwise_append] at hsorted
    have hlt : l.prevConfIdx < l.lastConfIdx := by simpa using hsorted.2.1
    have hcases {k : ℕ} (hk : k ∈ l.confs) : k ≤ l.prevConfIdx ∨ k = l.lastConfIdx := by
      rw [htwo, mem_append] at hk
      rcases hk with hk | hk
      · exact .inl (hsorted.2.2 k hk _ (by simp)).le
      · rcases mem_pair.mp hk with rfl | rfl
        · exact .inl le_rfl
        · exact .inr rfl
    have hmax (j : ℕ) (hj : j ∈ l.confs) : j ≤ l.lastConfIdx := by
      rcases hcases hj with hj | rfl
      · exact hj.trans hlt.le
      · exact le_rfl
    refine ⟨fun idx hsnap hidx => ?_, fun e he => ?_, fun hno => ?_⟩
    · rw [lastConfFor, if_neg hidx.not_gt, if_neg hsnap.not_gt, if_neg hpos]
      rcases le_or_gt l.lastConfIdx idx with hle | hgt
      · rw [if_pos hle]
        exact h.confInEffect_of_mem hmem hle fun j hj _ => hmax j hj
      · rw [if_neg hgt.not_ge, if_neg hpos']
        rcases le_or_gt l.prevConfIdx idx with hle' | hgt'
        · rw [if_pos hle']
          refine h.confInEffect_of_mem hmem' hle' fun j hj hjle => ?_
          exact (hcases hj).resolve_right (by omega)
        · rw [if_neg hgt'.not_ge]
          exact h.scanConf_eq hidx
    · have heq : e.idx = l.lastConfIdx := le_antisymm (hmax _ he.mem_confs) (he.le hmem)
      rw [getPrevConfiguration, if_pos hpos']
      refine h.confInEffect_of_mem hmem' (by omega) fun j hj hjle => ?_
      exact (hcases hj).resolve_right (by omega)
    · obtain ⟨e, he⟩ := exists_isLastConf hmem hmax
      exact absurd he (hno e)

/-! ## Adding entries -/

theorem Valid.knows_pushAll (h : l.Valid)
    (hidx : es.map LogEntry.idx = List.range' l.nextIdx es.length) :
    (l.pushAll es).Valid ∧
      (l.KnowsLast ∨ 1 ≤ es.countP LogEntry.isConf → (l.pushAll es).KnowsLast) ∧
      (l.KnowsPrev ∧ l.KnowsLast ∨ l.KnowsLast ∧ 1 ≤ es.countP LogEntry.isConf ∨
        2 ≤ es.countP LogEntry.isConf → (l.pushAll es).KnowsPrev) := by
  induction es generalizing l with
  | nil =>
    refine ⟨h, fun hk => hk.resolve_right (by simp), ?_⟩
    rintro (⟨hk, -⟩ | ⟨-, hk⟩ | hk)
    · exact hk
    · exact absurd hk (by simp)
    · exact absurd hk (by simp)
  | cons e es ih =>
    obtain ⟨he, hes⟩ := map_idx_cons.mp hidx
    obtain ⟨hvalid, hlast, hprev⟩ :=
      ih (h.emplaceBack he) (by rwa [nextIdx_emplaceBack h.firstIdx_pos])
    have hlast' := h.knowsLast_emplaceBack he
    have hprev' := h.knowsPrev_emplaceBack he
    rw [pushAll, foldl_cons, countP_cons]
    refine ⟨hvalid, fun hk => hlast ?_, fun hk => hprev ?_⟩
    · cases hc : e.isConf with
      | true => exact .inl (hlast' (.inr hc))
      | false =>
        rw [if_neg (by simp [hc]), Nat.add_zero] at hk
        exact hk.imp_left fun hk => hlast' (.inl hk)
    · cases hc : e.isConf with
      | true =>
        rw [if_pos hc] at hk
        have hl : (l.emplaceBack e).KnowsLast := hlast' (.inr hc)
        rcases hk with ⟨-, hk⟩ | ⟨hk, -⟩ | hk
        · exact .inl ⟨hprev' (.inr ⟨hk, hc⟩), hl⟩
        · exact .inl ⟨hprev' (.inr ⟨hk, hc⟩), hl⟩
        · exact .inr (.inl ⟨hl, by omega⟩)
      | false =>
        rw [if_neg (by simp [hc]), Nat.add_zero] at hk
        rcases hk with ⟨hp, hk⟩ | ⟨hk, hcount⟩ | hk
        · exact .inl ⟨hprev' (.inl ⟨hp, hc⟩), hlast' (.inl hk)⟩
        · exact .inr (.inl ⟨hlast' (.inl hk), hcount⟩)
        · exact .inr (.inr hk)

/-! ## Runs -/

inductive Op where
  | emplaceBack (e : LogEntry)
  | maybeAppend (entries : List LogEntry)
  | applySnapshot (snp : SnapshotDescriptor) (maxTrailingEntries maxTrailingBytes : ℕ)

/-- The log after an operation, unless an assertion fails; a leader numbers its entries. -/
def perform (usage : LogEntry → ℕ) (l : Log) : Op → Option Log
  | .emplaceBack e => if e.idx = l.nextIdx then some (l.emplaceBack e) else none
  | .maybeAppend entries => if entries = [] then none else Log.maybeAppend entries l
  | .applySnapshot snp n bytes =>
    if l.snapshot.idx < snp.idx then some (l.applySnapshot usage snp n bytes) else none

def Consecutive (entries : List LogEntry) : Prop :=
  entries.map LogEntry.idx = List.range' ((entries.head?.map LogEntry.idx).getD 0) entries.length

instance (entries : List LogEntry) : Decidable (Consecutive entries) :=
  inferInstanceAs (Decidable (_ = _))

def Remembers (l : Log) : Op → Prop
  | .maybeAppend entries =>
    Consecutive entries ∧ ∀ e ∈ (l.newEntries entries).head?,
      l.confs.countP (e.idx ≤ ·) = 0 ∨ 2 ≤ (l.newEntries entries).countP LogEntry.isConf ∨
        l.confs.countP (e.idx ≤ ·) = 1 ∧
          (1 ≤ (l.newEntries entries).countP LogEntry.isConf ∨ l.confs.countP (· < e.idx) ≤ 1)
  | .emplaceBack _ | .applySnapshot _ _ _ => True

/-- The log is valid and knows its last two configurations. -/
structure Knowing (l : Log) : Prop where
  valid : l.Valid
  last : l.KnowsLast
  prev : l.KnowsPrev

theorem Knowing.maybeAppend (h : l.Knowing) (hok : l.Remembers (.maybeAppend entries))
    (happend : Log.maybeAppend entries l = some l') : l'.Knowing := by
  obtain ⟨hidx, hok⟩ := hok
  obtain ⟨rfl, hnew, hhead⟩ := maybeAppend_eq h.valid.firstIdx_pos hidx happend
  unfold truncateFor at hnew ⊢
  generalize l.newEntries entries = new at *
  cases new with
  | nil => exact h
  | cons e rest =>
    obtain ⟨hfirst, hnext, -, hsnap⟩ := hhead e rfl
    dsimp only at hnew ⊢
    split
    next hle =>
      rw [if_pos hle] at hnew
      have hv := h.valid.truncateUncommitted (hsnap hle) hnext
      obtain ⟨hvalid, hlast, hprev⟩ := hv.knows_pushAll hnew
      rcases hok e rfl with hcut | htwo | ⟨hcut, hrest⟩
      · have hlt : ∀ k ∈ l.confs, k < e.idx := fun k hk => by
          simpa using countP_eq_zero.mp hcut k hk
        obtain ⟨hl, hp⟩ := h.valid.knows_truncateUncommitted_of_lt h.last hfirst hnext hlt
        exact ⟨hvalid, hlast (.inl hl), hprev (.inl ⟨hp h.prev, hl⟩)⟩
      · exact ⟨hvalid, hlast (.inr (by omega)), hprev (.inr (.inr htwo))⟩
      · obtain ⟨hl, hp⟩ :=
          h.valid.knows_truncateUncommitted_of_cut h.last h.prev hfirst hnext hcut
        refine ⟨hvalid, hlast (.inl hl), hprev ?_⟩
        rcases hrest with hone | hkept
        · exact .inr (.inl ⟨hl, hone⟩)
        · exact .inl ⟨hp hkept, hl⟩
    next hgt =>
      rw [if_neg hgt] at hnew
      obtain ⟨hvalid, hlast, hprev⟩ := h.valid.knows_pushAll hnew
      exact ⟨hvalid, hlast (.inl h.last), hprev (.inl ⟨h.prev, h.last⟩)⟩

theorem Knowing.perform {usage : LogEntry → ℕ} (h : l.Knowing) {op : Op} (hok : l.Remembers op)
    (hop : l.perform usage op = some l') : l'.Knowing := by
  cases op with
  | emplaceBack e =>
    obtain ⟨he, rfl⟩ := ite_some_none_eq_some.mp hop
    refine ⟨h.valid.emplaceBack he, h.valid.knowsLast_emplaceBack he (.inl h.last),
      h.valid.knowsPrev_emplaceBack he ?_⟩
    cases hc : e.isConf with
    | true => exact .inr ⟨h.last, rfl⟩
    | false => exact .inl ⟨h.prev, rfl⟩
  | maybeAppend entries =>
    exact h.maybeAppend hok (ite_none_left_eq_some.mp hop).2
  | applySnapshot snp n bytes =>
    obtain ⟨hsnap, rfl⟩ := ite_some_none_eq_some.mp hop
    have hle := h.valid.prevConfIdx_le h.last h.prev
    exact ⟨h.valid.applySnapshot usage hsnap n bytes,
      h.valid.knowsLast_applySnapshot usage h.last hle hsnap n bytes,
      h.valid.knowsPrev_applySnapshot usage h.last h.prev hsnap n bytes⟩

theorem firstIdx_of_load (h : load snp entries = some l) :
    l.firstIdx = (entries.head?.map LogEntry.idx).getD (snp.idx + 1) ∧
      0 < l.firstIdx ∧ l.firstIdx ≤ snp.idx + 1 ∧ l.initLastConfIdx = l := by
  obtain ⟨hcond, h⟩ := ite_none_right_eq_some.mp h
  rw [Bool.and_eq_true, decide_eq_true_iff, decide_eq_true_iff] at hcond
  cases h
  exact ⟨rfl, hcond.1, hcond.2, rfl⟩

theorem knowing_of_load (hidx : Consecutive entries) (hload : load snp entries = some l)
    (hend : snp.idx ≤ l.lastIdx) : l.Knowing := by
  obtain ⟨rfl, rfl, hstable⟩ := load_spec hload
  obtain ⟨hfirst, hpos, hle, hinit⟩ := firstIdx_of_load hload
  have hv : l.Valid := by
    refine ⟨fun n e hn => ?_, hpos, hle, hstable ▸ hend, hstable.le⟩
    have hget := congrArg (·[n]?) hidx
    have hlt := (List.getElem?_eq_some_iff.mp hn).1
    rw [List.getElem?_map, hn, map_some, List.getElem?_range' hlt, some_inj, one_mul] at hget
    rw [hget, hfirst]
    cases hentries : l.entries with
    | nil =>
      rw [hentries] at hn
      cases hn
    | cons e' rest => rfl
  obtain ⟨hlast, hprev⟩ := hv.confs_initLastConfIdx
  rw [hinit] at hlast hprev
  exact ⟨hv, hlast, hprev⟩

/-- As long as no operation makes the log forget a configuration, every lookup is exact. -/
theorem lookupsExact_of_remembers (usage : LogEntry → ℕ) {snp : SnapshotDescriptor}
    {entries : List LogEntry} {init : Log} (hidx : Consecutive entries)
    (hload : load snp entries = some init) (hend : snp.idx ≤ init.lastIdx)
    (hrun : Reaches (perform usage) Remembers init l) : l.LookupsExact := by
  have hknow : l.Knowing :=
    hrun.invariant (knowing_of_load hidx hload hend) fun _ _ _ h hok hop => h.perform hok hop
  exact hknow.valid.lookupsExact hknow.last hknow.prev

/-! ## A forgotten configuration -/

def soloConfiguration (id : ServerId) : Configuration :=
  ⟨⟨[⟨id, true⟩], nodup_singleton id⟩, .empty⟩

def emptySnapshot : SnapshotDescriptor := ⟨0, 0, soloConfiguration 1, 0⟩

def confEntry (idx : ℕ) (id : ServerId) : LogEntry :=
  ⟨1, idx, .configuration (soloConfiguration id)⟩

/-- A log with some configurations, loaded from disk. -/
def confLog (n : ℕ) : Log :=
  (⟨emptySnapshot, (List.range n).map fun i => confEntry (i + 1) (i + 2), 1, n, 0, 0⟩ :
    Log).initLastConfIdx

/-- The next leader replaces the last of two configurations: the first one is still found. -/
theorem lookupsExact_replaced :
    ∃ l, Reaches (perform fun _ => 1) Remembers (confLog 2) l ∧ l.confs = [1] ∧ l.LookupsExact := by
  let request : Op := .maybeAppend [⟨2, 2, .dummy⟩]
  have hok : (confLog 2).Remembers request := by
    refine ⟨by decide, fun e he => ?_⟩
    cases he
    decide
  have hrun : Reaches (perform fun _ => 1) Remembers (confLog 2)
      (((confLog 2).truncateUncommitted 2).emplaceBack ⟨2, 2, .dummy⟩) := .step .init hok rfl
  have hload : load emptySnapshot [confEntry 1 2, confEntry 2 3] = some (confLog 2) := rfl
  exact ⟨_, hrun, by decide,
    lookupsExact_of_remembers (fun _ => 1) (by decide) hload (by decide) hrun⟩

/-- The next leader replaces the last of three configurations: the log takes the second for the only
one, and says that the one of the snapshot is in effect before it. -/
theorem not_lookupsExact_forgotten :
    ∃ init l, load emptySnapshot [confEntry 1 2, confEntry 2 3, confEntry 3 4] = some init ∧
      Reaches (perform fun _ => 1) (fun _ _ => True) init l ∧ ¬ l.LookupsExact := by
  refine ⟨confLog 3, ((confLog 3).truncateUncommitted 3).emplaceBack ⟨2, 3, .dummy⟩, rfl,
    .step (a := .maybeAppend [⟨2, 3, .dummy⟩]) .init trivial rfl, fun h => ?_⟩
  obtain ⟨c, hc, heff⟩ := h.lastConfFor_eq 1 (by decide) (by decide)
  cases hc
  cases heff with
  | entry he hdata hlt hle _ =>
    have hentries : (((confLog 3).truncateUncommitted 3).emplaceBack ⟨2, 3, .dummy⟩).entries =
        [confEntry 1 2, confEntry 2 3, ⟨2, 3, .dummy⟩] := rfl
    simp only [hentries, mem_cons, not_mem_nil, or_false] at he
    rcases he with rfl | rfl | rfl
    · exact absurd hdata (by decide)
    · exact absurd hle (by decide)
    · exact absurd hle (by decide)
  | snapshot hnone =>
    exact absurd (hnone (confEntry 1 2) (by decide) rfl (by decide)) (by decide)

end Log

end Scylla.Raft
