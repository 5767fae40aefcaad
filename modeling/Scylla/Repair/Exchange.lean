import Scylla.Repair.RepairMeta

/-!
# Rows between the master and one follower

The master asks each follower for the rows it misses, and then sends each the rows that one misses.
What is asked for is decided from the combined hash of the follower where that settles it, else from
the hashes of its rows. Exactly the rows that the receiver has not move.
-/

namespace Scylla.Repair

open List
open RepairMeta

variable {Row K P H : Type} [LinearOrder K] [LinearOrder P] [LinearOrder H]

namespace Table

variable (t : Table Row K P H)

def requestRowDiff (transport : Transport) (setDiff : Finset H)
    (needsAllRows updatePeerRowHashSets : Bool) (peerRowHashSet : Finset H)
    (master follower : RepairMeta Row K P H) :
    Option (RepairMeta Row K P H × RepairMeta Row K P H × Finset H) :=
  if needsAllRows ∨ setDiff ≠ ∅ then do
    let request ← transport.sendRowDiffRequest setDiff needsAllRows
    let rowDiff := t.getRowDiff false 0 request.1 request.2 follower
    let wire ← transport.sendRows (t.toRepairRowsOnWire rowDiff.1)
    let asked := if needsAllRows then follower.workingRows.map t.hash else inOrder setDiff
    let applied := t.applyRowsOnMaster wire updatePeerRowHashSets peerRowHashSet
      { master with requested := master.requested ++ asked }
    some (applied.1, rowDiff.2, applied.2)
  else some (master, follower, peerRowHashSet)

def getMissingRowsFromFollower (transport : Transport) (combined : H)
    (master follower : RepairMeta Row K P H) :
    Option (RepairMeta Row K P H × RepairMeta Row K P H × Finset H) :=
  if combined = master.workingRowBufCombinedHash then
    some (master, follower, t.workingRowHashes master)
  else if master.workingRowBufCombinedHash = t.zero ∧ combined ≠ t.zero then
    t.requestRowDiff transport ∅ true true ∅ master follower
  else do
    let peerRowHashSet ← transport.sendHashes (t.workingRowHashes follower)
    let setDiff := getSetDiff peerRowHashSet (t.workingRowHashes master)
    let needsAllRows := setDiff.card == peerRowHashSet.card
    t.requestRowDiff transport setDiff needsAllRows false peerRowHashSet master follower

def putRowDiff (transport : Transport) (nrPeerNodes : ℕ) (setDiff : Finset H)
    (needsAllRows : Bool) (master follower : RepairMeta Row K P H) :
    Option (RepairMeta Row K P H × RepairMeta Row K P H) :=
  if setDiff = ∅ then some (master, follower)
  else do
    let rowDiff := t.getRowDiff true nrPeerNodes setDiff needsAllRows master
    let wire ← transport.sendRows (t.toRepairRowsOnWire rowDiff.1)
    some (rowDiff.2, t.applyRowsOnFollower wire follower)

/-! ## What the master has gathered -/

structure Gathered (m₀ m : RepairMeta Row K P H) (got : List Row) : Prop where
  working : m.workingRows.Perm (m₀.workingRows ++ got)
  combined : m.workingRowBufCombinedHash = t.combinedHash (m₀.workingRows ++ got)
  dirty : m.dirtyRows.Perm got
  flag : m.dirtyOnMaster = false → got = []
  requested : m.requested.Perm (m₀.requested ++ got.map t.hash)
  received : m.received = m₀.received ++ got
  disk : m.disk = m₀.disk
  reader : m.reader = m₀.reader
  rowBuf : m.rowBuf = m₀.rowBuf
  written : m.written = m₀.written

variable {t} {m₀ m f : RepairMeta Row K P H} {got rows : List Row}

theorem Gathered.apply (hg : t.Gathered m₀ m got) {asked : List H}
    (hasked : asked.Perm (rows.map t.hash)) (update : Bool) (peer : Finset H) :
    t.Gathered m₀ (t.applyRowsOnMaster (t.toRepairRowsOnWire rows) update peer
      { m with requested := m.requested ++ asked }).1 (got ++ rows) := by
  have hrequested : (m.requested ++ asked).Perm (m₀.requested ++ (got ++ rows).map t.hash) := by
    rw [map_append, ← append_assoc]
    exact hg.requested.append hasked
  by_cases hrows : rows = []
  · subst hrows
    simp only [append_nil] at hrequested ⊢
    exact { hg with requested := hrequested }
  have hwire : (t.toRepairRowsOnWire rows).isEmpty = false := by
    rw [isEmpty_eq_false_iff]
    exact fun hnil => hrows (t.toRepairRowsOnWire_eq_nil hnil)
  set diff := toRepairRowsListOnMaster (t.toRepairRowsOnWire rows) with hdiff
  have hdiffRows : diff.map RepairRow.row = rows := by
    rw [hdiff, map_row_toRepairRowsListOnMaster, wireRows_toRepairRowsOnWire]
  have hdirty : diff.filter RepairRow.dirtyOnMaster = diff :=
    filter_eq_self.mpr fun x hx => dirty_of_mem_toRepairRowsListOnMaster hx
  have hmerge : (m.workingRowBuf.merge diff fun x y =>
      decide (t.boundary x.row ≤ t.boundary y.row)).Perm (m.workingRowBuf ++ diff) :=
    merge_perm_append _
  have hfold : diff.foldl (fun combined r => t.add combined (t.hash r.row))
      m.workingRowBufCombinedHash = t.combinedHash (m₀.workingRows ++ (got ++ rows)) := by
    rw [← append_assoc, combinedHash, foldl_append, ← combinedHash, ← hg.combined, ← hdiffRows,
      foldl_map]
  simp only [applyRowsOnMaster, hwire, Bool.false_eq_true, if_false, ← hdiff]
  refine ⟨?_, hfold, ?_, by simp, hrequested, ?_, hg.disk, hg.reader, hg.rowBuf, hg.written⟩
  · have hworking := (hmerge.map RepairRow.row).trans (by rw [map_append, hdiffRows])
    rw [← append_assoc]
    exact hworking.trans (hg.working.append_right rows)
  · have hdirtyRows := ((hmerge.filter RepairRow.dirtyOnMaster).map RepairRow.row).trans
      (by rw [filter_append, map_append, hdirty, hdiffRows])
    exact hdirtyRows.trans (hg.dirty.append_right rows)
  · rw [hg.received, wireRows_toRepairRowsOnWire, append_assoc]

theorem applyRowsOnMaster_hashes (update : Bool) (peer : Finset H) :
    (t.applyRowsOnMaster (t.toRepairRowsOnWire rows) update peer m).2 =
      if update = true ∧ rows ≠ [] then (rows.map t.hash).toFinset else peer := by
  by_cases hrows : rows = []
  · simp [hrows, applyRowsOnMaster, toRepairRowsOnWire]
  have hwire : t.toRepairRowsOnWire rows ≠ [] := fun hnil =>
    hrows (t.toRepairRowsOnWire_eq_nil hnil)
  have hmap : (toRepairRowsListOnMaster (t.toRepairRowsOnWire rows)).map
      (fun r => t.hash r.row) = rows.map t.hash := by
    have hrows := congrArg (map t.hash)
      (map_row_toRepairRowsListOnMaster (t.toRepairRowsOnWire rows))
    rwa [map_map, wireRows_toRepairRowsOnWire] at hrows
  cases update <;> simp [applyRowsOnMaster, hwire, hmap, hrows]

/-- A follower that answered a request: only its working buffer can have changed. -/
def SameButWorking (f f' : RepairMeta Row K P H) : Prop :=
  f' = { f with workingRowBuf := f'.workingRowBuf }

variable (t) in
/-- The rows of a working buffer that a request names. -/
def wantedRows (setDiff : Finset H) (needsAllRows : Bool) (f : RepairMeta Row K P H) : List Row :=
  if needsAllRows then f.workingRows else f.workingRows.filter fun r => t.hash r ∈ setDiff

omit [LinearOrder K] [LinearOrder P] in
theorem getRowDiff_fst (repairMaster : Bool) (nrPeerNodes : ℕ) (setDiff : Finset H)
    (needsAllRows : Bool) :
    (t.getRowDiff repairMaster nrPeerNodes setDiff needsAllRows m).1 =
      t.wantedRows setDiff needsAllRows m := by
  cases needsAllRows with
  | false => rfl
  | true =>
    simp only [getRowDiff, wantedRows, if_true]
    split <;> rfl

theorem requestRowDiff_spec (transport : Transport) (hg : t.Gathered m₀ m got)
    (setDiff : Finset H) (needsAllRows update : Bool) (peer : Finset H)
    (hasked : needsAllRows = false →
      (setDiff.sort (· ≤ ·)).Perm ((t.wantedRows setDiff false f).map t.hash)) :
    ∃ m' f', t.requestRowDiff transport setDiff needsAllRows update peer m f =
        some (m', f', if update = true ∧ t.wantedRows setDiff needsAllRows f ≠ [] then
          ((t.wantedRows setDiff needsAllRows f).map t.hash).toFinset else peer) ∧
      t.Gathered m₀ m' (got ++ t.wantedRows setDiff needsAllRows f) ∧ SameButWorking f f' := by
  by_cases hask : needsAllRows = true ∨ setDiff ≠ ∅
  · have hwanted : t.wantedRows (if needsAllRows then ∅ else setDiff) needsAllRows f =
        t.wantedRows setDiff needsAllRows f := by
      cases needsAllRows <;> rfl
    have haskedRows : (if needsAllRows then f.workingRows.map t.hash
        else setDiff.sort (· ≤ ·)).Perm ((t.wantedRows setDiff needsAllRows f).map t.hash) := by
      cases needsAllRows with
      | true => exact Perm.refl _
      | false => exact hasked rfl
    refine ⟨_, (t.getRowDiff false 0 (if needsAllRows then ∅ else setDiff) needsAllRows f).2, ?_,
      hg.apply haskedRows update peer, by cases needsAllRows <;> rfl⟩
    rw [requestRowDiff, if_pos hask]
    simp only [sendRowDiffRequest_eq, sendRows_eq, Option.bind_eq_bind, Option.bind_some,
      getRowDiff_fst, hwanted, applyRowsOnMaster_hashes]
  · rw [not_or, not_not, Bool.not_eq_true] at hask
    obtain ⟨rfl, rfl⟩ := hask
    have hnil : t.wantedRows ∅ false f = [] := by simp [wantedRows]
    refine ⟨m, f, ?_, by rwa [hnil, append_nil], rfl⟩
    simp [requestRowDiff, hnil]

/-! ## Which rows move -/

variable {domain : Set Row}

omit [LinearOrder K] [LinearOrder P] in
theorem Identifies.mem_hashes (hid : t.Identifies domain) (hrows : ∀ r ∈ rows, r ∈ domain) {r : Row}
    (hr : r ∈ domain) : t.hash r ∈ (rows.map t.hash).toFinset ↔ r ∈ rows := by
  rw [mem_toFinset, mem_map]
  constructor
  · rintro ⟨r', hr', hhash⟩
    rwa [← hid.hash_inj (hrows r' hr') hr hhash]
  · intro hmem
    exact ⟨r, hmem, rfl⟩

variable {held : List Row} {heldHashes : Finset H}

section

omit [LinearOrder K] [LinearOrder P]

theorem Identifies.hash_mem_getSetDiff (hid : t.Identifies domain)
    (hfdomain : ∀ r ∈ f.workingRows, r ∈ domain)
    (hheld : ∀ r ∈ held, r ∈ domain) (hhashes : heldHashes = (held.map t.hash).toFinset) :
    ∀ r ∈ f.workingRows,
      (t.hash r ∈ getSetDiff (t.workingRowHashes f) heldHashes ↔ r ∉ held) := by
  intro r hr
  have hmem : t.hash r ∈ t.workingRowHashes f := (hid.mem_hashes hfdomain (hfdomain r hr)).mpr hr
  rw [getSetDiff, Finset.mem_filter, hhashes, hid.mem_hashes hheld (hfdomain r hr)]
  exact and_iff_right hmem

theorem Identifies.mem_wantedRows (hid : t.Identifies domain)
    (hfdomain : ∀ r ∈ f.workingRows, r ∈ domain)
    (hheld : ∀ r ∈ held, r ∈ domain) (hhashes : heldHashes = (held.map t.hash).toFinset)
    {needsAllRows : Bool}
    (hall : needsAllRows = true → ∀ r ∈ f.workingRows, t.hash r ∉ heldHashes) (r : Row) :
    r ∈ t.wantedRows (getSetDiff (t.workingRowHashes f) heldHashes) needsAllRows f ↔
      r ∈ f.workingRows ∧ r ∉ held := by
  have hdiff := hid.hash_mem_getSetDiff hfdomain hheld hhashes
  cases needsAllRows with
  | false =>
    simp only [wantedRows, Bool.false_eq_true, if_false, mem_filter, decide_eq_true_eq]
    exact and_congr_right fun hr => hdiff r hr
  | true =>
    refine ⟨fun hr => ⟨hr, fun hmem => hall rfl r hr ?_⟩, And.left⟩
    rw [hhashes]
    exact mem_toFinset.mpr (mem_map_of_mem hmem)

theorem wantedRows_sublist (setDiff : Finset H) (needsAllRows : Bool) :
    (t.wantedRows setDiff needsAllRows f).Sublist f.workingRows := by
  cases needsAllRows with
  | false => exact filter_sublist
  | true => exact Sublist.refl _

theorem Identifies.sort_getSetDiff_perm (hid : t.Identifies domain)
    (hfdomain : ∀ r ∈ f.workingRows, r ∈ domain) (hfnodup : f.workingRows.Nodup)
    (heldHashes : Finset H) :
    ((getSetDiff (t.workingRowHashes f) heldHashes).sort (· ≤ ·)).Perm
      ((t.wantedRows (getSetDiff (t.workingRowHashes f) heldHashes) false f).map t.hash) := by
  set setDiff := getSetDiff (t.workingRowHashes f) heldHashes with hsetDiff
  have hsub := wantedRows_sublist (t := t) (f := f) setDiff false
  have hnodup : ((t.wantedRows setDiff false f).map t.hash).Nodup :=
    (hfnodup.sublist hsub).map_on fun r hr r' hr' hhash =>
      hid.hash_inj (hfdomain r (hsub.subset hr)) (hfdomain r' (hsub.subset hr')) hhash
  refine (perm_ext_iff_of_nodup (Finset.sort_nodup _ _) hnodup).mpr fun h => ?_
  rw [Finset.mem_sort, mem_map]
  constructor
  · intro hmem
    have hpeer : h ∈ t.workingRowHashes f := (Finset.mem_filter.mp (hsetDiff ▸ hmem)).1
    obtain ⟨r, hr, rfl⟩ := mem_map.mp (mem_toFinset.mp hpeer)
    exact ⟨r, mem_filter.mpr ⟨hr, by simpa using hmem⟩, rfl⟩
  · rintro ⟨r, hr, rfl⟩
    simpa using (mem_filter.mp hr).2

end

theorem getMissingRowsFromFollower_spec (transport : Transport) (hid : t.Identifies domain)
    (hg : t.Gathered m₀ m got) (hnodup : (m₀.workingRows ++ got).Nodup)
    (hdomain : ∀ r ∈ m₀.workingRows ++ got, r ∈ domain) (hfnodup : f.workingRows.Nodup)
    (hfdomain : ∀ r ∈ f.workingRows, r ∈ domain) :
    ∃ m' f' rows, t.getMissingRowsFromFollower transport (t.combinedHash f.workingRows) m f =
        some (m', f', t.workingRowHashes f) ∧
      t.Gathered m₀ m' (got ++ rows) ∧ SameButWorking f f' ∧ rows.Nodup ∧
      ∀ r, r ∈ rows ↔ r ∈ f.workingRows ∧ r ∉ m₀.workingRows ++ got := by
  unfold getMissingRowsFromFollower
  by_cases hsame : t.combinedHash f.workingRows = m.workingRowBufCombinedHash
  · -- equal combined hashes: nothing to ask for
    rw [if_pos hsame]
    have hmem := hid f.workingRows (m₀.workingRows ++ got) hfnodup hnodup hfdomain hdomain
      (hsame.trans hg.combined)
    have hhashes : t.workingRowHashes m = t.workingRowHashes f := by
      ext h
      simp only [workingRowHashes, mem_toFinset, mem_map, hg.working.mem_iff, hmem]
    refine ⟨m, f, [], by rw [hhashes], by rwa [append_nil], rfl, nodup_nil, ?_⟩
    exact fun r => ⟨by simp, fun hr => absurd ((hmem r).mp hr.1) hr.2⟩
  rw [if_neg hsame]
  by_cases hzero : m.workingRowBufCombinedHash = t.zero ∧ t.combinedHash f.workingRows ≠ t.zero
  · -- the master has no rows: all rows of the follower
    rw [if_pos hzero]
    have hnil : m₀.workingRows ++ got = [] :=
      hid.eq_nil hnodup hdomain (hg.combined.symm.trans hzero.1)
    have hrows : f.workingRows ≠ [] := fun hrows => hzero.2 (by rw [hrows]; rfl)
    obtain ⟨m', f', heq, hg', hsame'⟩ :=
      requestRowDiff_spec (f := f) transport hg ∅ true true ∅ (by simp)
    rw [if_pos ⟨rfl, hrows⟩] at heq
    exact ⟨m', f', f.workingRows, heq, hg', hsame', hfnodup, by simp [hnil]⟩
  · -- the hashes of the follower's rows tell which are missing
    rw [if_neg hzero]
    simp only [sendHashes_eq, Option.bind_eq_bind, Option.bind_some]
    set setDiff := getSetDiff (t.workingRowHashes f) (t.workingRowHashes m) with hsetDiff
    have hmaster : t.workingRowHashes m = ((m₀.workingRows ++ got).map t.hash).toFinset :=
      toFinset_eq_of_perm _ _ (hg.working.map t.hash)
    have hall : (setDiff.card == (t.workingRowHashes f).card) = true →
        ∀ r ∈ f.workingRows, t.hash r ∉ t.workingRowHashes m := by
      intro hcard r hr
      have hfilter := Finset.card_filter_eq_iff.mp (beq_iff_eq.mp hcard)
      exact hfilter _ (mem_toFinset.mpr (mem_map_of_mem hr))
    obtain ⟨m', f', heq, hg', hsame'⟩ := requestRowDiff_spec (f := f) transport hg setDiff
      (setDiff.card == (t.workingRowHashes f).card) false (t.workingRowHashes f)
      fun _ => hid.sort_getSetDiff_perm hfdomain hfnodup _
    exact ⟨m', f', _, heq, hg', hsame', hfnodup.sublist (wantedRows_sublist _ _),
      hid.mem_wantedRows hfdomain hdomain hmaster hall⟩

structure Given (f f' : RepairMeta Row K P H) (rows : List Row) : Prop where
  received : f'.received = f.received ++ rows
  written : ∀ r, r ∈ f'.writtenRows ↔ r ∈ f.writtenRows ∨ r ∈ rows
  disk : f'.disk = f.disk
  reader : f'.reader = f.reader
  rowBuf : f'.rowBuf = f.rowBuf
  dirtyOnMaster : f'.dirtyOnMaster = f.dirtyOnMaster

omit [LinearOrder K] [LinearOrder P] [LinearOrder H] in
theorem Given.nil (f : RepairMeta Row K P H) : Given f f [] :=
  ⟨(append_nil _).symm, by simp, rfl, rfl, rfl, rfl⟩

omit [LinearOrder H] in
theorem given_applyRowsOnFollower (rows : List Row) :
    Given f (t.applyRowsOnFollower (t.toRepairRowsOnWire rows) f) rows := by
  by_cases hrows : rows = []
  · subst hrows
    exact Given.nil f
  have hwire : t.toRepairRowsOnWire rows ≠ [] := fun hnil =>
    hrows (t.toRepairRowsOnWire_eq_nil hnil)
  simp only [applyRowsOnFollower, List.isEmpty_iff, hwire, if_false]
  refine ⟨by simp, fun r => ?_, rfl, rfl, rfl, rfl⟩
  simp only [writtenRows, flatMap_append, flatMap_toRepairRowsListOnFollower,
    wireRows_toRepairRowsOnWire, mem_append]

variable {f' f'' : RepairMeta Row K P H}

section

omit [LinearOrder K] [LinearOrder P] [LinearOrder H]

theorem Given.of_sameButWorking (hsame : SameButWorking f f')
    (h : Given f' f'' rows) : Given f f'' rows := by
  rw [hsame] at h
  exact ⟨h.received, h.written, h.disk, h.reader, h.rowBuf, h.dirtyOnMaster⟩

theorem Given.sameButWorking (h : Given f f' rows)
    (hsame : SameButWorking f' f'') : Given f f'' rows := by
  rw [hsame]
  exact ⟨h.received, h.written, h.disk, h.reader, h.rowBuf, h.dirtyOnMaster⟩

end

section

omit [LinearOrder H]

theorem Gathered.flush (hg : t.Gathered m₀ m got) (hflag : m₀.dirtyOnMaster = false) :
    Given m₀ (t.flushRowsInWorkingRowBuf m) got := by
  unfold flushRowsInWorkingRowBuf
  split
  case isTrue hdirty =>
    refine ⟨hg.received, fun r => ?_, hg.disk, hg.reader, hg.rowBuf, hflag.symm⟩
    rw [← hg.dirty.mem_iff]
    simp [writtenRows, flushRows, flatMap_mergeFragments, hg.written, dirtyRows]
  case isFalse hdirty =>
    have hflag' := Bool.eq_false_of_not_eq_true hdirty
    refine ⟨hg.received, fun r => ?_, hg.disk, hg.reader, hg.rowBuf, hflag'.trans hflag.symm⟩
    simp [writtenRows, hg.written, hg.flag hflag']

theorem workingRows_flush : (t.flushRowsInWorkingRowBuf m).workingRows = m.workingRows := by
  unfold flushRowsInWorkingRowBuf
  split <;> rfl

theorem requested_flush : (t.flushRowsInWorkingRowBuf m).requested = m.requested := by
  unfold flushRowsInWorkingRowBuf
  split <;> rfl

end

theorem putRowDiff_spec (transport : Transport) (nrPeerNodes : ℕ) (hid : t.Identifies domain)
    (hnodup : m.workingRows.Nodup) (hdomain : ∀ r ∈ m.workingRows, r ∈ domain)
    {peer : Finset H} (hheld : ∀ r ∈ held, r ∈ domain) (hpeer : peer = (held.map t.hash).toFinset) :
    ∃ m' f' rows, t.putRowDiff transport nrPeerNodes (getSetDiff (t.workingRowHashes m) peer)
        (decide (peer = ∅)) m f = some (m', f') ∧
      (nrPeerNodes ≠ 1 → m' = m) ∧ SameButWorking m m' ∧ Given f f' rows ∧
      rows.Nodup ∧ ∀ r, r ∈ rows ↔ r ∈ m.workingRows ∧ r ∉ held := by
  set setDiff := getSetDiff (t.workingRowHashes m) peer with hsetDiff
  have hall : decide (peer = ∅) = true → ∀ r ∈ m.workingRows, t.hash r ∉ peer := by
    intro hempty r _
    rw [of_decide_eq_true hempty]
    exact Finset.notMem_empty _
  have hrows := hid.mem_wantedRows hdomain hheld hpeer hall
  have hsub := wantedRows_sublist (t := t) (f := m) setDiff (decide (peer = ∅))
  by_cases hempty : setDiff = ∅
  · -- nothing is missing there
    have hnone : ∀ r ∈ m.workingRows, r ∈ held := by
      intro r hr
      have hdiff := hid.hash_mem_getSetDiff hdomain hheld hpeer r hr
      rw [← hsetDiff, hempty] at hdiff
      simpa using hdiff
    refine ⟨m, f, [], by rw [putRowDiff, if_pos hempty], fun _ => rfl, rfl, Given.nil f,
      nodup_nil, ?_⟩
    exact fun r => ⟨by simp, fun hr => absurd (hnone r hr.1) hr.2⟩
  · refine ⟨(t.getRowDiff true nrPeerNodes setDiff (decide (peer = ∅)) m).2, _, _, ?_, ?_, ?_,
      given_applyRowsOnFollower (t := t) _, hnodup.sublist hsub, hrows⟩
    · rw [putRowDiff, if_neg hempty]
      simp only [sendRows_eq, Option.bind_eq_bind, Option.bind_some, getRowDiff_fst]
    · intro hpeers
      cases decide (peer = ∅) <;> simp [getRowDiff, hpeers]
    · cases decide (peer = ∅) with
      | false => rfl
      | true => simp only [getRowDiff, if_true]; split <;> rfl

end Table

end Scylla.Repair
