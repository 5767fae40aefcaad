import Scylla.Repair.Agreement

/-!
# A repair makes its nodes equal

Each kind of round (skipped, without exchange, with exchange) is shown to advance every node up to
the boundary of the round, so that the state between rounds stays consistent; each takes at least
one row from what is pending, so the loop ends, and when it ends every row is passed.
-/

namespace Scylla.Repair

open List
open RepairMeta

variable {Row K P H : Type} [LinearOrder K] [LinearOrder P]

namespace Table

variable {t : Table Row K P H}

/-! ## Negotiating the boundary -/

section Negotiate

variable {nodes : List (RepairMeta Row K P H)} {m : RepairMeta Row K P H}

theorem Consistent.sorted_pending (hc : t.Consistent none nodes) (hm : m ∈ nodes) :
    (m.bufRows ++ m.reader).Pairwise fun r r' => t.boundary r < t.boundary r' := by
  have hsorted := hc.sorted m hm
  rw [hc.disk m hm, pairwise_append] at hsorted
  exact hsorted.2.1

theorem Consistent.bufRows_spec (hc : t.Consistent none nodes) (hm : m ∈ nodes) :
    m.bufRows.Nodup ∧ ∀ r ∈ m.bufRows, r ∈ m.disk := by
  have hsorted := (pairwise_append.mp (hc.sorted_pending hm)).1
  refine ⟨hsorted.imp fun hlt heq => (heq ▸ hlt).ne rfl, fun r hr => ?_⟩
  rw [hc.disk m hm, pending_none]
  simp [hr]

theorem le_getLast {rows : List Row} {last : Row} (hlast : rows.getLast? = some last)
    (hsorted : rows.Pairwise fun r r' => t.boundary r < t.boundary r') :
    ∀ r ∈ rows, t.boundary r ≤ t.boundary last := by
  obtain ⟨front, rfl⟩ := getLast?_eq_some_iff.mp hlast
  intro r hr
  rcases mem_append.mp hr with hr | hr
  · exact ((pairwise_append.mp hsorted).2.2 r hr last (by simp)).le
  · rw [mem_singleton.mp hr]

variable (t) in
def reportOf (m : RepairMeta Row K P H) : Option ((K ×ₗ P) × H) :=
  m.bufRows.getLast?.map fun r => (t.boundary r, t.combinedHash m.bufRows)

section

omit [LinearOrder K] [LinearOrder P]

theorem combinedHash_of_report {b : K ×ₗ P} {h : H} (hreport : t.reportOf m = some (b, h)) :
    t.combinedHash m.bufRows = h := by
  obtain ⟨last, -, heq⟩ := Option.map_eq_some_iff.mp hreport
  exact congrArg Prod.snd heq

theorem bufRows_ne_nil_of_report {report : (K ×ₗ P) × H} (hreport : t.reportOf m = some report) :
    m.bufRows ≠ [] := by
  rintro hnil
  simp [reportOf, hnil] at hreport

theorem reported_getSyncBoundary (maxRowBufSize : ℕ) (skipped : Option (K ×ₗ P))
    (m : RepairMeta Row K P H) :
    (t.getSyncBoundary maxRowBufSize skipped m).2.reported =
      t.reportOf (t.getSyncBoundary maxRowBufSize skipped m).1 := by
  rw [getSyncBoundary_response]
  simp only [SyncBoundaryResponse.reported, reportOf, Option.map_map, Function.comp_def]
  by_cases hnil : (t.getSyncBoundary maxRowBufSize skipped m).1.bufRows = []
  · simp [hnil]
  · rw [if_pos (t.rowsSize_pos hnil)]

end

variable [LinearOrder H]

variable (t) in
def filled (c : Config K P H) (s : RowLevelRepair Row K P H) : List (RepairMeta Row K P H) :=
  s.nodes.map fun m => (t.getSyncBoundary c.maxRowBufSize s.skippedSyncBoundary m).1

inductive Negotiated (t : Table Row K P H) (nodes : List (RepairMeta Row K P H))
    (s : RowLevelRepair Row K P H) : OpStatus → Prop
  | allDone (hnone : ∀ m ∈ nodes, t.reportOf m = none) : Negotiated t nodes s .allDone
  | nextRound (b : K ×ₗ P) (h : H) (hskipped : s.skippedSyncBoundary = some b)
      (hsame : ∀ m ∈ nodes, t.reportOf m = some (b, h)) : Negotiated t nodes s .nextRound
  | nextStep (b : K ×ₗ P) (hskipped : s.skippedSyncBoundary = none)
      (hcommon : s.commonSyncBoundary = some b)
      (hmin : ∀ m ∈ nodes, ∀ report, t.reportOf m = some report → b ≤ report.1)
      (hattained : ∃ m ∈ nodes, ∃ h, t.reportOf m = some (b, h)) : Negotiated t nodes s .nextStep

theorem negotiateSyncBoundary_spec (c : Config K P H) (s : RowLevelRepair Row K P H) :
    (t.negotiateSyncBoundary c s).1.nodes = t.filled c s ∧
      Negotiated t (t.filled c s) (t.negotiateSyncBoundary c s).1
        (t.negotiateSyncBoundary c s).2 := by
  unfold negotiateSyncBoundary
  set master := t.getSyncBoundary c.maxRowBufSize s.skippedSyncBoundary s.master with hmaster
  set followers := s.followers.map (t.getSyncBoundary c.maxRowBufSize s.skippedSyncBoundary)
    with hfollowers
  set responses := c.arrival s.roundNr (master.2 :: followers.map Prod.snd) with hresponses
  have hnodes : master.1 :: followers.map Prod.fst = t.filled c s := by
    simp [filled, RowLevelRepair.nodes, hmaster, hfollowers]
  -- in whatever order they arrive, the responses report for the filled buffers
  have hreports : ∀ report : Option ((K ×ₗ P) × H),
      (∃ response ∈ responses, response.reported = report) ↔
        ∃ m ∈ t.filled c s, t.reportOf m = report := by
    intro report
    have hmem : ∀ response, response ∈ responses ↔
        ∃ m ∈ s.nodes, (t.getSyncBoundary c.maxRowBufSize s.skippedSyncBoundary m).2 = response := by
      intro response
      rw [hresponses, (c.arrival_perm _ _).mem_iff]
      simp [RowLevelRepair.nodes, hmaster, hfollowers, eq_comm]
    simp only [hmem, filled, mem_map, exists_exists_and_eq_and, reported_getSyncBoundary]
  have hreported : ∀ report, report ∈ responses.filterMap SyncBoundaryResponse.reported ↔
      ∃ m ∈ t.filled c s, t.reportOf m = some report := by
    intro report
    rw [mem_filterMap, hreports]
  set reported := responses.filterMap SyncBoundaryResponse.reported
  set zeroRows := responses.any fun r => r.reported.isNone with hzeroRows
  by_cases hempty : reported.isEmpty = true
  · rw [if_pos hempty]
    refine ⟨hnodes, .allDone fun m hm => ?_⟩
    by_contra hne
    obtain ⟨report, hreport⟩ := Option.ne_none_iff_exists'.mp hne
    have hmem := (hreported report).mpr ⟨m, hm, hreport⟩
    rw [List.isEmpty_iff.mp hempty] at hmem
    exact not_mem_nil hmem
  rw [if_neg hempty]
  have hne : reported.map Prod.fst ≠ [] := by simpa using hempty
  obtain ⟨b, hb, hcommon, hmin⟩ :=
    getCommonSyncBoundary_min zeroRows (reported.map Prod.snd) hne
  obtain ⟨⟨b, h⟩, hbh, rfl⟩ := mem_map.mp hb
  set common := getCommonSyncBoundary zeroRows (reported.map Prod.fst) (reported.map Prod.snd)
    with hcommonDef
  by_cases hsynced : common.2 = true
  · rw [if_pos hsynced]
    obtain ⟨hboundaries, hhashes, hzero⟩ := eq_of_getCommonSyncBoundary_synced hsynced
    refine ⟨hnodes, .nextRound b h hcommon fun m hm => ?_⟩
    obtain ⟨response, hresponse, heq⟩ := (hreports (t.reportOf m)).mpr ⟨m, hm, rfl⟩
    have hsome : response.reported.isNone = false :=
      Bool.eq_false_of_not_eq_true (any_eq_false.mp (hzeroRows ▸ hzero) response hresponse)
    obtain ⟨⟨b', h'⟩, hreport⟩ := Option.isSome_iff_exists.mp (Option.isNone_eq_false_iff.mp hsome)
    have hmem := (hreported (b', h')).mpr ⟨m, hm, heq ▸ hreport⟩
    have hb' := hboundaries b' (mem_map_of_mem hmem) b (mem_map_of_mem hbh)
    have hh' := hhashes h' (mem_map_of_mem hmem) h (mem_map_of_mem hbh)
    rw [← heq, hreport, hb', hh']
  · rw [if_neg hsynced]
    refine ⟨hnodes, .nextStep b rfl hcommon (fun m hm report hreport => ?_) ?_⟩
    · exact hmin report.1 (mem_map_of_mem ((hreported report).mpr ⟨m, hm, hreport⟩))
    · obtain ⟨m, hm, hreport⟩ := (hreported (b, h)).mp hbh
      exact ⟨m, hm, h, hreport⟩

end Negotiate

/-! ## Advancing to the boundary -/

section Advance

variable {nodes : List (RepairMeta Row K P H)} {m m' : RepairMeta Row K P H} {b : K ×ₗ P}

theorem advanced_skip (hc : t.Consistent none nodes) (hm : m ∈ nodes) {h : H}
    (hreport : t.reportOf m = some (b, h))
    (hsame : ∀ n ∈ nodes, ∀ r, r ∈ n.bufRows ↔ r ∈ m.bufRows) :
    t.Advanced b bufRows nodes (some b) m m := by
  obtain ⟨last, hlast, heq⟩ := Option.map_eq_some_iff.mp hreport
  obtain rfl : t.boundary last = b := congrArg Prod.fst heq
  have hsorted := pairwise_append.mp (hc.sorted_pending hm)
  refine
    { disk := rfl
      pending := rfl
      below := le_getLast hlast hsorted.1
      above := fun r hr => hsorted.2.2 last (mem_of_getLast? hlast) r hr
      received := ⟨[], by simp, nodup_nil, fun r => ?_, by simp⟩
      clean := fun x hx => hx
      flag := hc.flag m hm }
  refine ⟨by simp, ?_⟩
  rintro ⟨⟨n, hn, hr⟩, hnot⟩
  exact absurd ((hsame n hn r).mp hr) hnot

variable (t) in
def cut (b : K ×ₗ P) (m : RepairMeta Row K P H) : RepairMeta Row K P H :=
  (t.requestRowHashes b m).1

variable (t) in
/-- A boundary that every node with rows has read up to. -/
def ReadUpTo (b : K ×ₗ P) (nodes : List (RepairMeta Row K P H)) : Prop :=
  ∀ m ∈ nodes, ∀ r ∈ m.reader, b < t.boundary r

section

variable (hc : t.Consistent none nodes) (hm : m ∈ nodes)

include hc hm

theorem Consistent.cut_spec (b : K ×ₗ P) :
    t.Cut b m (t.cut b m) ∧
      t.requestRowHashes b m = (t.cut b m, t.combinedHash (t.cut b m).workingRows) := by
  have hcut := t.cut_requestRowHashes b (pairwise_append.mp (hc.sorted_pending hm)).1
  exact ⟨hcut.1, Prod.ext rfl hcut.2⟩

theorem Consistent.workingRows_cut (b : K ×ₗ P) :
    (t.cut b m).workingRows.Nodup ∧ ∀ r ∈ (t.cut b m).workingRows, r ∈ m.disk := by
  have hbuf := hc.bufRows_spec hm
  rw [(hc.cut_spec hm b).1.bufRows_eq] at hbuf
  exact ⟨(nodup_append.mp hbuf.1).1, fun r hr => hbuf.2 r (mem_append_left _ hr)⟩

theorem Consistent.workingRows_cut_ne_nil {h : H} (hreport : t.reportOf m = some (b, h)) :
    (t.cut b m).workingRows ≠ [] := by
  obtain ⟨last, hlast, heq⟩ := Option.map_eq_some_iff.mp hreport
  obtain rfl : t.boundary last = b := congrArg Prod.fst heq
  have hcut := (hc.cut_spec hm (t.boundary last)).1
  have hmem := mem_of_getLast? hlast
  rw [hcut.bufRows_eq, mem_append] at hmem
  rcases hmem with hmem | hmem
  · exact ne_nil_of_mem hmem
  · exact absurd (hcut.above last hmem) (lt_irrefl _)

theorem advanced_cut (hread : t.ReadUpTo b nodes) {rows : List Row}
    (hgiven : Given (t.cut b m) m' rows) (hnodup : rows.Nodup)
    (hrows : ∀ r, r ∈ rows ↔ (∃ n ∈ nodes, r ∈ (t.cut b n).workingRows) ∧
      r ∉ (t.cut b m).workingRows) :
    t.Advanced b (fun n => (t.cut b n).workingRows) nodes none m m' := by
  have hcut := (hc.cut_spec hm b).1
  have hbuf : m'.bufRows = (t.cut b m).bufRows := congrArg (map RepairRow.row) hgiven.rowBuf
  have hreader : m'.reader = m.reader := hgiven.reader.trans hcut.reader
  refine
    { disk := hgiven.disk.trans hcut.disk
      pending := ?_
      below := hcut.below
      above := ?_
      received := ⟨rows, by rw [hgiven.received, hcut.received], hnodup, hrows, fun r => ?_⟩
      clean := ?_
      flag := hgiven.dirtyOnMaster.trans (hcut.dirtyOnMaster.trans (hc.flag m hm)) }
  · rw [pending_none, pending_none, hbuf, hreader, hcut.bufRows_eq, append_assoc]
  · intro r hr
    rw [pending_none, hbuf, hreader] at hr
    rcases mem_append.mp hr with hr | hr
    · exact hcut.above r hr
    · exact hread m hm r hr
  · rw [hgiven.written, writtenRows, hcut.written]
    rfl
  · intro x hx
    rw [hcut.rowBuf]
    exact mem_append_right _ (hgiven.rowBuf ▸ hx)

end

end Advance

/-! ## The exchange -/

section Same

variable {domain : Set Row} {s : RowLevelRepair Row K P H} {b : K ×ₗ P}

/-- The master asks for what it then receives. -/
def Answered (t : Table Row K P H) (m : RepairMeta Row K P H) : Prop :=
  m.requested.Perm (m.received.map t.hash)

theorem requestRowHashes_followers (hc : t.Consistent none s.nodes) :
    s.followers.map (t.requestRowHashes b) =
      (s.followers.map (t.cut b)).map fun f => (f, t.combinedHash f.workingRows) := by
  rw [map_map]
  refine map_congr_left fun f hf => ?_
  exact (hc.cut_spec (mem_cons_of_mem _ hf) b).2

theorem advanced_same (hid : t.Identifies domain) (hc : t.Consistent none s.nodes)
    (hdomain : ∀ m ∈ s.nodes, ∀ r ∈ m.disk, r ∈ domain) (hread : t.ReadUpTo b s.nodes)
    (hsame : ∀ m ∈ s.nodes, ∀ n ∈ s.nodes,
      t.combinedHash (t.cut b m).workingRows = t.combinedHash (t.cut b n).workingRows) :
    Forall₂ (t.Advanced b (fun n => (t.cut b n).workingRows) s.nodes none) s.nodes
      (s.nodes.map (t.cut b)) := by
  rw [forall₂_map_right_iff, forall₂_same]
  intro m hm
  refine advanced_cut hc hm hread (Given.nil _) nodup_nil fun r => ?_
  refine ⟨by simp, ?_⟩
  rintro ⟨⟨n, hn, hr⟩, hnot⟩
  have hmRows := hc.workingRows_cut hm b
  have hnRows := hc.workingRows_cut hn b
  have hmem := hid _ _ hnRows.1 hmRows.1 (fun r hr => hdomain n hn r (hnRows.2 r hr))
    (fun r hr => hdomain m hm r (hmRows.2 r hr)) (hsame n hn m hm) r
  exact absurd (hmem.mp hr) hnot

end Same

section Exchange

variable [LinearOrder H] {domain : Set Row} {m₀ m : RepairMeta Row K P H}

variable {followers : List (RepairMeta Row K P H)}

theorem getMissingRows_spec (transport : Transport) (hid : t.Identifies domain)
    (hfollowers : ∀ f ∈ followers, f.workingRows.Nodup ∧ ∀ r ∈ f.workingRows, r ∈ domain)
    {got : List Row} (hg : t.Gathered m₀ m got) (hnodup : (m₀.workingRows ++ got).Nodup)
    (hdomain : ∀ r ∈ m₀.workingRows ++ got, r ∈ domain) :
    ∃ m' peers rows,
      t.getMissingRows transport m
        (followers.map fun f => (f, t.combinedHash f.workingRows)) = some (m', peers) ∧
      t.Gathered m₀ m' rows ∧ (m₀.workingRows ++ rows).Nodup ∧
      (∀ r, r ∈ m₀.workingRows ++ rows ↔
        r ∈ m₀.workingRows ++ got ∨ ∃ f ∈ followers, r ∈ f.workingRows) ∧
      Forall₂ (fun f peer => SameButWorking f peer.1 ∧ peer.2 = t.workingRowHashes f)
        followers peers := by
  induction followers generalizing m got with
  | nil =>
    exact ⟨m, [], got, rfl, hg, hnodup, by simp, Forall₂.nil⟩
  | cons f followers ih =>
    obtain ⟨hf, hrest⟩ := forall_mem_cons.mp hfollowers
    obtain ⟨m', f', rows, hone, hg', hsame, hrowsNodup, hrows⟩ :=
      getMissingRowsFromFollower_spec transport hid hg hnodup hdomain hf.1 hf.2
    have hmem : ∀ r, r ∈ m₀.workingRows ++ (got ++ rows) ↔
        r ∈ m₀.workingRows ++ got ∨ r ∈ f.workingRows := by
      intro r
      rw [← append_assoc, mem_append, hrows r]
      by_cases hr : r ∈ m₀.workingRows ++ got
      · simp [hr]
      · simp [hr]
    have hnodup' : (m₀.workingRows ++ (got ++ rows)).Nodup := by
      rw [← append_assoc, nodup_append]
      refine ⟨hnodup, hrowsNodup, ?_⟩
      rintro r hr r' hr' rfl
      exact ((hrows r).mp hr').2 hr
    have hdomain' : ∀ r ∈ m₀.workingRows ++ (got ++ rows), r ∈ domain := fun r hr =>
      ((hmem r).mp hr).elim (hdomain r) (hf.2 r)
    obtain ⟨m'', peers, all, hothers, hg'', hall, hmem', hpeers⟩ := ih hrest hg' hnodup' hdomain'
    refine ⟨m'', (f', t.workingRowHashes f) :: peers, all, ?_, hg'', hall, fun r => ?_,
      Forall₂.cons ⟨hsame, rfl⟩ hpeers⟩
    · simp only [map_cons, getMissingRows, hone, hothers, Option.bind_eq_bind,
        Option.bind_some]
    · rw [hmem', hmem, or_assoc]
      simp

theorem putMissingRows_spec (transport : Transport) {nrPeerNodes : ℕ} (hid : t.Identifies domain)
    (hnodup : m.workingRows.Nodup) (hdomain : ∀ r ∈ m.workingRows, r ∈ domain)
    {peers : List (RepairMeta Row K P H × Finset H)}
    (hfollowers : ∀ f ∈ followers, ∀ r ∈ f.workingRows, r ∈ domain)
    (hpeers : Forall₂ (fun f peer => SameButWorking f peer.1 ∧ peer.2 = t.workingRowHashes f)
      followers peers)
    (hnr : nrPeerNodes ≠ 1 ∨ followers.length ≤ 1) :
    ∃ m' followers',
      t.putMissingRows transport nrPeerNodes (t.workingRowHashes m) m peers =
        some (m', followers') ∧
      SameButWorking m m' ∧
      Forall₂ (fun f f' => ∃ rows, Given f f' rows ∧ rows.Nodup ∧
        ∀ r, r ∈ rows ↔ r ∈ m.workingRows ∧ r ∉ f.workingRows) followers followers' := by
  induction hpeers with
  | nil => exact ⟨m, [], rfl, rfl, Forall₂.nil⟩
  | @cons f peer followers peers hpeer hrest ih =>
    obtain ⟨hf, hothers⟩ := forall_mem_cons.mp hfollowers
    obtain ⟨m', f', rows, hone, hkept, hsame, hgiven, hrows⟩ := putRowDiff_spec (f := peer.1)
      transport nrPeerNodes hid hnodup hdomain hf hpeer.2
    have hgiven' := hgiven.of_sameButWorking hpeer.1
    -- only a master with one peer gives its buffer away
    rcases hnr with hnr | hnr
    · obtain rfl := hkept hnr
      obtain ⟨m'', followers', hput, hsame', hall⟩ := ih hothers (Or.inl hnr)
      refine ⟨m'', f' :: followers', ?_, hsame', Forall₂.cons ⟨rows, hgiven', hrows⟩ hall⟩
      simp only [putMissingRows, hone, hput, Option.bind_eq_bind, Option.bind_some]
    · obtain rfl : followers = [] := eq_nil_of_length_eq_zero (by simpa using hnr)
      obtain rfl := forall₂_nil_left_iff.mp hrest
      refine ⟨m', [f'], ?_, hsame, Forall₂.cons ⟨rows, hgiven', hrows⟩ Forall₂.nil⟩
      simp only [putMissingRows, hone, Option.bind_eq_bind, Option.bind_some]

variable {s : RowLevelRepair Row K P H} {b : K ×ₗ P}

omit [LinearOrder H] in
theorem Consistent.gathered_cut (hc : t.Consistent none s.nodes) (hm : m ∈ s.nodes) (b : K ×ₗ P) :
    t.Gathered (t.cut b m) (t.cut b m) [] := by
  have hcut := (hc.cut_spec hm b).1
  have hclean : (t.cut b m).workingRowBuf.filter RepairRow.dirtyOnMaster = [] := by
    refine filter_eq_nil_iff.mpr fun x hx => ?_
    rw [hc.clean m hm x (by rw [hcut.rowBuf]; exact mem_append_left _ hx)]
    simp
  refine ⟨by simp, by rw [append_nil, hcut.combined], ?_, fun _ => rfl, by simp, by simp, rfl,
    rfl, rfl, rfl⟩
  simp [dirtyRows, hclean]

section

variable (c : Config K P H) (hid : t.Identifies domain) (hc : t.Consistent none s.nodes)
  (hdomain : ∀ m ∈ s.nodes, ∀ r ∈ m.disk, r ∈ domain)

include c hid hc hdomain

theorem exchange_differ (hread : t.ReadUpTo b s.nodes) (hanswered : Answered t s.master) :
    ∃ got s',
      t.getMissingRows c.transport (t.cut b s.master)
        ((s.followers.map (t.cut b)).map fun f => (f, t.combinedHash f.workingRows)) = some got ∧
      t.sendMissingRowsToFollowerNodes c (got.2.map Prod.snd)
        { s with
          master := t.flushRowsInWorkingRowBuf got.1, followers := got.2.map Prod.fst } =
        some s' ∧
      s'.skippedSyncBoundary = s.skippedSyncBoundary ∧ Answered t s'.master ∧
      Forall₂ (t.Advanced b (fun n => (t.cut b n).workingRows) s.nodes none) s.nodes
        s'.nodes := by
  have hmaster : s.master ∈ s.nodes := mem_cons_self
  have hcut := (hc.cut_spec hmaster b).1
  have hrows : ∀ n ∈ s.nodes, (t.cut b n).workingRows.Nodup ∧
      ∀ r ∈ (t.cut b n).workingRows, r ∈ domain := fun n hn =>
    ⟨(hc.workingRows_cut hn b).1, fun r hr =>
      hdomain n hn r ((hc.workingRows_cut hn b).2 r hr)⟩
  have hfollowers : ∀ f ∈ s.followers.map (t.cut b),
      f.workingRows.Nodup ∧ ∀ r ∈ f.workingRows, r ∈ domain := by
    intro f hf
    obtain ⟨n, hn, rfl⟩ := mem_map.mp hf
    exact hrows n (mem_cons_of_mem _ hn)
  -- the master gathers the rows of all nodes and writes those it had not
  obtain ⟨m', peers, rows, hget, hg, hnodup, hmem, hpeers⟩ := getMissingRows_spec c.transport hid
    hfollowers (hc.gathered_cut hmaster b) (by simpa using (hrows _ hmaster).1)
    (by simpa using (hrows _ hmaster).2)
  have hall : ∀ r, r ∈ (t.cut b s.master).workingRows ++ rows ↔
      ∃ n ∈ s.nodes, r ∈ (t.cut b n).workingRows := by
    intro r
    rw [hmem r]
    simp [RowLevelRepair.nodes]
  have hgiven := hg.flush (hcut.dirtyOnMaster.trans (hc.flag _ hmaster))
  have hworking : (t.flushRowsInWorkingRowBuf m').workingRows.Perm
      ((t.cut b s.master).workingRows ++ rows) := by
    rw [workingRows_flush]
    exact hg.working
  -- and sends each follower what it misses
  have hlength : peers.length ≠ 1 ∨ (s.followers.map (t.cut b)).length ≤ 1 := by
    rw [hpeers.length_eq]
    omega
  obtain ⟨m'', followers', hput, hsame, hsent⟩ := putMissingRows_spec
    (m := t.flushRowsInWorkingRowBuf m') c.transport hid (hworking.nodup_iff.mpr hnodup)
    (fun r hr => by
      obtain ⟨n, hn, hr⟩ := (hall r).mp (hworking.mem_iff.mp hr)
      exact (hrows n hn).2 r hr)
    (fun f hf => (hfollowers f hf).2) hpeers hlength
  refine ⟨(m', peers), { s with master := m'', followers := followers' }, hget, ?_, rfl, ?_, ?_⟩
  · have hzip : (peers.map Prod.fst).zip (peers.map Prod.snd) = peers := by
      simp [zip_map']
    simp only [sendMissingRowsToFollowerNodes, hzip, length_map, hput, Option.bind_eq_bind,
      Option.bind_some]
  · have hrequested : m''.requested = m'.requested := by
      rw [hsame]
      exact requested_flush
    unfold Answered at hanswered ⊢
    rw [hrequested, (hgiven.sameButWorking hsame).received, map_append, hcut.received]
    refine hg.requested.trans (Perm.append_right _ ?_)
    rwa [hcut.requested]
  · refine Forall₂.cons ?_ ?_
    · refine advanced_cut hc hmaster hread (hgiven.sameButWorking hsame)
        (nodup_append.mp hnodup).2.1 fun r => ?_
      rw [← hall r, mem_append]
      have hdisjoint : r ∈ rows → r ∉ (t.cut b s.master).workingRows := fun hr hr' =>
        (nodup_append.mp hnodup).2.2 r hr' r hr rfl
      exact ⟨fun hr => ⟨Or.inr hr, hdisjoint hr⟩, fun hr => hr.1.resolve_left hr.2⟩
    · rw [forall₂_map_left_iff] at hsent
      refine Forall₂.imp ?_ ((forall₂_and_left s.followers followers').mpr
        ⟨fun f hf => mem_cons_of_mem s.master hf, hsent⟩)
      rintro f f' ⟨hf, rows', hgiven', hnodup', hrows'⟩
      refine advanced_cut hc hf hread hgiven' hnodup' fun r => ?_
      rw [hrows' r, hworking.mem_iff, hall r]

theorem exchange_spec (hcommon : s.commonSyncBoundary = some b) (hread : t.ReadUpTo b s.nodes)
    (hanswered : Answered t s.master) :
    ∃ s', t.exchangeRows c s = some s' ∧
      s'.skippedSyncBoundary = s.skippedSyncBoundary ∧ Answered t s'.master ∧
      Forall₂ (t.Advanced b (fun n => (t.cut b n).workingRows) s.nodes none) s.nodes
        s'.nodes := by
  have hmaster : s.master ∈ s.nodes := mem_cons_self
  obtain ⟨hcutMaster, hrequest⟩ := hc.cut_spec hmaster b
  simp only [exchangeRows, getMissingRowsFromFollowerNodes, hcommon, Option.bind_eq_bind,
    Option.bind_some, hrequest, requestRowHashes_followers hc]
  split
  case isTrue hequal =>
    refine ⟨_, rfl, rfl, ?_, ?_⟩
    · exact (congrArg₂ (fun requested received => Perm requested (map t.hash received))
        hcutMaster.requested hcutMaster.received).mpr hanswered
    · have hnodes : s.nodes.map (t.cut b) = t.cut b s.master ::
          ((s.followers.map (t.cut b)).map fun f => (f, t.combinedHash f.workingRows)).map
            Prod.fst := by
        simp [RowLevelRepair.nodes]
      have hmem : ∀ n ∈ s.nodes, t.combinedHash (t.cut b n).workingRows ∈
          t.combinedHash (t.cut b s.master).workingRows ::
            ((s.followers.map (t.cut b)).map fun f =>
              (f, t.combinedHash f.workingRows)).map Prod.snd := by
        intro n hn
        rcases mem_cons.mp hn with rfl | hn
        · exact mem_cons_self
        · refine mem_cons_of_mem _ ?_
          simp only [map_map]
          exact mem_map_of_mem hn
      have hall := advanced_same hid hc hdomain hread fun m hm n hn =>
        eq_of_allAdjacentEqual hequal (hmem m hm) (hmem n hn)
      rwa [hnodes] at hall
  case isFalse hequal =>
    obtain ⟨got, s', hget, hsend, hrest⟩ := exchange_differ c hid hc hdomain hread hanswered
    refine ⟨s', ?_, hrest⟩
    simp only [hget, Option.bind_some, reduceCtorEq, if_false]
    rwa [hcommon] at hsend

end

end Exchange

/-! ## Rounds and runs -/

section Run

variable {domain : Set Row} {s : RowLevelRepair Row K P H}

variable {nodes : List (RepairMeta Row K P H)}

theorem disk_eq_of_advanced {b : K ×ₗ P} {moved : RepairMeta Row K P H → List Row}
    {skipped : Option (K ×ₗ P)} {l l' : List (RepairMeta Row K P H)}
    (h : Forall₂ (t.Advanced b moved nodes skipped) l l') :
    l'.map RepairMeta.disk = l.map RepairMeta.disk := by
  induction h with
  | nil => rfl
  | cons ha _ ih => rw [map_cons, map_cons, ha.disk, ih]

def RoundResult (t : Table Row K P H) (s s' : RowLevelRepair Row K P H) (status : OpStatus) : Prop :=
  (status = .allDone ∧ t.Consistent none s'.nodes ∧ ∀ m ∈ s'.nodes, m.pending none = []) ∨
    (status = .nextRound ∧ t.Consistent s'.skippedSyncBoundary s'.nodes ∧
      totalPending s'.skippedSyncBoundary s'.nodes < totalPending s.skippedSyncBoundary s.nodes)

omit [LinearOrder K] [LinearOrder P] in
theorem totalPending_filled (c : Config K P H) :
    totalPending none (t.filled c s) = totalPending s.skippedSyncBoundary s.nodes := by
  simp only [totalPending, filled, map_map]
  refine congrArg sum (map_congr_left fun m _ => ?_)
  exact congrArg length (t.pending_getSyncBoundary _ _ m)

variable [LinearOrder H]

theorem round_spec (c : Config K P H) (hid : t.Identifies domain)
    (hc : t.Consistent s.skippedSyncBoundary s.nodes)
    (hdomain : ∀ m ∈ s.nodes, ∀ r ∈ m.disk, r ∈ domain) (hanswered : Answered t s.master) :
    ∃ s' status, t.round c s = some (s', status) ∧ Answered t s'.master ∧
      s'.nodes.map RepairMeta.disk = s.nodes.map RepairMeta.disk ∧ RoundResult t s s' status := by
  obtain ⟨hnodes, hnegotiated⟩ := negotiateSyncBoundary_spec (t := t) c s
  have hfilled : t.Consistent none (t.filled c s) := hc.fill c.maxRowBufSize
  have hdisk : (t.filled c s).map RepairMeta.disk = s.nodes.map RepairMeta.disk := by
    simp only [filled, map_map]
    rfl
  have hdomain' : ∀ m ∈ t.filled c s, ∀ r ∈ m.disk, r ∈ domain := by
    intro m hm
    obtain ⟨n, hn, rfl⟩ := mem_map.mp hm
    exact hdomain n hn
  have hreader : ∀ m ∈ t.filled c s, t.reportOf m = none → m.bufRows = [] ∧ m.reader = [] := by
    intro m hm hnone
    have hbuf : m.bufRows = [] := by simpa [reportOf] using hnone
    obtain ⟨n, hn, rfl⟩ := mem_map.mp hm
    exact ⟨hbuf, t.reader_getSyncBoundary _ _ n c.maxRowBufSize_pos hbuf⟩
  have htotal := totalPending_filled (t := t) (s := s) c
  rcases hneg : t.negotiateSyncBoundary c s with ⟨s₁, status⟩
  rw [hneg] at hnodes hnegotiated
  have hanswered₁ : Answered t s₁.master := by
    rw [(List.cons.inj hnodes).1]
    exact hanswered
  rw [← hnodes] at hfilled hdisk hdomain' hreader htotal hnegotiated
  simp only [round, hneg]
  cases hnegotiated with
  | allDone hnone =>
    refine ⟨s₁, _, rfl, hanswered₁, hdisk, Or.inl ⟨rfl, hfilled, fun m hm => ?_⟩⟩
    obtain ⟨hbuf, hrest⟩ := hreader m hm (hnone m hm)
    rw [pending_none, hbuf, hrest, append_nil]
  | nextRound b h hskipped hsame =>
    have hmem : ∀ m ∈ s₁.nodes, ∀ n ∈ s₁.nodes, ∀ r, r ∈ n.bufRows ↔ r ∈ m.bufRows := by
      intro m hm n hn
      obtain ⟨hmNodup, hmDisk⟩ := hfilled.bufRows_spec hm
      obtain ⟨hnNodup, hnDisk⟩ := hfilled.bufRows_spec hn
      exact hid _ _ hnNodup hmNodup (fun r hr => hdomain' n hn r (hnDisk r hr))
        (fun r hr => hdomain' m hm r (hmDisk r hr))
        ((combinedHash_of_report (hsame n hn)).trans (combinedHash_of_report (hsame m hm)).symm)
    have hadvanced : Forall₂ (t.Advanced b bufRows s₁.nodes (some b)) s₁.nodes s₁.nodes :=
      forall₂_same.mpr fun m hm => advanced_skip hfilled hm (hsame m hm) (hmem m hm)
    have hmaster : s₁.master ∈ s₁.nodes := mem_cons_self
    have hless := totalPending_lt hadvanced
      ⟨s₁.master, hmaster, bufRows_ne_nil_of_report (hsame _ hmaster)⟩
    refine ⟨s₁, _, rfl, hanswered₁, hdisk, Or.inr ⟨rfl, ?_, ?_⟩⟩
    · rw [hskipped]
      exact hfilled.advance hadvanced
    · rwa [hskipped, ← htotal]
  | nextStep b hskipped hcommon hmin hattained =>
    have hread : t.ReadUpTo b s₁.nodes := by
      intro m hm r hr
      cases hreport : t.reportOf m with
      | none => simp [(hreader m hm hreport).2] at hr
      | some report =>
        obtain ⟨last, hlast, rfl⟩ := Option.map_eq_some_iff.mp hreport
        have hlt := (pairwise_append.mp (hfilled.sorted_pending hm)).2.2 last
          (mem_of_getLast? hlast) r hr
        exact (hmin m hm _ hreport).trans_lt hlt
    obtain ⟨s₂, hexchange, hskipped₂, hanswered₂, hadvanced⟩ :=
      exchange_spec c hid hfilled hdomain' hcommon hread hanswered₁
    have hmoved : ∃ m ∈ s₁.nodes, (t.cut b m).workingRows ≠ [] := by
      obtain ⟨m, hm, h, hreport⟩ := hattained
      exact ⟨m, hm, hfilled.workingRows_cut_ne_nil hm hreport⟩
    have hless := totalPending_lt hadvanced hmoved
    refine ⟨s₂, _, by rw [hexchange]; rfl, hanswered₂,
      (disk_eq_of_advanced hadvanced).trans hdisk, Or.inr ⟨rfl, ?_, ?_⟩⟩
    · rw [hskipped₂, hskipped]
      exact hfilled.advance hadvanced
    · rwa [hskipped₂, hskipped, ← htotal]

theorem run_spec (c : Config K P H) (hid : t.Identifies domain) (turns : ℕ)
    (hc : t.Consistent s.skippedSyncBoundary s.nodes)
    (hdomain : ∀ m ∈ s.nodes, ∀ r ∈ m.disk, r ∈ domain) (hanswered : Answered t s.master)
    (hturns : totalPending s.skippedSyncBoundary s.nodes < turns) :
    ∃ s', t.run c turns s = some s' ∧ Answered t s'.master ∧
      s'.nodes.map RepairMeta.disk = s.nodes.map RepairMeta.disk ∧
      t.Consistent none s'.nodes ∧ ∀ m ∈ s'.nodes, m.pending none = [] := by
  induction turns generalizing s with
  | zero => omega
  | succ turns ih =>
    obtain ⟨s₁, status, hround, hanswered₁, hdisk, hresult⟩ :=
      round_spec c hid hc hdomain hanswered
    rcases hresult with ⟨rfl, hdone⟩ | ⟨rfl, hc₁, hless⟩
    · exact ⟨s₁, by simp [run, hround], hanswered₁, hdisk, hdone⟩
    · have hdomain₁ : ∀ m ∈ s₁.nodes, ∀ r ∈ m.disk, r ∈ domain := by
        intro m hm
        have hmem : m.disk ∈ s₁.nodes.map RepairMeta.disk := mem_map_of_mem hm
        rw [hdisk] at hmem
        obtain ⟨n, hn, heq⟩ := mem_map.mp hmem
        rw [← heq]
        exact hdomain n hn
      obtain ⟨s', hrun, hanswered', hdisk', hdone⟩ := ih hc₁ hdomain₁ hanswered₁ (by omega)
      exact ⟨s', by simp [run, hround, hrun], hanswered', hdisk'.trans hdisk, hdone⟩

omit [LinearOrder H] in
theorem Consistent.union_of_done (hc : t.Consistent none nodes)
    (hdone : ∀ m ∈ nodes, m.pending none = []) (hid : t.Identifies {r | ∃ m ∈ nodes, r ∈ m.disk})
    {m : RepairMeta Row K P H} (hm : m ∈ nodes) :
    (∀ r, (r ∈ m.disk ∨ r ∈ m.writtenRows) ↔ ∃ n ∈ nodes, r ∈ n.disk) ∧
      ((m.disk ++ m.received).map t.hash).Nodup := by
  have hpassed : ∀ n ∈ nodes, n.passed none = n.disk := by
    intro n hn
    have hdisk := hc.disk n hn
    rw [hdone n hn, append_nil] at hdisk
    exact hdisk.symm
  have hcomplete : ∀ r, (r ∈ m.disk ∨ r ∈ m.received) ↔ ∃ n ∈ nodes, r ∈ n.disk := by
    intro r
    rw [← hpassed m hm, hc.complete m hm r]
    exact exists_congr fun n => and_congr_right fun hn => by rw [hpassed n hn]
  refine ⟨fun r => ?_, ?_⟩
  · rw [hc.written m hm, hcomplete]
  · have hnodup : (m.disk ++ m.received).Nodup := by
      refine nodup_append.mpr ⟨?_, hc.nodup m hm, ?_⟩
      · exact (hc.sorted m hm).imp fun hlt heq => (heq ▸ hlt).ne rfl
      · rintro r hr r' hr' rfl
        exact hc.fresh m hm r hr' (hpassed m hm ▸ hr)
    refine hnodup.map_on fun r hr r' hr' hhash => ?_
    exact hid.hash_inj ((hcomplete r).mp (mem_append.mp hr))
      ((hcomplete r').mp (mem_append.mp hr')) hhash

end Run

end Table

section Result

variable [LinearOrder H]

open Table in
/-- Row-level repair ends, whatever the nodes, rows, row buffer limit, transport and order of
answers; then every node holds, among its own rows and those written, the rows of all. The master
asked for no hash it held or had asked for, and no follower was sent one it held or had been sent.
-/
theorem rowLevelRepair_union (t : Table Row K P H) (c : Config K P H) (master : List Row)
    (followers : List (List Row))
    (hsorted : ∀ rows ∈ master :: followers,
      rows.Pairwise fun r r' => t.boundary r < t.boundary r')
    (hid : t.Identifies {r | ∃ rows ∈ master :: followers, r ∈ rows}) :
    ∃ s turns,
      (∀ more, turns ≤ more → t.run c more (t.startRepair master followers) = some s) ∧
      s.nodes.map RepairMeta.disk = master :: followers ∧
      (∀ m ∈ s.nodes, ∀ r,
        (r ∈ m.disk ∨ r ∈ m.writtenRows) ↔ ∃ rows ∈ master :: followers, r ∈ rows) ∧
      s.master.requested.Perm (s.master.received.map t.hash) ∧
      (s.master.disk.map t.hash ++ s.master.requested).Nodup ∧
      ∀ f ∈ s.followers, ((f.disk ++ f.received).map t.hash).Nodup := by
  have hnodes : (t.startRepair master followers).nodes =
      (master :: followers).map (RepairMeta.start t) := rfl
  have hdisks : (t.startRepair master followers).nodes.map RepairMeta.disk =
      master :: followers := by
    rw [hnodes, map_map]
    exact map_id _
  have hdomain : ∀ m ∈ (t.startRepair master followers).nodes, ∀ r ∈ m.disk,
      ∃ rows ∈ master :: followers, r ∈ rows := by
    intro m hm r hr
    have hmem := mem_map_of_mem (f := RepairMeta.disk) hm
    rw [hdisks] at hmem
    exact ⟨m.disk, hmem, hr⟩
  obtain ⟨s, hrun, hanswered, hdisk, hc, hdone⟩ := run_spec c hid _
    (hnodes ▸ consistent_start hsorted) hdomain (Perm.refl _) (Nat.lt_succ_self _)
  rw [hdisks] at hdisk
  have hexists : ∀ r, (∃ m ∈ s.nodes, r ∈ m.disk) ↔ ∃ rows ∈ master :: followers, r ∈ rows := by
    intro r
    rw [← hdisk]
    simp only [mem_map, exists_exists_and_eq_and]
  have hunion : ∀ m ∈ s.nodes, _ := fun m hm =>
    hc.union_of_done hdone (by simpa only [hexists] using hid) hm
  refine ⟨s, _, fun more hmore => t.run_of_le c hmore hrun, hdisk, fun m hm r => ?_, hanswered,
    ?_, fun f hf => (hunion f (mem_cons_of_mem _ hf)).2⟩
  · rw [(hunion m hm).1, hexists]
  · have hmaster := (hunion s.master mem_cons_self).2
    rw [map_append] at hmaster
    exact (hanswered.append_left _).nodup_iff.mpr hmaster

def twoRows : Table Bool ℕ ℕ ℕ where
  key _ := 0
  pos r := if r then 1 else 0
  hash r := if r then 2 else 1
  size _ := 1
  size_pos _ := Nat.one_pos
  mergeableWith _ _ := true
  zero := 0
  add := Nat.xor

theorem twoRows_identifies (domain : Set Bool) : twoRows.Identifies domain := by
  have hlists : ∀ l : List Bool, l.Nodup →
      l = [] ∨ l = [false] ∨ l = [true] ∨ l = [false, true] ∨ l = [true, false] := by
    rintro (_ | ⟨a, _ | ⟨b, _ | ⟨c, l⟩⟩⟩) hnodup
    · simp
    · cases a <;> simp
    · cases a <;> cases b <;> simp at hnodup ⊢
    · cases a <;> cases b <;> cases c <;> simp at hnodup
  intro rows rows' hnodup hnodup' _ _ hcombined r
  rcases hlists rows hnodup with rfl | rfl | rfl | rfl | rfl <;>
    rcases hlists rows' hnodup' with rfl | rfl | rfl | rfl | rfl <;>
    revert hcombined <;> cases r <;> decide

def twoNodes : Config ℕ ℕ ℕ where
  maxRowBufSize := 1
  maxRowBufSize_pos := Nat.one_pos
  transport := .streams
  arrival _ responses := responses.reverse
  arrival_perm _ responses := responses.reverse_perm

theorem rowLevelRepair_union_twoNodes : ∃ s turns,
    (∀ more, turns ≤ more →
      twoRows.run twoNodes more (twoRows.startRepair [false] [[true]]) = some s) ∧
    s.nodes.map RepairMeta.disk = [[false], [true]] ∧
    (∀ m ∈ s.nodes, ∀ r,
      (r ∈ m.disk ∨ r ∈ m.writtenRows) ↔ ∃ rows ∈ [[false], [true]], r ∈ rows) ∧
    s.master.requested.Perm (s.master.received.map twoRows.hash) ∧
    (s.master.disk.map twoRows.hash ++ s.master.requested).Nodup ∧
    ∀ f ∈ s.followers, ((f.disk ++ f.received).map twoRows.hash).Nodup :=
  rowLevelRepair_union twoRows twoNodes [false] [[true]] (by simp) (twoRows_identifies _)

end Result

end Scylla.Repair
