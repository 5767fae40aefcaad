import Scylla.Mutation.Compaction

/-!
# Reading after an early compaction

One replica may compact and expire its data before the version of another is merged into it.
Compacting without purging removes only what a tombstone that is kept deletes, and turns an expired
cell into a dead one of the same timestamp. A dead cell wins against every live one of its
timestamp, also one that expires later: that tie is the only place where a reader can notice.
-/

namespace Scylla.Mutation

open Option
open AtomicCell
open Bool
open List

def neverGc : Tombstone → Bool → Id Bool := fun _ _ => pure false

variable {t : Tombstone}

namespace AtomicCell

/-- The cell, if it is live and not expired at `q`. -/
def liveNow (q : I64) (c : AtomicCell) : Option AtomicCell :=
  if c.isLive && !c.hasExpired q then some c else none

def read (t : Tombstone) (q : I64) (c : Option AtomicCell) : Option AtomicCell :=
  (c.bind (survivor t)).bind (liveNow q)

variable {x y : Option AtomicCell}

theorem read_eq_some_iff {q : I64} {c : AtomicCell} :
    read t q x = some c ↔ x = some c ∧ t.timestamp < c.timestamp ∧ liveNow q c ≠ none := by
  cases x with
  | none => simp [read]
  | some d =>
    simp only [read, survivor, bind_some, bind_eq_some_iff, ite_none_right_eq_some]
    grind [liveNow]

/-- An expired cell turned into a dead one. -/
def expire (now : I64) (c : AtomicCell) : AtomicCell :=
  if c.hasExpired now then .dead c.timestamp c.deletionTime else c

@[simp] theorem timestamp_expire (now : I64) (c : AtomicCell) :
    (c.expire now).timestamp = c.timestamp := by
  unfold expire
  split <;> rfl

variable {c d : AtomicCell} {now q : I64}

theorem hasExpired_mono (h : c.hasExpired now) (hq : now ≤ q) : c.hasExpired q := by
  unfold hasExpired at *
  simp only [and_eq_true, decide_eq_true_eq] at *
  exact ⟨h.1, h.2.trans hq⟩

theorem liveNow_expire (c : AtomicCell) (hq : now ≤ q) :
    liveNow q (c.expire now) = liveNow q c := by
  unfold expire
  split
  · next h => simp [liveNow, isLive, hasExpired_mono h hq]
  · rfl

def NoTie (now q : I64) (y x : Option AtomicCell) : Prop :=
  ∀ d ∈ y, ∀ c ∈ x, c.hasExpired now → d.isLiveAndHasTtl → q < d.expiry →
    d.timestamp ≠ c.timestamp

theorem apply_dead {t e : I64} (ht : d.timestamp = t) : (d.apply (.dead t e)).isLive = false := by
  rcases hd : d.isLive with _ | _
  · rcases apply_eq_or d (.dead t e) with h | h <;> rw [h]
    · exact hd
    · rfl
  · have ht' : d.timestamp = (dead t e).timestamp := ht
    rw [apply, keepGreater, if_pos]
    · rfl
    · rw [compareAtomicCellForMerge, if_neg (not_not.mpr ht'), hd]
      rfl

theorem apply_expiring (ht : d.timestamp = c.timestamp) (hd : d.isLive = true)
    (hdl : d.isLiveAndHasTtl = false) (hcl : c.isLiveAndHasTtl = true) : d.apply c = c := by
  have hc : c.isLive = true := by
    cases c <;> simp_all [isLive, isLiveAndHasTtl]
  rw [apply, keepGreater, if_pos]
  unfold compareAtomicCellForMerge
  simp [ht, hd, hc, hdl, hcl]

theorem liveNow_apply_expire (hq : now ≤ q) (h : NoTie now q (some d) (some c)) :
    liveNow q (d.apply (c.expire now)) = liveNow q (d.apply c) := by
  by_cases hexp : c.hasExpired now
  swap
  · rw [expire, if_neg hexp]
  · have hnone : liveNow q c = none := by simp [liveNow, hasExpired_mono hexp hq]
    rcases lt_trichotomy d.timestamp c.timestamp with hlt | heq | hgt
    · rw [apply_of_timestamp_lt (by rwa [timestamp_expire]), apply_of_timestamp_lt hlt,
        liveNow_expire c hq]
    · -- the expired cell was live and expiring; it loses only to a dead or a longer lived cell
      have hleft : liveNow q (d.apply (c.expire now)) = none := by
        rw [expire, if_pos hexp, liveNow, apply_dead heq]
        rfl
      have hcl : c.isLiveAndHasTtl = true := by
        unfold hasExpired at hexp
        simp only [and_eq_true] at hexp
        exact hexp.1
      rw [hleft]
      rcases apply_eq_or d c with hd | hc
      · rw [hd]
        by_cases hdl : d.isLiveAndHasTtl
        · have hexpd : d.expiry ≤ q := by
            by_contra hlt
            exact h d rfl c rfl hexp hdl (not_le.mp hlt) heq
          simp [liveNow, hasExpired, hdl, hexpd]
        · by_cases hlive : d.isLive
          · rw [apply_expiring heq hlive (by simpa using hdl) hcl] at hd
            rw [← hd, hnone]
          · simp [liveNow, hlive]
      · rw [hc, hnone]
    · rw [apply_of_timestamp_gt (by rwa [timestamp_expire]), apply_of_timestamp_gt hgt]

theorem survivor_map_expire (t : Tombstone) (now : I64) (x : Option AtomicCell) :
    (x.map (expire now)).bind (survivor t) = (x.bind (survivor t)).map (expire now) := by
  cases x with
  | none => rfl
  | some c =>
    by_cases h : t.timestamp < c.timestamp <;> simp [survivor, h]

/-- The version of a cell after an early compaction under the tombstone `t`. -/
def Compacted (t : Tombstone) (now : I64) (x x' : Option AtomicCell) : Prop :=
  x' = x.bind (survivor t) ∨ x' = (x.bind (survivor t)).map (expire now)

theorem mem_of_mem_survivor {c : AtomicCell} (h : c ∈ x.bind (survivor t)) : c ∈ x := by
  obtain ⟨c', hc', hs⟩ := bind_eq_some_iff.mp h
  unfold survivor at hs
  split at hs
  · cases hs
    exact hc'
  · cases hs

theorem noTie_survivor (h : NoTie now q y x) (t : Tombstone) :
    NoTie now q (y.bind (survivor t)) (x.bind (survivor t)) :=
  fun d hd c hc => h d (mem_of_mem_survivor hd) c (mem_of_mem_survivor hc)

theorem read_merge_compacted {e : Tombstone} {x' : Option AtomicCell}
    (hte : t.timestamp ≤ e.timestamp) (hq : now ≤ q) (hx : Compacted t now x x')
    (h : NoTie now q y x) :
    read e q (Option.merge apply y x') = read e q (Option.merge apply y x) := by
  have hsurvive : ∀ o : Option AtomicCell, (o.bind (survivor t)).bind (survivor e) =
      o.bind (survivor e) := by
    intro o
    cases o with
    | none => rfl
    | some c =>
      by_cases hc : t.timestamp < c.timestamp
      · simp [survivor, hc]
      · have hce : ¬ e.timestamp < c.timestamp := fun hlt => hc (hte.trans_lt hlt)
        simp [survivor, hc, hce]
  unfold read
  rw [survivor_merge, survivor_merge]
  rcases hx with rfl | rfl
  · rw [hsurvive]
  · rw [survivor_map_expire, hsurvive]
    have htie := noTie_survivor h e
    revert htie
    cases y.bind (survivor e) <;> cases x.bind (survivor e) <;> intro htie
    · rfl
    · simp [liveNow_expire _ hq]
    · rfl
    · exact liveNow_apply_expire hq htie

end AtomicCell

/-! ## Compaction without purging -/

theorem canPurge_neverGc (gcBefore timestamp deletionTime : I64) :
    canPurge neverGc gcBefore timestamp deletionTime = (pure false : Id Bool) := by
  unfold canPurge
  split <;> rfl

theorem expireCell_neverGc (now gcBefore : I64) (c : AtomicCell) :
    expireCell neverGc now gcBefore c = (pure (some (c.expire now)) : Id _) := by
  unfold expireCell AtomicCell.expire
  rw [canPurge_neverGc]
  by_cases hexp : c.hasExpired now
  · simp only [hexp, if_true]
    rfl
  · simp only [hexp, if_false, false_eq_true]
    split <;> rfl

theorem isCoveredBy_false (c : AtomicCell) (t : Tombstone) :
    c.isCoveredBy t false = decide (c.timestamp ≤ t.timestamp) := by
  simp [AtomicCell.isCoveredBy]

namespace AtomicCell

theorem run_compactAndExpire (canGc : Tombstone → Bool → Id Bool) (now gcBefore : I64)
    (tomb : RowTombstone) (c : AtomicCell) :
    (compactAndExpire canGc tomb now gcBefore c).run =
      (survivor tomb.shadowable c).bind fun c => (expireCell canGc now gcBefore c).run := by
  have hle := Tombstone.timestamp_mono tomb.regular_le
  unfold compactAndExpire
  rw [isCoveredBy_false, isCoveredBy_false]
  by_cases hs : c.timestamp ≤ tomb.shadowable.timestamp
  · have hnone : survivor tomb.shadowable c = none := by simp [survivor, hs]
    simp only [hnone, hs, decide_true, if_true, ite_self]
    rfl
  · have hr : ¬ c.timestamp ≤ tomb.regular.timestamp := fun h => hs (h.trans hle)
    have hsome : survivor tomb.shadowable c = some c := by simp [survivor, not_le.mp hs]
    simp [hsome, hs, hr]

theorem bind_expireCell_neverGc (now gcBefore : I64) (o : Option AtomicCell) :
    (o.bind fun c => (expireCell neverGc now gcBefore c).run) = o.map (expire now) := by
  simp only [expireCell_neverGc]
  exact map_eq_bind.symm

end AtomicCell

namespace CounterCell

/-- The counter, if no tombstone deletes it: any tombstone does. -/
def survivor (t : Tombstone) (c : CounterCell) : Option CounterCell :=
  if c.timestamp ≤ t.timestamp ∨ t.isSet then none else some c

def read (t : Tombstone) (c : Option CounterCell) : Option CounterCell :=
  (c.bind (survivor t)).filter isLive

theorem compactAndExpire_neverGc (tomb : RowTombstone) (gcBefore : I64) (c : CounterCell) :
    compactAndExpire neverGc tomb gcBefore c = (pure (survivor tomb.shadowable c) : Id _) := by
  have hle := Tombstone.timestamp_mono tomb.regular_le
  have hset := Tombstone.isSet_mono tomb.regular_le
  unfold compactAndExpire survivor
  by_cases hs : c.timestamp ≤ tomb.shadowable.timestamp ∨ tomb.shadowable.isSet
  · rw [if_pos hs, if_pos hs, ite_self]
  · have hr : ¬ (c.timestamp ≤ tomb.regular.timestamp ∨ tomb.regular.isSet) := by
      rintro (h | h)
      · exact hs (.inl (h.trans hle))
      · exact hs (.inr (hset h))
    rw [if_neg hr, if_neg hs, if_neg hs]
    cases c with
    | dead t d =>
      simp only [canPurge_neverGc]
      rfl
    | live t l => rfl

theorem read_merge_survivor {e : Tombstone} (hte : t ≤ e) {y x x' : Option CounterCell}
    (hx : x' = x.bind (survivor t)) (hts : ∀ c ∈ x, c.timestamp ≠ missingTimestamp) :
    read e (Option.merge apply y x') = read e (Option.merge apply y x) := by
  by_cases he : e.isSet = true
  · have hnone : ∀ o : Option CounterCell, o.bind (survivor e) = none := by
      intro o
      cases o <;> simp [survivor, he]
    rw [read, read, hnone, hnone]
  · have ht : t.timestamp = missingTimestamp := by
      by_contra hne
      exact he (Tombstone.isSet_mono hte (by simp [Tombstone.isSet, hne]))
    have hkeep : x.bind (survivor t) = x := by
      cases x with
      | none => rfl
      | some c =>
        have hlt : missingTimestamp < c.timestamp :=
          lt_of_le_of_ne (missingTimestamp_le _) (hts c rfl).symm
        simp [survivor, Tombstone.isSet, ht, hlt]
    rw [hx, hkeep]

end CounterCell

namespace CollectionMutation

variable {kt : KeyType}

def tombOf (o : Option (CollectionMutation kt)) : Tombstone := o.elim Tombstone.none tomb

/-- The cell under a key of an optional collection. -/
def lookupOf (o : Option (CollectionMutation kt)) (k : Bytes) : Option AtomicCell :=
  o.bind fun c => c.lookup k

/-- What a reader at `q` sees under a key of a collection, in a row with tombstone `t`. -/
def read (t : Tombstone) (q : I64) (o : Option (CollectionMutation kt)) (k : Bytes) :
    Option AtomicCell :=
  AtomicCell.read (t.apply (tombOf o)) q (lookupOf o k)

section Run

variable (canGc : Tombstone → Bool → Id Bool) (now gcBefore : I64)

theorem run_compactElement (tomb shadowable : Tombstone) (e : Bytes × AtomicCell) :
    (compactElement canGc tomb shadowable now gcBefore e).run =
      (AtomicCell.survivor (tomb.apply shadowable) e.2).bind fun c =>
        (expireCell canGc now gcBefore c).run := by
  unfold compactElement
  rw [isCoveredBy_false, isCoveredBy_false]
  by_cases h : e.2.timestamp ≤ tomb.timestamp ∨ e.2.timestamp ≤ shadowable.timestamp
  · have hnone : AtomicCell.survivor (tomb.apply shadowable) e.2 = none := by
      simpa [AtomicCell.survivor, Tombstone.timestamp_apply, imp_iff_not_or] using h
    rw [hnone, if_pos (by simpa using h)]
    rfl
  · have hsome : AtomicCell.survivor (tomb.apply shadowable) e.2 = some e.2 := by
      simpa [AtomicCell.survivor, Tombstone.timestamp_apply] using h
    rw [hsome, if_neg (by simpa using h)]
    rfl

theorem lookup_keepSurvivors_map {cells : List (Bytes × AtomicCell)}
    (f : Bytes × AtomicCell → Option AtomicCell) (h : SortedBy kt.cmp Prod.fst cells) (k : Bytes) :
    lookupBy kt.cmp Prod.fst (fun e => some e.2) k (keepSurvivors cells (cells.map f)) =
      lookupBy kt.cmp Prod.fst f k cells := by
  induction cells with
  | nil => rfl
  | cons e cells ih =>
    rw [map_cons, keepSurvivors, lookupBy_cons]
    cases hf : f e with
    | none =>
      simp only [map_none, toList_none, nil_append]
      rw [ih h.of_cons]
      split
      · next hk => exact lookupBy_tail_eq_none h hk
      · rfl
    | some c =>
      simp only [map_some, toList_some, singleton_append]
      rw [lookupBy_cons, ih h.of_cons]

section

variable (base : RowTombstone) (c : CollectionMutation kt) (k : Bytes)

theorem lookup_compactAndExpire :
    (compactAndExpire canGc base now gcBefore c).run.lookup k =
      ((c.lookup k).bind (AtomicCell.survivor (c.tomb.apply base.shadowable))).bind fun d =>
        (expireCell canGc now gcBefore d).run := by
  have hbase : (c.tomb.apply base.regular).apply base.shadowable =
      c.tomb.apply base.shadowable := by
    simp only [Tombstone.apply_eq_max, max_assoc, max_eq_right base.regular_le]
  let f : Bytes × AtomicCell → Option AtomicCell := fun e =>
    (AtomicCell.survivor (c.tomb.apply base.shadowable) e.2).bind fun d =>
      (expireCell canGc now gcBefore d).run
  have hverdicts : c.cells.mapM (compactElement canGc (c.tomb.apply base.regular)
      base.shadowable now gcBefore) = (pure (c.cells.map f) : Id _) := by
    rw [← mapM_pure]
    congr 1
    funext e
    exact (run_compactElement canGc now gcBefore _ _ e).trans (by rw [hbase]; rfl)
  have hcells : (compactAndExpire canGc base now gcBefore c).run.cells =
      keepSurvivors c.cells (c.cells.map f) := by
    unfold compactAndExpire
    rw [hverdicts]
    split
    · rfl
    · cases canPurge canGc gcBefore c.tomb.timestamp c.tomb.deletionTime <;> rfl
  rw [lookup, hcells, lookup_keepSurvivors_map f c.sorted, lookup, bind_assoc, ← lookupBy_bind]
  rfl

theorem lookupOf_compactColumn :
    lookupOf (compactColumn canGc base now gcBefore c).run k =
      ((c.lookup k).bind (AtomicCell.survivor (c.tomb.apply base.shadowable))).bind fun d =>
        (expireCell canGc now gcBefore d).run := by
  rw [← lookup_compactAndExpire]
  change lookupOf (ite _ none (some (compactAndExpire canGc base now gcBefore c).run)) k = _
  split
  next herase =>
    rw [and_eq_true, List.isEmpty_iff] at herase
    have hnil : (compactAndExpire canGc base now gcBefore c).run.cells = [] := herase.1
    rw [lookup, hnil]
    rfl
  next => rfl

end

end Run

theorem tombOf_compactColumn_neverGc (base : RowTombstone) (now gcBefore : I64)
    (c : CollectionMutation kt) :
    base.shadowable.apply (tombOf (compactColumn neverGc base now gcBefore c).run) =
      base.shadowable.apply c.tomb := by
  have htomb : (compactAndExpire neverGc base now gcBefore c).run.tomb =
      if c.tomb ≤ base.regular then Tombstone.none else c.tomb := by
    unfold compactAndExpire
    rw [canPurge_neverGc]
    split <;> rfl
  have hkeep : base.shadowable.apply (compactAndExpire neverGc base now gcBefore c).run.tomb =
      base.shadowable.apply c.tomb := by
    rw [htomb]
    split
    next h =>
      rw [Tombstone.apply_none, Tombstone.apply_eq_max, max_eq_left (h.trans base.regular_le)]
    next => rfl
  rw [← hkeep]
  change base.shadowable.apply (tombOf (ite _ none (some _))) = _
  split
  next herase =>
    rw [and_eq_true, decide_eq_true_eq] at herase
    have hle : (compactAndExpire neverGc base now gcBefore c).run.tomb ≤ base.shadowable :=
      herase.2
    rw [Tombstone.apply_eq_max _ (compactAndExpire neverGc base now gcBefore c).run.tomb,
      max_eq_left hle]
    exact Tombstone.apply_none _
  next => rfl

theorem tombOf_merge (a b : Option (CollectionMutation kt)) :
    tombOf (Option.merge merge a b) = (tombOf a).apply (tombOf b) := by
  cases a <;> cases b <;> simp [tombOf, merge]

variable {e : Tombstone} {a b : Option (CollectionMutation kt)}

theorem survivor_lookupOf_merge (ha : tombOf a ≤ e) (hb : tombOf b ≤ e) (k : Bytes) :
    (lookupOf (Option.merge merge a b) k).bind (AtomicCell.survivor e) =
      (Option.merge AtomicCell.apply (lookupOf a k) (lookupOf b k)).bind
        (AtomicCell.survivor e) := by
  cases a with
  | none => cases b <;> simp [lookupOf]
  | some a =>
    cases b with
    | none => simp [lookupOf]
    | some b =>
      have ha' : a.tomb.apply e = e := by rw [Tombstone.apply_eq_max]; exact max_eq_right ha
      have hb' : b.tomb.apply e = e := by rw [Tombstone.apply_eq_max]; exact max_eq_right hb
      simp only [lookupOf, merge_some_some, bind_some, lookup_merge,
        survivor_merge, survivor_survivor, ha', hb']

theorem read_lookupOf_merge {q : I64} (ha : tombOf a ≤ e) (hb : tombOf b ≤ e) (k : Bytes) :
    AtomicCell.read e q (lookupOf (Option.merge merge a b) k) =
      AtomicCell.read e q (Option.merge AtomicCell.apply (lookupOf a k) (lookupOf b k)) := by
  rw [AtomicCell.read, AtomicCell.read, survivor_lookupOf_merge ha hb]

theorem read_merge_compacted {now q : I64} {y x x' : Option (CollectionMutation kt)}
    (hte : t ≤ e) (hq : now ≤ q) (htomb : t.apply (tombOf x') = t.apply (tombOf x))
    (hlookup : ∀ k, AtomicCell.Compacted ((tombOf x).apply t) now (lookupOf x k) (lookupOf x' k))
    (htie : ∀ k, AtomicCell.NoTie now q (lookupOf y k) (lookupOf x k)) :
    read e q (Option.merge merge y x') = read e q (Option.merge merge y x) := by
  funext k
  have heff : e.apply (tombOf (Option.merge merge y x')) =
      e.apply (tombOf (Option.merge merge y x)) := by
    simp only [tombOf_merge, Tombstone.apply_eq_max] at htomb ⊢
    calc max e (max (tombOf y) (tombOf x'))
      _ = max (max e (tombOf y)) (max t (tombOf x')) := by
          rw [max_max_max_comm, max_eq_left hte]
      _ = max e (max (tombOf y) (tombOf x)) := by
          rw [htomb, max_max_max_comm, max_eq_left hte]
  unfold read
  rw [heff]
  have hmax : e.apply (tombOf (Option.merge merge y x)) = max e (max (tombOf y) (tombOf x)) := by
    rw [tombOf_merge, Tombstone.apply_eq_max, Tombstone.apply_eq_max]
  have hmax' : e.apply (tombOf (Option.merge merge y x)) = max e (max (tombOf y) (tombOf x')) := by
    rw [← heff, tombOf_merge, Tombstone.apply_eq_max, Tombstone.apply_eq_max]
  generalize e.apply (tombOf (Option.merge merge y x)) = e' at hmax hmax'
  have hy : tombOf y ≤ e' := by simp [hmax]
  have hx : tombOf x ≤ e' := by simp [hmax]
  have hx' : tombOf x' ≤ e' := by simp [hmax']
  have ht : (tombOf x).apply t ≤ e' := by
    rw [Tombstone.apply_eq_max]
    exact max_le hx (hmax ▸ hte.trans (le_max_left _ _))
  rw [read_lookupOf_merge hy hx', read_lookupOf_merge hy hx]
  exact AtomicCell.read_merge_compacted (Tombstone.timestamp_mono ht) hq (hlookup k) (htie k)

end CollectionMutation

namespace RowMarker

theorem eq_expiring_of_toCell {r : RowMarker} {c : AtomicCell} (hr : r.toCell = some c)
    (httl : noTtl < r.ttl) : c = .expiring r.timestamp [] r.expiry r.ttl := by
  obtain ⟨-, ⟨hl, -⟩ | ⟨hl, -⟩ | ⟨-, -, hc⟩⟩ := toCell_eq_some hr
  · rw [hl] at httl
    exact absurd httl (by decide)
  · exact absurd httl hl.le.not_gt
  · exact hc

theorem eq_dead_of_toCell {r : RowMarker} {c : AtomicCell} (hr : r.toCell = some c)
    (httl : r.ttl = deadTtl) : c = .dead r.timestamp r.expiry := by
  obtain ⟨-, ⟨-, hc⟩ | ⟨hl, -⟩ | ⟨hl, -, -⟩⟩ := toCell_eq_some hr
  · exact hc
  · rw [hl] at httl
    exact absurd httl (by decide)
  · exact absurd httl hl

theorem isLive_eq (m : RowMarker) : m.isLive = m.toCell.any AtomicCell.isLive := by
  unfold isLive toCell
  split_ifs <;> simp_all [AtomicCell.isLive]

/-- Without purging, a marker is deleted by the tombstone or, past its expiry, turned into a dead
one. -/
theorem compactAndExpire_neverGc (tomb : Tombstone) (now gcBefore : I64) (r : RowMarker) :
    ∃ r' : RowMarker, compactAndExpire neverGc tomb now gcBefore r = (pure r' : Id _) ∧
      AtomicCell.Compacted tomb now r.toCell r'.toCell ∧
      ((∀ c ∈ r.toCell, c.isLiveAndHasTtl = true → 0 < c.ttl) →
        r'.toCell = (r.toCell.bind (AtomicCell.survivor tomb)).map (AtomicCell.expire now)) := by
  cases hr : r.toCell with
  | none =>
    have hmiss : r.isMissing = true := by simp [isMissing, toCell_eq_none.mp hr]
    refine ⟨r, ?_, .inl hr, fun _ => hr⟩
    unfold compactAndExpire
    rw [if_pos hmiss]
  | some c =>
    have hmiss : ¬ r.isMissing = true := by simpa [isMissing] using (toCell_eq_some hr).1
    have hts := timestamp_of_toCell hr
    by_cases hdel : r.timestamp ≤ tomb.timestamp
    · have hnone : AtomicCell.survivor tomb c = none := by
        simp [AtomicCell.survivor, hts, hdel]
      have hcell : ({ r with timestamp := missingTimestamp } : RowMarker).toCell = none :=
        toCell_eq_none.mpr rfl
      simp only [AtomicCell.Compacted, bind_some, hnone]
      refine ⟨{ r with timestamp := missingTimestamp }, ?_, .inl hcell, fun _ => hcell⟩
      unfold compactAndExpire
      rw [if_neg hmiss, if_pos hdel]
    · have hkeep : AtomicCell.survivor tomb c = some c := by
        simp [AtomicCell.survivor, hts, not_le.mp hdel]
      simp only [AtomicCell.Compacted, bind_some, hkeep, map_some]
      by_cases hexp : (noTtl < r.ttl && r.expiry ≤ now) = true
      · have hcell : ({ r with expiry := r.expiry - r.ttl, ttl := deadTtl } : RowMarker).toCell =
            some (c.expire now) := by
          simp only [and_eq_true, decide_eq_true_eq] at hexp
          rw [eq_expiring_of_toCell hr hexp.1, AtomicCell.expire,
            if_pos (by simpa [AtomicCell.hasExpired] using ⟨rfl, hexp.2⟩)]
          exact (if_neg hmiss).trans (if_pos rfl)
        refine ⟨_, ?_, .inr hcell, fun _ => hcell⟩
        unfold compactAndExpire
        rw [if_neg hmiss, if_neg hdel]
        simp only [hexp, if_true, canPurge_neverGc]
        rfl
      · refine ⟨r, ?_, .inl hr, fun hpos => ?_⟩
        · unfold compactAndExpire
          rw [if_neg hmiss, if_neg hdel]
          simp only [if_neg hexp, canPurge_neverGc]
          split <;> rfl
        · rw [hr, AtomicCell.expire, if_neg fun hexpired => hexp ?_]
          obtain ⟨httl, hle⟩ := and_eq_true_iff.mp hexpired
          have hpos := hpos c rfl httl
          obtain ⟨-, ⟨-, rfl⟩ | ⟨-, rfl⟩ | ⟨-, -, rfl⟩⟩ := toCell_eq_some hr
          · cases httl
          · cases httl
          · exact and_eq_true_iff.mpr ⟨decide_eq_true hpos, hle⟩

end RowMarker

/-- What a reader gets for a column: elements of collections one by one. -/
def ReadOf : ColumnKind → Type
  | .atomic => Option AtomicCell
  | .counter => Option CounterCell
  | .collection _ => Bytes → Option AtomicCell

namespace CellOf

/-- What a reader at `q` sees of the value of a column under a tombstone. -/
def read (t : Tombstone) (q : I64) : (k : ColumnKind) → Option (CellOf k) → ReadOf k
  | .atomic => AtomicCell.read t q
  | .counter => CounterCell.read t
  | .collection _ => CollectionMutation.read t q

/-- The value of a column after an early compaction under the tombstone `t`. -/
def Compacted (t : Tombstone) (now : I64) : (k : ColumnKind) → (x x' : Option (CellOf k)) → Prop
  | .atomic, x, x' => AtomicCell.Compacted t now x x'
  | .counter, x, x' => x' = x.bind (CounterCell.survivor t)
  | .collection _, x, x' =>
    t.apply (CollectionMutation.tombOf x') = t.apply (CollectionMutation.tombOf x) ∧
      ∀ k, AtomicCell.Compacted ((CollectionMutation.tombOf x).apply t) now
        (CollectionMutation.lookupOf x k) (CollectionMutation.lookupOf x' k)

def NoTie (now q : I64) : (k : ColumnKind) → (y x : Option (CellOf k)) → Prop
  | .atomic, y, x => AtomicCell.NoTie now q y x
  | .counter, _, x => ∀ c ∈ x, CounterCell.timestamp c ≠ missingTimestamp
  | .collection _, y, x => ∀ k,
    AtomicCell.NoTie now q (CollectionMutation.lookupOf y k) (CollectionMutation.lookupOf x k)

theorem compacted_none (t : Tombstone) (now : I64) :
    (k : ColumnKind) → Compacted t now k none none
  | .atomic => .inl rfl
  | .counter => rfl
  | .collection _ => ⟨rfl, fun _ => .inl rfl⟩

theorem compactAndExpire_neverGc (tomb : RowTombstone) (now gcBefore : I64) (k : ColumnKind)
    (c : CellOf k) :
    Compacted tomb.shadowable now k (some c)
      (compactAndExpire neverGc tomb now gcBefore k c : Id _) := by
  cases k with
  | atomic =>
    exact .inr ((run_compactAndExpire neverGc now gcBefore tomb c).trans
      (bind_expireCell_neverGc now gcBefore _))
  | counter => exact CounterCell.compactAndExpire_neverGc tomb gcBefore c
  | collection kt =>
    refine ⟨CollectionMutation.tombOf_compactColumn_neverGc tomb now gcBefore c, fun k => .inr ?_⟩
    exact (CollectionMutation.lookupOf_compactColumn neverGc now gcBefore tomb c k).trans
      (bind_expireCell_neverGc now gcBefore _)

theorem read_merge_compacted {e : Tombstone} {now q : I64} (hte : t ≤ e) (hq : now ≤ q)
    {k : ColumnKind} {y x x' : Option (CellOf k)} (hx : Compacted t now k x x')
    (htie : NoTie now q k y x) :
    read e q k (Option.merge apply y x') = read e q k (Option.merge apply y x) := by
  cases k with
  | atomic => exact AtomicCell.read_merge_compacted (Tombstone.timestamp_mono hte) hq hx htie
  | counter => exact CounterCell.read_merge_survivor hte hx htie
  | collection kt => exact CollectionMutation.read_merge_compacted hte hq hx.1 hx.2 htie

end CellOf

theorem Row.compactAndExpire_neverGc {columns : List ColumnKind} (tomb : RowTombstone)
    (now gcBefore : I64) (r : Row columns) (i : Fin columns.length) :
    CellOf.Compacted tomb.shadowable now _ (r i)
      ((compactAndExpire neverGc tomb now gcBefore r : Id _) i) := by
  unfold compactAndExpire
  rw [finTraverse_id]
  cases hr : r i with
  | none => exact CellOf.compacted_none _ _ _
  | some c => exact CellOf.compactAndExpire_neverGc tomb now gcBefore _ c

end Scylla.Mutation
