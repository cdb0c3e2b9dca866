import OverlayBD.Format.LsmtJournal
import OverlayBD.Format.LsmtRwContent

/-!
# The journal of the LSMT writable layer

Map and log of a layer agree: the log on disk, replayed from nothing, denotes the map in memory.  This holds after
every operation, whether it succeeds or not, as long as the layer still admits operations.

* `LogInv` — the invariant of the layer.
* `pwritePiece_logged`, `pwrite_logged`, `discard_logged`, `flush_logged`, `grow_logged` — every operation keeps it and
  only appends records of its own range to the log that `prepareMutation` leaves.
* `logInv_create`, `logInv_reopen` — creation and opening establish it.
-/

namespace OverlayBD

open Intervals SegmentMapping Bytes Errno Effect FilePair

namespace LsmtRw

/-- **Map and log agree**, over a pair that keeps `Inv`. -/
structure MapInv (Inv : FilePair → List SegmentMapping → Prop) (s : LsmtRw) (records : List SegmentMapping) :
    Prop where
  pair : Inv s.pair records
  small : s.data.size ≤ 2 ^ 63
  ends : ∀ a ∈ records, a.zeroed = false → a.moffset + a.length ≤ s.dataEndSector
  failed : s.pair.poisoned = true → s.journalFailed = true
  vsize_eq : s.pair.poisoned = false → s.vsize = s.pair.header.virtualSize
  /-- Once a publication stopped half-way, the log may be ahead of the map. -/
  map : s.journalFailed = false ∨ s.pair.growthPending = true → ∀ x, resolve s.segments x = logMap records x

/-- Map and log of a layer that was created here. -/
abbrev LogInv (s : LsmtRw) (records : List SegmentMapping) : Prop := MapInv PairInv s records

section Rules

variable {Led Inv : FilePair → List SegmentMapping → Prop}

theorem MapInv.led {s : LsmtRw} {records : List SegmentMapping} (J : LogRules Led Inv) (h : MapInv Inv s records)
    (hj : s.journalFailed = false) : Led s.pair records := by
  refine J.led h.pair (Bool.eq_false_of_not_eq_true fun hp => ?_)
  exact nomatch (h.failed hp).symm.trans hj

/-- The runs of a map fit where the records it comes from fit. -/
theorem within_of_map {l records : List SegmentMapping} {sectors dataSectors : ℕ} (hw : IndexWf l)
    (hmap : ∀ x, resolve l x = logMap records x) (hin : ∀ m ∈ records, Replay.Within sectors dataSectors m) :
    ∀ m ∈ l, Replay.Within sectors dataSectors m := by
  intro m hm
  have hpos := hw.proper m hm
  simp only [lo_eq, hi_eq, stop] at hpos
  -- the record behind a sector of the run
  have hrecord : ∀ x, m.offset ≤ x → x < m.offset + m.length →
      ∃ a ∈ records, Covers a x ∧ a.place x = m.place x := by
    intro x h1 h2
    refine Replay.exists_record_of_logMap ((hmap x).symm.trans ?_)
    rw [resolve, hw.ordered.lookup_of_mem hm (by simp only [covers_iff]; omega)]
  have hdata : m.zeroed = false → ∀ x, m.offset ≤ x → x < m.offset + m.length →
      kDataStartSector ≤ m.moffset + (x - m.offset) ∧ m.moffset + (x - m.offset) < dataSectors := by
    intro hz x h1 h2
    obtain ⟨a, ha, hc, hp⟩ := hrecord x h1 h2
    have hza : a.zeroed = false := by
      cases hza : a.zeroed with
      | false => rfl
      | true => simp [place, hz, hza] at hp
    simp only [place, hz, hza, Bool.false_eq_true, if_false, Place.data.injEq] at hp
    have := (hin a ha).backed hza
    simp only [covers_iff] at hc
    omega
  refine ⟨by omega, hw.short m hm, ?_, fun hz => ?_⟩
  · obtain ⟨a, ha, hc, -⟩ := hrecord (m.offset + m.length - 1) (by omega) (by omega)
    have := (hin a ha).stop_le
    simp only [covers_iff, stop] at hc this ⊢
    omega
  · have h1 := hdata hz m.offset le_rfl (by omega)
    have h2 := hdata hz (m.offset + m.length - 1) (by omega) (by omega)
    omega

/-! ### Preparing -/

/-- **Preparing a mutation** may rewrite the log, never what it denotes. -/
theorem prepareMutation_logged (J : LogRules Led Inv) {s : LsmtRw} {records : List SegmentMapping} (h : MapInv Inv s records) (hw : Wf s) :
    wp prepareMutation
      (fun _ s' => s'.journalFailed = false ∧ ∃ base, MapInv Inv s' base)
      (fun _ s' => ∃ base, MapInv Inv s' base) s := by
  unfold prepareMutation
  rw [wp_bind, wp_gets, wp_bind, wp_refuse]
  refine ⟨fun _ => ⟨records, h⟩, fun hj => ?_⟩
  replace hj : s.journalFailed = false := Bool.eq_false_of_not_eq_true hj
  rw [wp_onlyIf]
  refine ⟨fun _ => ?_, fun _ => ⟨hj, records, h⟩⟩
  have hlog := h.led J hj
  have hin := within_of_map hw.index (h.map (.inl hj)) (J.within hlog)
  -- the log changes, the map it denotes does not
  have hkept : ∀ (p' : FilePair) (records' : List SegmentMapping), Led p' records' →
      p'.disk.data = s.pair.disk.data → p'.header = s.pair.header → (∀ x, logMap records' x = logMap records x) →
      (∀ a ∈ records', a.zeroed = false → a.moffset + a.length ≤ s.dataEndSector) →
      MapInv Inv { s with pair := p' } records' := by
    intro p' records' hl hdata hheader hmap hends
    refine ⟨J.inv hl, ?_, hends, (fun hp => nomatch (J.healthy hl).symm.trans hp), fun _ => ?_, fun _ x => ?_⟩
    · show p'.disk.data.size ≤ 2 ^ 63
      rw [hdata]
      exact h.small
    · show s.vsize = p'.header.virtualSize
      rw [hheader]
      exact h.vsize_eq (J.healthy hlog)
    · exact (h.map (.inl hj) x).trans (hmap x).symm
  have hnew : ∀ x, logMap (s.segments.map retag) x = logMap records x := by
    intro x
    rw [logMap_of_indexWf (indexWf_map_retag hw.index), resolve_map_retag hin (J.data_lt hlog)]
    exact h.map (.inl hj) x
  have hends : ∀ a ∈ s.segments.map retag, a.zeroed = false → a.moffset + a.length ≤ s.dataEndSector := by
    intro a ha hz
    obtain ⟨m, hm, rfl⟩ := List.mem_map.mp ha
    have hpos := hw.index.proper m hm
    simp only [lo_eq, hi_eq] at hpos
    have hkeep := (within_retag (hin m hm) (J.data_lt hlog)).2 (m.offset + m.length - 1)
    have hlast : resolve s.segments (m.offset + m.length - 1) = some ((retag m).place (m.offset + m.length - 1)) := by
      rw [resolve, hw.index.ordered.lookup_of_mem hm (by simp only [covers_iff]; omega), hkeep]
    rw [place, if_neg (by rw [hz]; decide)] at hlast
    have := (hw.backed _ _ hlast).2.1
    have hoff : (retag m).offset = m.offset := rfl
    have hlen : (retag m).length = m.length := rfl
    omega
  rw [onPair, wp_zoom]
  refine wp_mono (J.compact hlog hw.index hw.exclusive hin) (fun _ p' hp' => ?_) fun _ p' hp' => ?_
  · exact ⟨hj, _, hkept p' _ hp'.1 hp'.2.1 hp'.2.2 hnew hends⟩
  · rcases hp'.1 with hl | hl
    · exact ⟨_, hkept p' _ hl hp'.2.1 hp'.2.2 (fun _ => rfl) h.ends⟩
    · exact ⟨_, hkept p' _ hl hp'.2.1 hp'.2.2 hnew hends⟩

/-! ### Records of a plan -/

/-- The runs a plan publishes. -/
def freshRuns (ops : List WriteOp) : List SegmentMapping := runs (ops.filter fun op => !op.inplace)

/-- Records of sectors `[lo, hi)` only. -/
def Confined (lo hi : ℕ) (ms : List SegmentMapping) : Prop := ∀ m ∈ ms, lo ≤ m.offset ∧ m.stop ≤ hi

theorem confined_nil (lo hi : ℕ) : Confined lo hi [] := fun _ h => nomatch h

theorem Confined.append {lo hi : ℕ} {ms ms' : List SegmentMapping} (h : Confined lo hi ms) (h' : Confined lo hi ms') :
    Confined lo hi (ms ++ ms') :=
  fun m hm => (List.mem_append.mp hm).elim (h m) (h' m)

theorem Confined.mono {lo hi lo' hi' : ℕ} {ms : List SegmentMapping} (h : Confined lo hi ms) (hlo : lo' ≤ lo)
    (hhi : hi ≤ hi') : Confined lo' hi' ms :=
  fun m hm => ⟨hlo.trans (h m hm).1, (h m hm).2.trans hhi⟩

/-- Such records leave the other sectors alone. -/
theorem Confined.logMap {lo hi : ℕ} {ms : List SegmentMapping} (h : Confined lo hi ms) (records : List SegmentMapping)
    {x : ℕ} (hx : ¬ (lo ≤ x ∧ x < hi)) : logMap (records ++ ms) x = logMap records x := by
  induction ms using List.reverseRecOn with
  | nil => rw [List.append_nil]
  | append_singleton ms m ih =>
    have hm := h m (by simp)
    have hc : ¬ Covers m x := fun hc => by
      simp only [covers_iff, stop] at hc hm
      omega
    rw [← List.append_assoc, logMap_concat, SectorMap.assign, if_neg hc]
    exact ih fun a ha => h a (List.mem_append_left _ ha)

section Plan

variable {f : SectorMap} {hi cur d d' : ℕ} {ops : List WriteOp}

theorem freshRuns_sublist (ops : List WriteOp) : List.Sublist (freshRuns ops) (runs ops) :=
  List.filter_sublist.map _

theorem Plan.confined (h : Plan f hi cur d ops d') : Confined cur hi (freshRuns ops) := by
  intro m hm
  have := h.mem_runs m ((freshRuns_sublist ops).subset hm)
  exact ⟨this.1, this.2.2⟩

/-- What a plan publishes is all it changes. -/
theorem Plan.fresh_or (h : Plan f hi cur d ops d') (x : ℕ) :
    (resolve (freshRuns ops) x).or (f x) = (resolve (runs ops) x).or (f x) := by
  induction h with
  | done => rfl
  | @reuse cur n p d d' ops hn hmap rest ih =>
    by_cases hc : Covers (WriteOp.mapping ⟨cur, p, n, true⟩) x
    · have hnone : resolve (freshRuns ops) x = none := lookup_none_of_lt (fun m hm => (rest.confined m hm).1) hc.2
      have hold : f x = some (.data (p + (x - cur))) := by
        simp only [covers_iff, WriteOp.mapping] at hc
        have := hmap (x - cur) (by omega)
        rwa [show cur + (x - cur) = x by omega] at this
      have hnew : resolve (runs (⟨cur, p, n, true⟩ :: ops)) x = some (.data (p + (x - cur))) := lookup_cons_of_covers hc
      show (resolve (freshRuns ops) x).or (f x) = _
      rw [hnone, hnew, hold]
      rfl
    · have hrest : resolve (runs (⟨cur, p, n, true⟩ :: ops)) x = resolve (runs ops) x := lookup_cons_of_not hc
      rw [hrest]
      exact ih
  | @fresh cur n d d' ops hn hmap rest ih =>
    by_cases hc : Covers (WriteOp.mapping ⟨cur, d, n, false⟩) x
    · have h1 : resolve (freshRuns (⟨cur, d, n, false⟩ :: ops)) x = some (.data (d + (x - cur))) :=
        lookup_cons_of_covers hc
      have h2 : resolve (runs (⟨cur, d, n, false⟩ :: ops)) x = some (.data (d + (x - cur))) := lookup_cons_of_covers hc
      rw [h1, h2]
    · have h1 : resolve (freshRuns (⟨cur, d, n, false⟩ :: ops)) x = resolve (freshRuns ops) x := lookup_cons_of_not hc
      have h2 : resolve (runs (⟨cur, d, n, false⟩ :: ops)) x = resolve (runs ops) x := lookup_cons_of_not hc
      rw [h1, h2]
      exact ih

theorem Plan.fresh_indexWf (h : Plan f hi cur d ops d') (hlen : hi - cur ≤ kMaxLength) : IndexWf (freshRuns ops) :=
  (h.indexWf hlen).sublist (freshRuns_sublist ops)

/-- **Publishing a plan** whose payload is stored. -/
theorem publishOps_logged (J : LogRules Led Inv) {s : LsmtRw} {records : List SegmentMapping} {published : Bool}
    (h : Plan f hi cur d ops d') (hlog : Led s.pair records) (hlen : hi - cur ≤ kMaxLength)
    (hhi : hi ≤ s.pair.header.virtualSize / kAlignment) (hd : kDataStartSector ≤ d)
    (hends : ∀ a ∈ records, a.zeroed = false → a.moffset + a.length ≤ d)
    (hstored : ∀ m ∈ freshRuns ops, m.moffset + m.length ≤ s.data.size / kAlignment) :
    wp (publishOps ops published)
      (fun _ s' => Led s'.pair (records ++ freshRuns ops) ∧ s' = { s with pair := s'.pair } ∧
        s'.data = s.data ∧ s'.pair.header = s.pair.header)
      (fun _ s' => (∃ new, Confined cur hi new ∧ Inv s'.pair (records ++ new) ∧
          (∀ a ∈ new, a.zeroed = false → a.moffset + a.length ≤ d') ∧
          (s'.journalFailed = false → new = [] ∧ published = false)) ∧
        (s'.pair.poisoned = true → s'.journalFailed = true) ∧ s'.pair.growthPending = false ∧
        s' = { s with pair := s'.pair, journalFailed := s'.journalFailed } ∧
        s'.data = s.data ∧ s'.pair.header = s.pair.header) s := by
  induction h generalizing s records published with
  | done d =>
    refine ⟨?_, rfl, rfl, rfl⟩
    rw [show freshRuns [] = [] from rfl, List.append_nil]
    exact hlog
  | @reuse cur n q d d' ops hn hmap rest ih =>
    -- live DATA has its record already
    rw [publishOps, if_pos rfl]
    refine wp_mono (ih hlog (by omega) hhi hd hends hstored) (fun _ s' h' => h') fun _ s' h' => ?_
    obtain ⟨⟨new, hconf, hinv, hnew, hj⟩, hrest⟩ := h'
    exact ⟨⟨new, hconf.mono (Nat.le_add_right _ _) le_rfl, hinv, hnew, hj⟩, hrest⟩
  | @fresh cur n d d' ops hn hmap rest ih =>
    have hcur := rest.bounds.1
    have hbound := rest.bounds.2
    set m : SegmentMapping := WriteOp.mapping ⟨cur, d, n, false⟩ with hm
    have hmem : m ∈ freshRuns (⟨cur, d, n, false⟩ :: ops) := List.mem_cons_self
    have hback : d + n ≤ s.data.size / kAlignment := hstored m hmem
    have hwithin : Replay.Within (s.pair.header.virtualSize / kAlignment) (s.pair.disk.data.size / kAlignment) m :=
      ⟨hn, by show n ≤ kMaxLength; omega, by show cur + n ≤ _; omega, fun _ => ⟨hd, hback⟩⟩
    have hfits : m.Fits := by
      have h1 := J.capacity_le hlog
      have h2 := J.data_lt hlog
      have h3 : kMaxOffset < 2 ^ 50 := by decide
      have h4 : kMaxLength < 2 ^ 14 := by decide
      have h5 : kMaxMoffset < 2 ^ 55 := by decide
      have h6 : d + n ≤ s.pair.disk.data.size / kAlignment := hback
      refine ⟨?_, ?_, ?_, ?_⟩
      · show cur < 2 ^ 50
        omega
      · show n < 2 ^ 14
        omega
      · show d < 2 ^ 55
        omega
      · show 0 < 2 ^ 8
        decide
    have hshare : ∀ a ∈ records, Replay.SharesNothing a m := fun a ha hz _ => .inl (hends a ha hz)
    have hconf : Confined cur hi [m] := fun a ha => by
      rw [List.mem_singleton.mp ha]
      exact ⟨le_rfl, hcur⟩
    rw [publishOps, if_neg Bool.false_ne_true, wp_bind, wp_onError, onPair, wp_zoom]
    refine wp_mono (J.append hlog hwithin hfits hshare) (fun _ p' hp' => ?_) fun _ p' hp' => ?_
    · obtain ⟨hlog', hdata, hheader⟩ := hp'
      have hfresh : freshRuns (⟨cur, d, n, false⟩ :: ops) = [m] ++ freshRuns ops := rfl
      have hends' : ∀ a ∈ records ++ [m], a.zeroed = false → a.moffset + a.length ≤ d + n := by
        intro a ha hz
        rcases List.mem_append.mp ha with ha | ha
        · exact (hends a ha hz).trans (Nat.le_add_right _ _)
        · rw [List.mem_singleton.mp ha]
          exact le_rfl
      have hstored' : ∀ a ∈ freshRuns ops, a.moffset + a.length ≤ p'.disk.data.size / kAlignment := by
        intro a ha
        rw [hdata]
        exact hstored a (List.mem_cons_of_mem _ ha)
      have hhi' : hi ≤ p'.header.virtualSize / kAlignment := by
        rw [hheader]
        exact hhi
      refine wp_mono (ih (s := { s with pair := p' }) hlog' (by omega) hhi' (by omega) hends'
        hstored') (fun _ s' h' => ?_) fun _ s' h' => ?_
      · obtain ⟨h1, h2, h3, h4⟩ := h'
        refine ⟨?_, h2, h3.trans hdata, h4.trans hheader⟩
        rw [hfresh, ← List.append_assoc]
        exact h1
      · obtain ⟨⟨new, hconf', hinv, hnew, hj⟩, hp, hg, hs', hdata', hheader'⟩ := h'
        refine ⟨⟨[m] ++ new, hconf.append (hconf'.mono (Nat.le_add_right _ _) le_rfl), ?_, fun a ha hz => ?_, fun hjf => ?_⟩,
          hp, hg, hs', hdata'.trans hdata, hheader'.trans hheader⟩
        · rw [← List.append_assoc]
          exact hinv
        · rcases List.mem_append.mp ha with ha | ha
          · rw [List.mem_singleton.mp ha]
            exact hbound
          · exact hnew a ha hz
        · cases (hj hjf).2
    · obtain ⟨⟨new, hnew, hinv⟩, hdata, hheader, hg⟩ := hp'
      refine ⟨⟨new, ?_, hinv, ?_, fun hjf => ?_⟩, fun hp => ?_, hg, rfl, hdata, hheader⟩
      · rcases hnew with rfl | ⟨rfl, -⟩
        · exact confined_nil cur hi
        · exact hconf
      · rcases hnew with rfl | ⟨rfl, -⟩
        · rintro a ⟨⟩
        · intro a ha _
          rw [List.mem_singleton.mp ha]
          exact hbound
      · -- nothing failed for good: nothing was published
        obtain ⟨h1, h2⟩ := Bool.or_eq_false_iff.mp hjf
        refine ⟨hnew.resolve_right fun hr => ?_, h2⟩
        cases h1.symm.trans hr.2
      · show (p'.poisoned || published) = true
        rw [show p'.poisoned = true from hp]
        rfl

/-- Fresh payload lies below the new append position. -/
theorem Plan.fresh_le (h : Plan f hi cur d ops d') : ∀ m ∈ freshRuns ops, m.moffset + m.length ≤ d' := by
  induction h with
  | done => exact fun m hm => nomatch hm
  | reuse _ _ _ ih => exact ih
  | fresh _ _ rest ih =>
    intro m hm
    rcases List.mem_cons.mp hm with rfl | hm
    · exact rest.bounds.2
    · exact ih m hm

end Plan

/-! ### One piece of a write -/

variable {buf : Buf} {s : LsmtRw} {offset : ℕ}

theorem writeOp_small {op : WriteOp} (h : s.data.size ≤ 2 ^ 63) :
    wp (writeOp buf offset op) (fun _ s' => s'.data.size ≤ 2 ^ 63) (fun _ s' => s'.data.size ≤ 2 ^ 63) s := by
  have hk : kMaxFileSize < 2 ^ 63 := by decide
  have hsize : ∀ n : ℕ, n = 0 ∨ op.moff * kAlignment + n ≤ kMaxFileSize →
      (s.data.write (op.moff * kAlignment) n fun i => buf (op.voff * kAlignment - offset + i)).size ≤ 2 ^ 63 := by
    intro n hn
    rw [File.size_write]
    split_ifs <;> omega
  unfold writeOp onPair FilePair.sys
  simp only [wp_bind, wp_zoom]
  unfold wp Disk.write
  cases s.pair.disk.faults s.pair.disk.tick with
  | some f => exact hsize _ (by omega)
  | none =>
    by_cases hbig : kMaxFileSize < op.moff * kAlignment + op.nsector * kAlignment
    · simp only [if_pos hbig]
      exact h
    · simp only [if_neg hbig]
      exact hsize _ (.inr (Nat.le_of_not_lt hbig))

/-- Payload writes stay below the largest size. -/
theorem writeOps_small (ops : List WriteOp) (h : s.data.size ≤ 2 ^ 63) :
    wp (each ops (writeOp buf offset)) (fun _ s' => s'.data.size ≤ 2 ^ 63) (fun _ s' => s'.data.size ≤ 2 ^ 63) s :=
  wp_each (fun _ (s : LsmtRw) => s.data.size ≤ 2 ^ 63) (fun _ _ _ h => writeOp_small h) ops h

variable {records : List SegmentMapping} {lo hi : ℕ}

/-- Storing payload where a plan says keeps the log. -/
theorem MapInv.store (J : LogRules Led Inv) {s' : LsmtRw} {d' : ℕ} {ops : List WriteOp}
    (h : MapInv Inv s records) (hw : Wf s) (hj : s.journalFailed = false)
    (hplan : Plan (resolve s.segments) hi lo s.dataEndSector ops d') (hst : Stored { s with dataEndSector := d' } s')
    (hkeep : ∀ p, (∀ x, resolve (runs ops) x ≠ some (.data p)) →
      ∀ j < kAlignment, s'.data.byte (p * kAlignment + j) = s.data.byte (p * kAlignment + j))
    (hsmall : s'.data.size ≤ 2 ^ 63) : MapInv Inv s' records ∧ s'.journalFailed = false ∧ s'.vsize = s.vsize := by
  have hlog := h.led J hj
  -- no plan touches the header
  have hfront : ∀ i, i < kSpace → s'.data.byte i = s.data.byte i := by
    intro i hi
    have := hkeep (i / kAlignment) (fun x hx => ?_) (i % kAlignment) (Nat.mod_lt _ (by decide))
    · rwa [Nat.mul_comm, Nat.div_add_mod] at this
    · have hlt : i / kAlignment < kDataStartSector := Nat.div_lt_of_lt_mul hi
      rcases (hplan.of_resolve hx).2 with hf | ⟨h1, -, -⟩
      · have := (hw.backed x _ hf).1
        omega
      · have := hw.start
        omega
  have hstore := J.store hlog s'.data s'.pair.disk.tick hst.size ?_ hfront
  · have hpair : s'.pair = { s.pair with disk := { s.pair.disk with data := s'.data, tick := s'.pair.disk.tick } } := by
      conv_lhs => rw [hst.rest]
    have hlog' : Led s'.pair records := by
      rw [hpair]
      exact hstore
    have hj' : s'.journalFailed = false := by
      rw [hst.rest]
      exact hj
    have hv : s'.vsize = s.vsize := by rw [hst.rest]
    refine ⟨⟨J.inv hlog', hsmall, fun a ha hz => ?_, (fun hp => nomatch (J.healthy hlog').symm.trans hp), fun _ => ?_,
      fun _ x => ?_⟩, hj', hv⟩
    · have hend : s'.dataEndSector = d' := by rw [hst.rest]
      rw [hend]
      exact (h.ends a ha hz).trans hplan.bounds.2
    · rw [hv, hpair]
      exact h.vsize_eq (J.healthy hlog)
    · rw [show s'.segments = s.segments by rw [hst.rest]]
      exact h.map (.inl hj) x
  · simp only [kAlignment, kMaxMoffset]
    omega

/-- **One piece of a write** appends records of its range. -/
theorem pwritePiece_logged (J : LogRules Led Inv)
    (h : MapInv Inv s records) (hw : Wf s) (hj : s.journalFailed = false) (hlh : lo < hi) (hlen : hi - lo ≤ kMaxLength)
    (hoff : offset ≤ lo * kAlignment) (hhi : hi ≤ s.vsize / kAlignment) :
    wp (pwritePiece buf offset lo hi)
      (fun _ s' => s'.journalFailed = false ∧ s'.vsize = s.vsize ∧
        ∃ new, Confined lo hi new ∧ MapInv Inv s' (records ++ new))
      (fun _ s' => ∃ new, Confined lo hi new ∧ MapInv Inv s' (records ++ new)) s := by
  have hplan := hw.plan hlh.le
  unfold pwritePiece
  simp only [wp_bind, wp_gets, wp_modify, id]
  generalize planOps lo hi (s.segments.dropWhile fun m => decide (m.stop ≤ lo)) lo s.dataEndSector = plan at hplan ⊢
  obtain ⟨ops, d'⟩ := plan
  have hops : ∀ op ∈ ops, 0 < op.nsector ∧ offset ≤ op.voff * kAlignment := by
    intro op hop
    obtain ⟨h1, h2, -⟩ := hplan.mem_runs op.mapping (List.mem_map_of_mem hop)
    exact ⟨h2, hoff.trans (Nat.mul_le_mul_right _ h1)⟩
  have hinj := hplan.exclusive le_rfl (fun x p hp => (hw.backed x p hp).2.1) hw.exclusive
  have hnil : ∀ {s'}, MapInv Inv s' records → ∃ new, Confined lo hi new ∧ MapInv Inv s' (records ++ new) :=
    fun hs' => ⟨[], confined_nil lo hi, by rw [List.append_nil]; exact hs'⟩
  refine wp_mono (wp_and (writeOps_spec buf offset ops { s with dataEndSector := d' } hops hplan.ordered hinj)
    (writeOps_small ops h.small)) (fun _ s₁ h₁ => ?_)
    fun e s₁ h₁ => hnil (h.store J hw hj hplan h₁.1.2.1 h₁.1.2.2 h₁.2).1
  obtain ⟨⟨hst, hdone, hkeep, -⟩, hsmall⟩ := h₁
  obtain ⟨hinv, hj₁, hv₁⟩ := h.store J hw hj hplan hst hkeep hsmall
  refine (wp_ite _ _).mpr ⟨fun hall => ⟨hj₁, hv₁, hnil hinv⟩, fun _ => ?_⟩
  have hlog₁ := hinv.led J hj₁
  have hsegs : s₁.segments = s.segments := by rw [hst.rest]
  have hend : s₁.dataEndSector = d' := by rw [hst.rest]
  have hhi₁ : hi ≤ s₁.pair.header.virtualSize / kAlignment := by
    rw [← hinv.vsize_eq (J.healthy hlog₁), hv₁]
    exact hhi
  -- fresh payload is in the file
  have hstored : ∀ m ∈ freshRuns ops, m.moffset + m.length ≤ s₁.data.size / kAlignment := by
    intro m hm
    have hm' := (freshRuns_sublist ops).subset hm
    have hpos := (hplan.mem_runs m hm').2.1
    have hz : m.zeroed = false := by
      obtain ⟨op, -, rfl⟩ := List.mem_map.mp hm'
      rfl
    have hlast : resolve (runs ops) (m.offset + m.length - 1) = some (.data (m.moffset + m.length - 1)) := by
      rw [resolve, hplan.ordered.lookup_of_mem hm' (by simp only [covers_iff]; omega), place,
        if_neg (by rw [hz]; decide)]
      congr 2
      omega
    have := (hdone _ _ hlast).2.2
    rw [show m.moffset + m.length - 1 + 1 = m.moffset + m.length by omega] at this
    exact (Nat.le_div_iff_mul_le (by decide)).mpr this
  rw [wp_bind]
  refine wp_mono (publishOps_logged J hplan hlog₁ hlen hhi₁ hw.start h.ends hstored) (fun _ s₂ h₂ => ?_) fun e s₂ h₂ => ?_
  · obtain ⟨hlog₂, hs₂, hdata, hheader⟩ := h₂
    rw [wp_modify]
    have hsegs₂ : s₂.segments = s.segments := by rw [hs₂, hsegs]
    have hend₂ : s₂.dataEndSector = d' := by rw [hs₂, hend]
    have hv₂ : s₂.vsize = s.vsize := by rw [hs₂, hv₁]
    have hj₂ : s₂.journalFailed = false := by rw [hs₂, hj₁]
    obtain ⟨-, hr⟩ := replaceRuns_spec hw.index (hplan.indexWf hlen) hlh.le hplan.tiles
    refine ⟨hj₂, hv₂, freshRuns ops, hplan.confined, J.inv hlog₂, ?_, fun a ha hz => ?_,
      (fun hp => by cases (J.healthy hlog₂).symm.trans hp), fun _ => ?_, fun _ x => ?_⟩
    · show s₂.data.size ≤ 2 ^ 63
      rw [hdata]
      exact hsmall
    · show a.moffset + a.length ≤ s₂.dataEndSector
      rw [hend₂]
      rcases List.mem_append.mp ha with ha | ha
      · exact (h.ends a ha hz).trans hplan.bounds.2
      · exact hplan.fresh_le a ha
    · show s₂.vsize = s₂.pair.header.virtualSize
      rw [hv₂, hheader, ← hv₁]
      exact hinv.vsize_eq (J.healthy hlog₁)
    · -- published runs over the old map, and replaced runs in the old map
      show resolve ((runs ops).foldl insertSorted (eraseRange lo hi s₂.segments)) x = _
      rw [hsegs₂, hr x, logMap_append, foldl_assign_of_ordered (hplan.fresh_indexWf hlen).ordered,
        ← h.map (.inl hj) x, hplan.fresh_or x]
      by_cases hx : lo ≤ x ∧ x < hi
      · obtain ⟨p, hp, -⟩ := hplan.target hx.1 hx.2
        rw [if_pos hx, hp]
        rfl
      · rw [if_neg hx, hplan.unmapped hx]
        rfl
  · obtain ⟨⟨new, hconf, hpair, hnew, hjf⟩, hp, hg, hs₂, hdata, hheader⟩ := h₂
    refine ⟨new, hconf, hpair, ?_, fun a ha hz => ?_, hp, fun _ => ?_, fun hor x => ?_⟩
    · rw [hdata]
      exact hsmall
    · have hend₂ : s₂.dataEndSector = d' := by rw [hs₂, hend]
      rw [hend₂]
      rcases List.mem_append.mp ha with ha | ha
      · exact (h.ends a ha hz).trans hplan.bounds.2
      · exact hnew a ha hz
    · have hv₂ : s₂.vsize = s.vsize := by rw [hs₂, hv₁]
      rw [hv₂, hheader, ← hv₁]
      exact hinv.vsize_eq (J.healthy hlog₁)
    · have hj₂ : s₂.journalFailed = false := hor.resolve_right fun hr => by cases hg.symm.trans hr
      have hsegs₂ : s₂.segments = s.segments := by rw [hs₂, hsegs]
      rw [(hjf hj₂).1, List.append_nil, hsegs₂]
      exact h.map (.inl hj) x

/-! ### Whole operations -/

/-- The checks a mutation passes before it touches anything. -/
def Admits (s : LsmtRw) (offset count : ℕ) : Prop :=
  ¬ (s.sealed = true ∨ s.checkpointed = true) ∧
    ¬ (offset % kAlignment ≠ 0 ∨ count % kAlignment ≠ 0 ∨ count = 0) ∧ ¬ (s.vsize < offset ∨ s.vsize - offset < count)

/-- The layer as `prepare_mutation` leaves it. -/
def prepared (s : LsmtRw) : LsmtRw := (prepareMutation s).2

/-- **What a mutation of sectors `[lo, hi)` does to the log**: records of that range, behind the prepared log. -/
def Appends (Inv : FilePair → List SegmentMapping → Prop) (lo hi : ℕ) (s s' : LsmtRw) : Prop :=
  ∃ base new, MapInv Inv s.prepared base ∧ Confined lo hi new ∧ MapInv Inv s' (base ++ new)

/-- A mutation was refused at once, or went through preparation. -/
def Mutated (Inv : FilePair → List SegmentMapping → Prop) (offset count : ℕ) (s s' : LsmtRw) : Prop :=
  ¬ Admits s offset count ∧ s' = s ∨
    Admits s offset count ∧ Appends Inv (offset / kAlignment) (offset / kAlignment + count / kAlignment) s s'

/-- A state reached by a run, with the name of that run. -/
theorem wp_state {σ α : Type} (m : Eff σ α) (s : σ) : wp m (fun _ s' => s' = (m s).2) (fun _ s' => s' = (m s).2) s := by
  unfold wp
  rcases m s with ⟨e | a, s'⟩
  · rfl
  · rfl

/-- Preparation, with everything that is known of it. -/
theorem prepareMutation_all (J : LogRules Led Inv) (h : MapInv Inv s records) (hw : Wf s) :
    wp prepareMutation
      (fun _ s' => s' = s.prepared ∧ Wf s' ∧ s'.vsize = s.vsize ∧ s'.journalFailed = false ∧ ∃ base, MapInv Inv s' base)
      (fun _ s' => s' = s.prepared ∧ ∃ base, MapInv Inv s' base) s := by
  refine wp_mono (wp_and (wp_state prepareMutation s) (wp_and (respects_prepareMutation s) (prepareMutation_logged J h hw)))
    (fun _ s' h' => ?_) fun _ s' h' => ⟨h'.1, h'.2.2⟩
  obtain ⟨hs, hq, hj, hb⟩ := h'
  exact ⟨hs, (within_of_quiet 0 0 hq hw).1, hq.2.2.2.2.2, hj, hb⟩

/-- **`pwrite`** appends records of its range. -/
theorem pwrite_logged (J : LogRules Led Inv) {count : ℕ} (h : MapInv Inv s records) (hw : Wf s) :
    wp (pwrite buf count offset) (fun _ s' => s'.journalFailed = false ∧ Mutated Inv offset count s s')
      (fun _ s' => Mutated Inv offset count s s') s := by
  unfold pwrite
  simp only [wp_bind, wp_gets, wp_refuse, id]
  refine ⟨fun hn => .inl ⟨fun ha => ha.1 hn, rfl⟩, fun h1 => ⟨fun hn => .inl ⟨fun ha => ha.2.1 hn, rfl⟩, fun h2 =>
    ⟨fun hn => .inl ⟨fun ha => ha.2.2 hn, rfl⟩, fun h3 => ?_⟩⟩⟩
  have hadmits : Admits s offset count := ⟨h1, h2, h3⟩
  unfold Mutated
  set lo := offset / kAlignment with hlo
  set hi := lo + count / kAlignment with hhi
  have hoff : offset = lo * kAlignment := by
    simp only [kAlignment] at *
    omega
  have hmax : hi ≤ s.vsize / kAlignment := by
    simp only [kAlignment] at *
    omega
  refine wp_mono (prepareMutation_all J h hw) (fun _ s₀ h₀ => ?_) fun e s₀ h₀ => ?_
  swap
  · obtain ⟨rfl, base, hb⟩ := h₀
    exact .inr ⟨hadmits, base, [], hb, confined_nil lo hi, by rw [List.append_nil]; exact hb⟩
  obtain ⟨rfl, hw₀, hv₀, hj₀, base, hb⟩ := h₀
  rw [wp_bind]
  refine wp_mono (wp_each (fun rest s' => ∃ cur, Chopped hi cur rest ∧ lo ≤ cur ∧ Wf s' ∧ s'.vsize = s.vsize ∧
      s'.journalFailed = false ∧ ∃ new, Confined lo hi new ∧ MapInv Inv s' (base ++ new))
    (E := fun _ s' => ∃ new, Confined lo hi new ∧ MapInv Inv s' (base ++ new))
    (fun piece rest s' hI => ?_) _ ⟨lo, chopped_chop (Nat.le_add_right _ _), le_rfl, hw₀, hv₀, hj₀, [],
      confined_nil lo hi, by rw [List.append_nil]; exact hb⟩)
    (fun _ s₁ h₁ => ?_) fun e s₁ h₁ => ?_
  · -- one piece: its records go behind those of the pieces before
    obtain ⟨cur, hchop, hcur, hw', hv', hj', new, hconf, hinv⟩ := hI
    cases hchop with
    | @cons _ mid _ hlt hlen hrest =>
      have hle := hrest.le
      have hoff' : offset ≤ cur * kAlignment := hoff.le.trans (Nat.mul_le_mul_right _ hcur)
      refine wp_mono (wp_and (pwritePiece_spec hw' hlt hlen hoff')
        (pwritePiece_logged J hinv hw' hj' hlt hlen hoff' (by rw [hv']; omega))) (fun _ s₂ h₂ => ?_) fun e s₂ h₂ => ?_
      · obtain ⟨⟨⟨hw₂, -⟩, -⟩, hj₂, hv₂, more, hmore, hinv₂⟩ := h₂
        refine ⟨mid, hrest, by omega, hw₂, hv₂.trans hv', hj₂, new ++ more, hconf.append (hmore.mono hcur hle), ?_⟩
        rw [← List.append_assoc]
        exact hinv₂
      · obtain ⟨-, more, hmore, hinv₂⟩ := h₂
        refine ⟨new ++ more, hconf.append (hmore.mono hcur hle), ?_⟩
        rw [← List.append_assoc]
        exact hinv₂
  · obtain ⟨cur, -, -, -, -, hj₁, new, hconf, hinv⟩ := h₁
    rw [wp_bind, wp_modify, wp_pure]
    exact ⟨hj₁, .inr ⟨hadmits, base, new, hb, hconf, hinv.pair, hinv.small, hinv.ends, hinv.failed, hinv.vsize_eq,
      hinv.map⟩⟩
  · obtain ⟨new, hconf, hinv⟩ := h₁
    exact .inr ⟨hadmits, base, new, hb, hconf, hinv⟩

/-- **Publishing ZERO runs.** -/
theorem publishZeros_logged (J : LogRules Led Inv) {cur : ℕ} {pieces : List (ℕ × ℕ)}
    (h : Chopped hi cur pieces) (hlog : Led s.pair records) (hlo : lo ≤ cur)
    (hhi : hi ≤ s.pair.header.virtualSize / kAlignment) :
    wp (publishZeros lo pieces)
      (fun _ s' => Led s'.pair (records ++ pieces.map zeroRun) ∧ s' = { s with pair := s'.pair } ∧
        s'.data = s.data ∧ s'.pair.header = s.pair.header)
      (fun _ s' => (∃ new, Confined cur hi new ∧ Inv s'.pair (records ++ new) ∧ (∀ a ∈ new, a.zeroed = true) ∧
          (s'.journalFailed = false → new = [] ∧ cur = lo)) ∧
        (s'.pair.poisoned = true → s'.journalFailed = true) ∧ s'.pair.growthPending = false ∧
        s' = { s with pair := s'.pair, journalFailed := s'.journalFailed } ∧
        s'.data = s.data ∧ s'.pair.header = s.pair.header) s := by
  induction h generalizing s records with
  | nil =>
    refine ⟨?_, rfl, rfl, rfl⟩
    rw [List.map_nil, List.append_nil]
    exact hlog
  | @cons cur mid l hlt hlen rest ih =>
    have hle := rest.le
    set m : SegmentMapping := zeroRun (cur, mid) with hm
    have hstop : m.stop = mid := by
      show cur + (mid - cur) = mid
      omega
    have hwithin : Replay.Within (s.pair.header.virtualSize / kAlignment) (s.pair.disk.data.size / kAlignment) m :=
      ⟨by show 0 < mid - cur; omega, hlen, by omega, by rintro ⟨⟩⟩
    have hfits : m.Fits := by
      have h1 := J.capacity_le hlog
      have h3 : kMaxOffset < 2 ^ 50 := by decide
      have h4 : kMaxLength < 2 ^ 14 := by decide
      refine ⟨?_, ?_, ?_, ?_⟩
      · show cur < 2 ^ 50
        omega
      · show mid - cur < 2 ^ 14
        omega
      · show kDataStartSector < 2 ^ 55
        decide
      · show 0 < 2 ^ 8
        decide
    have hshare : ∀ a ∈ records, Replay.SharesNothing a m := by rintro a _ _ ⟨⟩
    have hconf : Confined cur hi [m] := fun a ha => by
      rw [List.mem_singleton.mp ha]
      exact ⟨le_rfl, by omega⟩
    unfold publishZeros
    rw [each, wp_bind, wp_onError, onPair, wp_zoom]
    refine wp_mono (J.append hlog hwithin hfits hshare) (fun _ p' hp' => ?_) fun _ p' hp' => ?_
    · obtain ⟨hlog', hdata, hheader⟩ := hp'
      have hhi' : hi ≤ p'.header.virtualSize / kAlignment := by
        rw [hheader]
        exact hhi
      refine wp_mono (ih (s := { s with pair := p' }) hlog' (by omega) hhi') (fun _ s' h' => ?_) fun _ s' h' => ?_
      · obtain ⟨h1, h2, h3, h4⟩ := h'
        refine ⟨?_, h2, h3.trans hdata, h4.trans hheader⟩
        rw [List.map_cons, ← List.singleton_append, ← List.append_assoc]
        exact h1
      · obtain ⟨⟨new, hconf', hinv, hzero, hj⟩, hp, hg, hs', hdata', hheader'⟩ := h'
        refine ⟨⟨[m] ++ new, hconf.append (hconf'.mono hlt.le le_rfl), ?_, fun a ha => ?_, fun hjf => ?_⟩,
          hp, hg, hs', hdata'.trans hdata, hheader'.trans hheader⟩
        · rw [← List.append_assoc]
          exact hinv
        · rcases List.mem_append.mp ha with ha | ha
          · rw [List.mem_singleton.mp ha]
            rfl
          · exact hzero a ha
        · have := (hj hjf).2
          omega
    · obtain ⟨⟨new, hnew, hinv⟩, hdata, hheader, hg⟩ := hp'
      refine ⟨⟨new, ?_, hinv, ?_, fun hjf => ?_⟩, fun hp => ?_, hg, rfl, hdata, hheader⟩
      · rcases hnew with rfl | ⟨rfl, -⟩
        · exact confined_nil cur hi
        · exact hconf
      · rcases hnew with rfl | ⟨rfl, -⟩
        · rintro a ⟨⟩
        · intro a ha
          rw [List.mem_singleton.mp ha]
          rfl
      · obtain ⟨h1, h2⟩ := Bool.or_eq_false_iff.mp hjf
        refine ⟨hnew.resolve_right fun hr => ?_, ?_⟩
        · cases h1.symm.trans hr.2
        · exact not_not.mp (of_decide_eq_false h2)
      · show (p'.poisoned || decide (cur ≠ lo)) = true
        rw [show p'.poisoned = true from hp]
        rfl

/-- **`discard`** appends records of its range. -/
theorem discard_logged (J : LogRules Led Inv) {len : ℕ} (h : MapInv Inv s records) (hw : Wf s) :
    wp (discard offset len) (fun _ s' => s'.journalFailed = false ∧ Mutated Inv offset len s s')
      (fun _ s' => Mutated Inv offset len s s') s := by
  unfold discard
  simp only [wp_bind, wp_gets, wp_refuse, id]
  refine ⟨fun hn => .inl ⟨fun ha => ha.1 hn, rfl⟩, fun h1 => ⟨fun hn => .inl ⟨fun ha => ha.2.1 hn, rfl⟩, fun h2 =>
    ⟨fun hn => .inl ⟨fun ha => ha.2.2 hn, rfl⟩, fun h3 => ?_⟩⟩⟩
  have hadmits : Admits s offset len := ⟨h1, h2, h3⟩
  unfold Mutated
  set lo := offset / kAlignment with hlo
  set hi := lo + len / kAlignment with hhi
  have hmax : hi ≤ s.vsize / kAlignment := by
    simp only [kAlignment] at *
    omega
  refine wp_mono (prepareMutation_all J h hw) (fun _ s₀ h₀ => ?_) fun e s₀ h₀ => ?_
  swap
  · obtain ⟨rfl, base, hb⟩ := h₀
    exact .inr ⟨hadmits, base, [], hb, confined_nil lo hi, by rw [List.append_nil]; exact hb⟩
  obtain ⟨rfl, hw₀, hv₀, hj₀, base, hb⟩ := h₀
  have hlog₀ := hb.led J hj₀
  have hchop : Chopped hi lo (chop lo hi) := chopped_chop (Nat.le_add_right _ _)
  have hhi₀ : hi ≤ s.prepared.pair.header.virtualSize / kAlignment := by
    rw [← hb.vsize_eq (J.healthy hlog₀), hv₀]
    exact hmax
  obtain ⟨hzwf, hzlo, hzero⟩ := zeroRuns_spec hchop
  simp only [wp_bind, wp_gets, id]
  refine wp_mono (publishZeros_logged J hchop hlog₀ le_rfl hhi₀) (fun _ s₁ h₁ => ?_) fun e s₁ h₁ => ?_
  · obtain ⟨hlog₁, hs₁, hdata, hheader⟩ := h₁
    rw [wp_bind, wp_modify, wp_pure]
    have hj₁ : s₁.journalFailed = false := by rw [hs₁, hj₀]
    have hend₁ : s₁.dataEndSector = s.prepared.dataEndSector := by rw [hs₁]
    have hv₁ : s₁.vsize = s.prepared.vsize := by rw [hs₁]
    have htile : ∀ x, (resolve ((chop lo hi).map zeroRun) x).isSome = true ↔ lo ≤ x ∧ x < hi := by
      intro x
      rw [hzero x]
      by_cases hx : lo ≤ x ∧ x < hi
      · simp [hx]
      · rw [if_neg hx]
        exact ⟨(by rintro ⟨⟩), fun h => absurd h hx⟩
    obtain ⟨-, hr⟩ := replaceRuns_spec hw₀.index hzwf (Nat.le_add_right lo (len / kAlignment)) htile
    refine ⟨hj₁, .inr ⟨hadmits, base, (chop lo hi).map zeroRun, hb, fun m hm => ⟨hzlo m hm, ?_⟩, J.inv hlog₁, ?_,
      fun a ha hz => ?_, (fun hp => by cases (J.healthy hlog₁).symm.trans hp), fun _ => ?_, fun _ x => ?_⟩⟩
    · -- the last sector of a ZERO run is in the range
      have hpos := hzwf.proper m hm
      simp only [lo_eq, hi_eq] at hpos
      have hlast : resolve ((chop lo hi).map zeroRun) (m.offset + m.length - 1) = some (m.place (m.offset + m.length - 1)) := by
        rw [resolve, hzwf.ordered.lookup_of_mem hm (by simp only [covers_iff]; omega)]
      rw [hzero] at hlast
      split_ifs at hlast with hx
      simp only [stop]
      omega
    · show s₁.data.size ≤ 2 ^ 63
      rw [hdata]
      exact hb.small
    · show a.moffset + a.length ≤ s₁.dataEndSector
      rw [hend₁]
      rcases List.mem_append.mp ha with ha | ha
      · exact hb.ends a ha hz
      · obtain ⟨piece, -, rfl⟩ := List.mem_map.mp ha
        cases hz
    · show s₁.vsize = s₁.pair.header.virtualSize
      rw [hv₁, hheader]
      exact hb.vsize_eq (J.healthy hlog₀)
    · show resolve (((chop lo hi).map zeroRun).foldl insertSorted (eraseRange lo hi s.prepared.segments)) x = _
      rw [hr x, logMap_append, foldl_assign_of_ordered hzwf.ordered, hzero x, ← hb.map (.inl hj₀) x]
      by_cases hx : lo ≤ x ∧ x < hi
      · rw [if_pos hx, if_pos hx]
        rfl
      · rw [if_neg hx, if_neg hx]
        rfl
  · obtain ⟨⟨new, hconf, hpair, hnew, hjf⟩, hp, hg, hs₁, hdata, hheader⟩ := h₁
    refine .inr ⟨hadmits, base, new, hb, hconf, hpair, ?_, fun a ha hz => ?_, hp, fun _ => ?_, fun hor x => ?_⟩
    · rw [hdata]
      exact hb.small
    · have hend₁ : s₁.dataEndSector = s.prepared.dataEndSector := by rw [hs₁]
      rw [hend₁]
      rcases List.mem_append.mp ha with ha | ha
      · exact hb.ends a ha hz
      · cases hz.symm.trans (hnew a ha)
    · have hv₁ : s₁.vsize = s.prepared.vsize := by rw [hs₁]
      rw [hv₁, hheader]
      exact hb.vsize_eq (J.healthy hlog₀)
    · have hj₁ : s₁.journalFailed = false := hor.resolve_right fun hr => by cases hg.symm.trans hr
      have hsegs : s₁.segments = s.prepared.segments := by rw [hs₁]
      rw [(hjf hj₁).1, List.append_nil, hsegs]
      exact hb.map (.inl hj₀) x

/-! ### Flush and grow -/

/-- **`flush`** keeps the log. -/
theorem flush_logged (J : LogRules Led Inv) (h : MapInv Inv s records) :
    wp flush (fun _ s' => s.journalFailed = false ∧ s'.segments = s.segments ∧ s'.pair.disk.index = s.pair.disk.index ∧
        s'.data = s.data ∧ s'.journalFailed = false ∧ MapInv Inv s' records)
      (fun _ s' => MapInv Inv s' records) s := by
  unfold flush
  simp only [wp_bind, wp_gets, wp_refuse, id]
  refine ⟨fun _ => h, fun hj => ?_⟩
  replace hj : s.journalFailed = false := Bool.eq_false_of_not_eq_true hj
  -- only the count of calls moves
  have hkeep : ∀ p', (Inv p' records ∧ ∃ t, p' = { s.pair with disk := { s.pair.disk with tick := t } }) →
      MapInv Inv { s with pair := p' } records := by
    rintro p' ⟨hp, t, rfl⟩
    exact ⟨hp, h.small, h.ends, h.failed, h.vsize_eq, h.map⟩
  have hsame : ∀ p', (Inv p' records ∧ ∃ t, p' = { s.pair with disk := { s.pair.disk with tick := t } }) →
      p'.disk.index = s.pair.disk.index ∧ p'.disk.data = s.pair.disk.data := by
    rintro p' ⟨-, t, rfl⟩
    exact ⟨rfl, rfl⟩
  have hrun : wp (if s.sealed = false then FilePair.flush else FilePair.sys Disk.call)
      (fun _ p' => Inv p' records ∧ ∃ t, p' = { s.pair with disk := { s.pair.disk with tick := t } })
      (fun _ p' => Inv p' records ∧ ∃ t, p' = { s.pair with disk := { s.pair.disk with tick := t } }) s.pair := by
    refine (wp_ite _ _).mpr ⟨fun _ => J.flush h.pair, fun _ => ?_⟩
    have hlog := h.led J hj
    exact wp_sys_call ⟨J.inv (J.passed hlog), _, rfl⟩ fun _ _ => ⟨J.inv (J.passed hlog), _, rfl⟩
  rw [onPair, wp_zoom]
  exact wp_mono hrun (fun _ p' hp => ⟨hj, rfl, (hsame p' hp).1, (hsame p' hp).2, hj, hkeep p' hp⟩)
    fun _ p' hp => hkeep p' hp

/-- **`grow`** keeps the log. -/
theorem grow_logged (J : LogRules Led Inv) {v : ℕ} (h : MapInv Inv s records) :
    wp (grow v) (fun _ s' => s'.journalFailed = false ∧ MapInv Inv s' records) (fun _ s' => MapInv Inv s' records) s := by
  unfold grow
  simp only [wp_bind, wp_gets, wp_refuse, wp_onError, id]
  refine ⟨fun _ => h, fun _ => ⟨fun _ => h, fun hrefuse => ?_⟩⟩
  have hmap : ∀ x, resolve s.segments x = logMap records x := by
    refine h.map ?_
    cases hj : s.journalFailed with
    | false => exact .inl rfl
    | true =>
      refine .inr ?_
      cases hg : s.pair.growthPending with
      | true => rfl
      | false => exact absurd ⟨hj, hg⟩ hrefuse
  have hsize : kSpace ≤ s.pair.disk.data.size := J.data_ge h.pair
  have hsmall : ∀ p', headersOnly.rel s.pair p' → p'.disk.data.size ≤ 2 ^ 63 := by
    intro p' hrel
    rw [hrel.1 hsize]
    exact h.small
  have hlogged : ∀ p', headersOnly.rel s.pair p' → Led p' records →
      (adoptGrow { s with pair := p' }).journalFailed = false ∧ MapInv Inv (adoptGrow { s with pair := p' }) records := by
    intro p' hrel hl
    have hadopt : adoptGrow { s with pair := p' }
        = { s with pair := p', vsize := p'.header.virtualSize, journalFailed := false } := if_pos (J.healthy hl)
    rw [hadopt]
    exact ⟨rfl, J.inv hl, hsmall p' hrel, h.ends, (fun hp => nomatch (J.healthy hl).symm.trans hp), fun _ => rfl, fun _ => hmap⟩
  have hsuspended : ∀ p', headersOnly.rel s.pair p' → Inv p' records → p'.poisoned = true → p'.growthPending = true →
      MapInv Inv (adoptGrow { s with pair := p' }) records := by
    intro p' hrel hi hp hg
    have hadopt : adoptGrow { s with pair := p' } = { s with pair := p', journalFailed := true } := by
      unfold adoptGrow
      rw [if_neg (by rw [hp]; decide), if_pos hg]
    rw [hadopt]
    exact ⟨hi, hsmall p' hrel, h.ends, fun _ => rfl, (fun hh => nomatch hp.symm.trans hh), fun _ => hmap⟩
  rw [onPair, wp_zoom]
  refine wp_mono (J.grow h.pair v) (fun _ p' hp => hlogged p' hp.1 hp.2) fun _ p' hp => ?_
  rcases hp.2 with rfl | hl | ⟨hi, hpo, hg⟩
  · cases hpo : s.pair.poisoned with
    | false => exact (hlogged _ hp.1 (J.led h.pair hpo)).2
    | true =>
      cases hg : s.pair.growthPending with
      | true => exact hsuspended _ hp.1 h.pair hpo hg
      | false =>
        have hadopt : adoptGrow s = s := by
          unfold adoptGrow
          rw [if_neg (by rw [hpo]; decide), if_neg (by rw [hg]; decide)]
        show MapInv Inv (adoptGrow s) records
        rw [hadopt]
        exact h
  · exact (hlogged p' hp.1 hl).2
  · exact hsuspended p' hp.1 hi hpo hg

end Rules

/-! ### Creating and opening -/

/-- A pair that opened with its whole log. -/
theorem logInv_of_opens {d : Disk} {header : HeaderTrailer} {records : List SegmentMapping} {p : FilePair}
    (h : Opens d header records p) (hsmall : d.data.size ≤ 2 ^ 63) : LogInv (fromPair p) records := by
  have hlog := h.logged
  refine ⟨.logged hlog, ?_, fun a ha hz => ?_, (fun hp => nomatch hlog.healthy.symm.trans hp), fun _ => rfl,
    fun _ x => ?_⟩
  · show p.disk.data.size ≤ 2 ^ 63
    rw [h.size]
    simp only [roundUp, kAlignment]
    omega
  · have hback := ((hlog.onDisk.replays.within a ha).backed hz).2
    rw [h.size, ← h.dataBytes] at hback
    exact hback
  · show resolve p.mappings x = _
    rw [h.mappings]
    exact (Replay.liveOf_spec hlog.onDisk.replays.lengths).2 x

/-- The directory of a new pair. -/
theorem logOn_newDisk {virtualSize : ℕ} {uuid data index : List UInt8} (faults : ℕ → Option Fault)
    (hp : PairHeader (dataHeader virtualSize uuid)) (hdata : (dataHeader virtualSize uuid).serialize = some data)
    (hindex : (indexHeader (dataHeader virtualSize uuid)).serialize = some index) :
    LogOn (newDisk data index faults) (dataHeader virtualSize uuid) [] := by
  have hds : (newDisk data index faults).data.size = kSpace := size_region hdata
  have his : (newDisk data index faults).index.size = kSpace := size_region hindex
  refine ⟨⟨hds.ge, ?_, rfl, his.ge, his.trans_lt (by decide), Replay.replays_nil, List.Pairwise.nil⟩, hp, ?_, ?_, rfl⟩
  · rw [hds]
    decide
  · rw [newDisk, read_region hdata]
    exact hdata
  · rw [newDisk, read_region hindex]
    exact hindex

/-- Creation is an open of two fresh files. -/
theorem create_eq_ok {vsize : ℕ} {uuid : List UInt8} {faults : ℕ → Option Fault} {s : LsmtRw}
    (h : create vsize uuid faults = .ok s) : ∃ data index n p,
      validatePair (dataHeader vsize uuid) (indexHeader (dataHeader vsize uuid)) kSpace kSpace = some n ∧
      (dataHeader vsize uuid).serialize = some data ∧ (indexHeader (dataHeader vsize uuid)).serialize = some index ∧
      openSync (newDisk data index faults) = .ok p ∧ s = fromPair p := by
  unfold create createSync at h
  dsimp only at h
  split at h
  · next n data index hvalid hdata hindex =>
    rcases ho : openSync (newDisk data index faults) with e | p
    · rw [ho] at h
      cases h
    · rw [ho] at h
      exact ⟨data, index, n, p, hvalid, hdata, hindex, ho, (Except.ok.inj h).symm⟩
  · cases h

/-- **Creation** starts with an empty log. -/
theorem logInv_create {vsize : ℕ} {uuid : List UInt8} {faults : ℕ → Option Fault} {s : LsmtRw}
    (h : create vsize uuid faults = .ok s) : LogInv s [] ∧ Wf s := by
  obtain ⟨data, index, n, p, hvalid, hdata, hindex, ho, rfl⟩ := create_eq_ok h
  have hp : PairHeader (dataHeader vsize uuid) := by
    unfold validatePair at hvalid
    split_ifs at hvalid with h1 h2 h3 h4 h5
    simp only [dataHeader] at h2 h3
    exact pairHeader_dataHeader (by simpa using fun hu => h2 (.inl hu)) (by omega) (by omega) (by omega)
  have hlog := logOn_newDisk faults hp hdata hindex
  have hsmall : (newDisk data index faults).data.size ≤ 2 ^ 63 := (size_region hdata).trans_le (by decide)
  exact ⟨logInv_of_opens (of_openSync (openBody_of_log hlog hsmall) ho) hsmall, wf_fromPair (opened_of_openSync ho)⟩

/-- The same files, met by other faults. -/
def rebooted (d : Disk) (faults : ℕ → Option Fault) : Disk := { d with faults := faults, tick := 0 }

/-- **Opening again** finds the whole log and the payload. -/
theorem opens_reopen {s : LsmtRw} {records : List SegmentMapping} (h : LogInv s records) {faults : ℕ → Option Fault}
    {p : FilePair} (ho : openSync (rebooted s.pair.disk faults) = .ok p) :
    ∃ header, Opens (rebooted s.pair.disk faults) header records p := by
  have hsmall : (rebooted s.pair.disk faults).data.size ≤ 2 ^ 63 := h.small
  have hlogged : ∀ {header}, LogOn s.pair.disk header records →
      ∃ header, Opens (rebooted s.pair.disk faults) header records p := by
    intro header hl
    have hl' : LogOn (rebooted s.pair.disk faults) header records :=
      ⟨hl.toBody.front rfl rfl fun _ _ => rfl, hl.valid, hl.dataRegion, hl.indexRegion, hl.intent⟩
    exact ⟨header, of_openSync (openBody_of_log hl' hsmall) ho⟩
  cases h.pair with
  | logged hl => exact hlogged hl.onDisk
  | broken hl _ _ => exact hlogged hl
  | suspended hs =>
    rcases hs.onDisk with hl | ⟨header, v, hg⟩
    · exact hlogged hl
    · have hg' : Growing (rebooted s.pair.disk faults) header v records :=
        ⟨hg.toBody.front rfl rfl fun _ _ => rfl, hg.valid, hg.target, hg.grows, hg.dataRegion, hg.indexRegion, hg.intent⟩
      exact ⟨_, of_openSync (openBody_of_growing hg' hsmall) ho⟩

/-- What was opened again is a layer with the same log. -/
theorem logInv_reopen {s : LsmtRw} {records : List SegmentMapping} (h : LogInv s records) {faults : ℕ → Option Fault}
    {p : FilePair} (ho : openSync (rebooted s.pair.disk faults) = .ok p) : LogInv (fromPair p) records ∧ Wf (fromPair p) := by
  obtain ⟨header, hopens⟩ := opens_reopen h ho
  exact ⟨logInv_of_opens hopens h.small, wf_fromPair (opened_of_openSync ho)⟩

end LsmtRw

end OverlayBD
