import OverlayBD.Format.LsmtRecovery

/-!
# Failed payload writes

A payload write that fails may leave any number of its bytes at the end of the data file.  Nothing maps them, and the
layer stays healthy.  Four later paths look at the size of that file: `append` does not, `open_sync` cuts it down to whole
sectors before it checks anything, but `compact_sync` and `grow` hand the size as it is to checks that want whole sectors.

## The model

* `PayloadFails` — a `pwrite` whose payload write fails in one of its pieces, the pieces before it published.
* `calm` — the layer as it is, its system calls succeeding from here on.
* `Survives` — what is promised of a healthy layer: every operation is accepted, or refused for a limit of the format, and
  the pair opens again.

## What is proved

* `payload_failure` — the failure is reported, the map is that of the pieces published, other sectors keep their bytes; and
  the layer survives if and only if the file was left with whole sectors, the map is within the limit of an index, and the
  payload does not end like a sealed layer.
* `residue_refused` — a failed write of 100 bytes, and the layer cannot grow.
-/

namespace OverlayBD

open Intervals SegmentMapping Bytes Errno Effect FilePair

namespace LsmtRw

/-! ### A failed write -/

/-- The payload writes of a piece, and the append position behind them. -/
def plan (s : LsmtRw) (lo hi : ℕ) : List WriteOp × ℕ :=
  planOps lo hi (s.segments.dropWhile fun m => decide (m.stop ≤ lo)) lo s.dataEndSector

/-- **The payload write fails**: the pieces in front are published, `s₁` is the layer then. -/
structure PayloadFails (buf : Buf) (count offset : ℕ) (e : ℤ) (s s₁ s' : LsmtRw) : Prop where
  admits : Admits s offset count
  fails : ∃ s₀, prepareMutation s = (.ok (), s₀) ∧ ∃ before lo hi after,
    chop (offset / kAlignment) (offset / kAlignment + count / kAlignment) = before ++ (lo, hi) :: after ∧
    each before (fun piece => pwritePiece buf offset piece.1 piece.2) s₀ = (.ok (), s₁) ∧
    each (s₁.plan lo hi).1 (writeOp buf offset) { s₁ with dataEndSector := (s₁.plan lo hi).2 } = (.error e, s')

/-- Payload writes move neither the map nor the flags. -/
def payloadOnly : Guarantee LsmtRw where
  rel s s' := s'.segments = s.segments ∧ s'.journalFailed = s.journalFailed
  refl _ := ⟨rfl, rfl⟩
  trans h h' := ⟨h'.1.trans h.1, h'.2.trans h.2⟩

theorem payloadOnly_writeOp (buf : Buf) (offset : ℕ) (op : WriteOp) : Respects payloadOnly (writeOp buf offset op) := by
  intro s
  unfold writeOp onPair FilePair.sys
  simp only [wp_bind, wp_zoom, wp_modify]
  unfold wp Disk.write
  cases s.pair.disk.faults s.pair.disk.tick with
  | some f => exact ⟨f.pos, rfl, rfl⟩
  | none =>
    by_cases hbig : kMaxFileSize < op.moff * kAlignment + op.nsector * kAlignment
    · simp only [if_pos hbig]
      exact ⟨by simp [efbig], rfl, rfl⟩
    · simp only [if_neg hbig]
      exact ⟨rfl, rfl⟩

/-- Publication that succeeds leaves the flag alone. -/
theorem publishOps_journalFailed (ops : List WriteOp) (published : Bool) (s : LsmtRw) :
    wp (publishOps ops published) (fun _ s' => s'.journalFailed = s.journalFailed) (fun _ _ => True) s := by
  induction ops generalizing s published with
  | nil => rfl
  | cons op ops ih =>
    rw [publishOps]
    refine (wp_ite _ _).mpr ⟨fun _ => ih published s, fun _ => ?_⟩
    rw [wp_bind, wp_onError, onPair, wp_zoom]
    exact wp_mono wp_trivial (fun _ p' _ => ih true { s with pair := p' }) fun _ _ _ => trivial

theorem pwritePiece_journalFailed (buf : Buf) (offset lo hi : ℕ) (s : LsmtRw) :
    wp (pwritePiece buf offset lo hi) (fun _ s' => s'.journalFailed = s.journalFailed) (fun _ _ => True) s := by
  unfold pwritePiece
  rw [wp_bind, wp_gets, wp_bind, wp_modify, wp_bind]
  refine wp_mono (respects_each (payloadOnly_writeOp buf offset) _ _) (fun _ s₁ h₁ => ?_) fun _ _ _ => trivial
  refine (wp_ite _ _).mpr ⟨fun _ => h₁.2, fun _ => ?_⟩
  rw [wp_bind]
  refine wp_mono (publishOps_journalFailed _ _ s₁) (fun _ s₂ h₂ => ?_) fun _ _ _ => trivial
  exact h₂.trans h₁.2

section Fails

variable {buf : Buf} {count offset : ℕ} {e : ℤ} {s s₁ s' : LsmtRw}

/-- **The failure is reported.** -/
theorem PayloadFails.run (h : PayloadFails buf count offset e s s₁ s') :
    LsmtRw.pwrite buf count offset s = (.error e, s') := by
  obtain ⟨⟨h1, h2, h3⟩, s₀, hprep, before, lo, hi, after, hchop, hbefore, hfail⟩ := h
  refine eq_error_state_of_wp ?_
  unfold LsmtRw.pwrite
  rw [wp_bind, wp_gets, id_eq, wp_bind, wp_refuse_of_not h1, wp_bind, wp_refuse_of_not h2, wp_bind, wp_refuse_of_not h3,
    wp_bind, wp_of_eq hprep, wp_bind, hchop, wp_each_append]
  refine (wp_of_eq hbefore).mpr ?_
  rw [each, wp_bind]
  show wp (pwritePiece buf offset lo hi) _ _ s₁
  unfold pwritePiece
  rw [wp_bind, wp_gets, wp_bind, wp_modify, wp_bind]
  exact (wp_of_error hfail).mpr ⟨rfl, rfl⟩

/-- The layer is healthy, and its map is that of the pieces in front. -/
theorem PayloadFails.kept (h : PayloadFails buf count offset e s s₁ s') :
    s'.segments = s₁.segments ∧ s'.journalFailed = false := by
  obtain ⟨-, s₀, hprep, before, lo, hi, after, -, hbefore, hfail⟩ := h
  have hj₀ : s₀.journalFailed = false := by
    have hwp : wp prepareMutation (fun _ s' => s'.journalFailed = false) (fun _ _ => True) s := by
      unfold prepareMutation
      rw [wp_bind, wp_gets, wp_bind, wp_refuse]
      refine ⟨fun _ => trivial, fun hj => ?_⟩
      have hj' : s.journalFailed = false := Bool.eq_false_of_not_eq_true hj
      rw [wp_onlyIf, onPair, wp_zoom]
      exact ⟨fun _ => wp_mono wp_trivial (fun _ _ _ => hj') fun _ _ _ => trivial, fun _ => hj'⟩
    rw [wp_of_eq hprep] at hwp
    exact hwp
  have hj₁ : s₁.journalFailed = false := by
    have hwp := wp_each (f := fun piece => pwritePiece buf offset piece.1 piece.2) (s := s₀)
      (fun _ (s : LsmtRw) => s.journalFailed = false)
      (fun piece _ s hs => wp_mono (pwritePiece_journalFailed buf offset piece.1 piece.2 s) (fun _ _ h' => h'.trans hs)
        fun _ _ h' => h') before hj₀
    rw [wp_of_eq hbefore] at hwp
    exact hwp
  have hrel := respects_each (payloadOnly_writeOp buf offset) (s₁.plan lo hi).1 { s₁ with dataEndSector := (s₁.plan lo hi).2 }
  rw [wp_of_error hfail] at hrel
  exact ⟨hrel.2.1, hrel.2.2.trans hj₁⟩

end Fails

end LsmtRw

/-! ### Calls that succeed -/

namespace FilePair

/-- No call will fail, and none did for good. -/
structure Calm (p : FilePair) : Prop where
  faults : ∀ n, p.disk.faults n = none
  healthy : p.poisoned = false

theorem Calm.passed {p : FilePair} (h : Calm p) : Calm { p with disk := p.disk.passed } := ⟨h.faults, h.healthy⟩

variable {p : FilePair} {records : List SegmentMapping}

/-- A write is complete, or behind the largest size. -/
theorem calm_write (h : Calm p) (a : Artifact) (off n : ℕ) (src : Buf) :
    wp (sys (Disk.write a off n src)) (fun _ p' => Calm p') (fun e _ => e = efbig) p := by
  rw [sys, wp_zoom]
  unfold wp Disk.write
  rw [h.faults]
  by_cases hbig : kMaxFileSize < off + n
  · simp only [if_pos hbig]
  · simp only [if_neg hbig]
    cases a with
    | data => exact ⟨h.faults, h.healthy⟩
    | index => exact ⟨h.faults, h.healthy⟩

/-- A record is published, or over a limit. -/
theorem calm_append (h : Calm p) (m : SegmentMapping) :
    wp (append m) (fun _ p' => Calm p') (fun e _ => e = efbig) p := by
  unfold append
  rw [wp_bind, wp_gets, wp_bind, wp_refuse_of_not (by rw [id_eq, h.healthy]; decide), wp_bind, wp_refuse]
  refine ⟨fun _ => rfl, fun _ => ?_⟩
  rw [wp_bind, wp_refuse]
  refine ⟨fun _ => rfl, fun _ => ?_⟩
  rw [wp_bind, wp_onError]
  refine wp_mono (calm_write h _ _ _ _) (fun _ p' h' => ?_) fun _ _ he => he
  exact ⟨h'.faults, h'.healthy⟩

/-- **Compaction needs whole sectors, and no more than an index holds.** -/
theorem calm_compact {live : List SegmentMapping} (hc : Calm p) (h : Logged p records) (hw : IndexWf live)
    (hx : SectorMap.Exclusive (resolve live))
    (hin : ∀ m ∈ live, Replay.Within (p.header.virtualSize / kAlignment) (p.disk.data.size / kAlignment) m)
    (hal : p.disk.data.size % kAlignment = 0) (hlen : live.length ≤ kMaxRoIndexSize) :
    wp (compactSync live) (fun _ p' => Calm p') (fun _ _ => False) p := by
  have hd := h.onDisk
  obtain ⟨hreplays, hdistinct⟩ := replays_retag hw hx hin hd.data_lt hlen
  have hcap := hd.valid.capacity_le
  -- the check of the new log succeeds
  have hstart : Replay.start p.header.virtualSize p.disk.data.size
      = some ⟨p.header.virtualSize / kAlignment, p.disk.data.size / kAlignment, 0, []⟩ := by
    have h1 := hd.valid.capacity_pos
    have h2 := hd.valid.capacity_aligned
    have h3 := hd.data_ge
    have h4 := hd.data_lt
    rw [Replay.start, if_neg (by omega)]
  have hfold := hreplays.fold hcap
  rw [← map_reload hin hcap] at hfold
  have hcheck := replayLive_of_fold hw.ordered hfold
  obtain ⟨hwf, hres⟩ := Replay.liveOf_spec hreplays.lengths
  rw [map_reload hin hcap] at hcheck
  have hfinish : Replay.finish ⟨p.header.virtualSize / kAlignment, p.disk.data.size / kAlignment,
      (live.map retag).length, Replay.liveOf (live.map retag)⟩ = some (Replay.liveOf (live.map retag)) := by
    refine (Replay.finish_iff (r := ⟨_, _, _, Replay.liveOf (live.map retag)⟩) hwf).mpr ?_
    rw [show resolve (Replay.liveOf (live.map retag)) = logMap (live.map retag) from funext hres]
    exact Replay.exclusive_logMap hdistinct
  unfold compactSync
  rw [wp_bind, wp_gets, id_eq, wp_bind, wp_refuse_of_not (by rw [hc.healthy]; decide), wp_bind,
    wp_refuse_of_not (Nat.not_lt.mpr hlen), wp_bind]
  refine wp_sys_call_ok (hc.faults _) ?_
  rw [wp_bind, wp_need_some hstart, wp_bind, wp_need_some (by rw [hcheck]; exact hfinish), wp_bind]
  refine wp_sys_call_ok (hc.faults _) ?_
  rw [wp_bind, wp_need_some (HeaderTrailer.serialize_of_fits hd.valid.fits_index), wp_bind]
  refine wp_sys_call_ok (hc.faults _) ?_
  rw [wp_bind]
  refine wp_sys_call_ok (hc.faults _) ?_
  rw [wp_bind, wp_modify]
  exact wp_sys_call_ok (hc.faults _) ⟨hc.faults, hc.healthy⟩

/-- Compaction of a file with part of a sector. -/
theorem compact_refused {live : List SegmentMapping} (h : ¬ (p.disk.data.size % kAlignment = 0 ∧
    live.length ≤ kMaxRoIndexSize)) : wp (compactSync live) (fun _ _ => False) (fun _ _ => True) p := by
  unfold compactSync
  rw [wp_bind, wp_gets, wp_bind, wp_refuse]
  refine ⟨fun _ => trivial, fun _ => ?_⟩
  rw [wp_bind, wp_refuse]
  refine ⟨fun _ => trivial, fun hlen => ?_⟩
  rw [wp_bind]
  refine wp_sys_call ?_ fun _ _ => trivial
  rw [wp_bind, wp_need]
  refine ⟨fun r hr => ?_, fun _ => trivial⟩
  unfold Replay.start at hr
  split_ifs at hr with hbad
  simp only [not_or, not_not] at hbad
  exact absurd ⟨hbad.2.2.2.2.1, Nat.le_of_not_lt hlen⟩ h

/-- **Growing needs whole sectors.** -/
theorem calm_grow {v : ℕ} (hc : Calm p) (h : Logged p records) (h0 : v ≠ 0) (ha : v % kAlignment = 0)
    (hm : v / kAlignment ≤ kMaxOffset) (hge : p.header.virtualSize ≤ v) (hal : p.disk.data.size % kAlignment = 0) :
    wp (grow v) (fun _ _ => True) (fun _ _ => False) p := by
  have hd := h.onDisk
  unfold grow
  rw [wp_bind, wp_gets, id_eq, wp_bind, wp_refuse_of_not (by simp [hc.healthy]), wp_bind, wp_onlyIf]
  refine ⟨(fun hbad => nomatch h.settled.symm.trans hbad), fun _ => ?_⟩
  rw [wp_bind, wp_gets, id_eq]
  unfold publishGrow
  rw [wp_bind, wp_refuse_of_not (by omega), wp_ite]
  refine ⟨fun _ => trivial, fun hne => ?_⟩
  have htarget : PairHeader (p.header.withCapacity v) := pairHeader_withCapacity hd.valid h0 ha hm
  obtain ⟨raw, hraw⟩ := exists_growIntent h htarget hal
  obtain ⟨data, index, hdata, hindex, rfl⟩ := growIntent_eq h htarget hraw
  rw [wp_bind, wp_need_some hraw, wp_bind]
  refine wp_sys_call_ok (hc.faults _) ?_
  rw [wp_bind, wp_refuse_of_not (by rw [hd.intent]; simp), wp_bind]
  refine wp_sys_call_ok (hc.faults _) ?_
  rw [wp_bind, wp_modify, wp_bind]
  refine wp_sys_call_ok (hc.faults _) ?_
  refine wp_mono (@recoverGrow_faults _ records v p.header ?_) (fun _ _ h' => h') fun _ _ h' => ?_
  · exact ⟨hd.toBody.front rfl rfl fun _ _ => rfl, hd.valid, htarget, by omega, tornRegion_old v hd.dataRegion,
      tornRegion_old v hd.indexRegion, data, index, hdata, hindex, rfl⟩
  · obtain ⟨n, hn⟩ := h'
    exact hn (hc.faults n)

end FilePair

namespace LsmtRw

/-- The layer as it is, its system calls succeeding from here on. -/
def calm (s : LsmtRw) : LsmtRw := { s with pair := { s.pair with disk := rebooted s.pair.disk fun _ => none } }

/-- A run succeeds, unless it is over a limit of the format. -/
def Accepted {α : Type} (m : Eff LsmtRw α) (s : LsmtRw) : Prop :=
  wp m (fun _ _ => True) (fun e _ => e = efbig) s

/-- A capacity the layer may grow to. -/
def GrowsTo (s : LsmtRw) (v : ℕ) : Prop :=
  ¬ (s.sealed = true ∨ s.checkpointed = true) ∧ v ≠ 0 ∧ v % kAlignment = 0 ∧ v / kAlignment ≤ kMaxOffset ∧ s.vsize ≤ v

/-- **The layer goes on.** -/
structure Survives (s : LsmtRw) : Prop where
  pwrite : ∀ buf count offset, Admits s offset count → Accepted (LsmtRw.pwrite buf count offset) s.calm
  discard : ∀ offset len, Admits s offset len → Accepted (LsmtRw.discard offset len) s.calm
  compact : ∃ p, compactSync s.segments s.calm.pair = (.ok (), p)
  grow : ∀ v, GrowsTo s v → ∃ t, LsmtRw.grow v s.calm = (.ok 0, t)
  reopen : ∃ p, openSync s.calm.pair.disk = .ok p

/-! ### Operations of a calm layer -/

theorem calm_writeOp {s : LsmtRw} (h : Calm s.pair) (buf : Buf) (offset : ℕ) (op : WriteOp) :
    wp (writeOp buf offset op) (fun _ s' => Calm s'.pair) (fun e _ => e = efbig) s := by
  unfold writeOp onPair
  rw [wp_bind, wp_zoom]
  exact wp_mono (calm_write h _ _ _ _) (fun _ _ h' => h') fun _ _ he => he

theorem calm_publishOps {s : LsmtRw} (h : Calm s.pair) (ops : List WriteOp) (published : Bool) :
    wp (publishOps ops published) (fun _ s' => Calm s'.pair) (fun e _ => e = efbig) s := by
  induction ops generalizing s published with
  | nil => exact h
  | cons op ops ih =>
    rw [publishOps]
    refine (wp_ite _ _).mpr ⟨fun _ => ih h published, fun _ => ?_⟩
    rw [wp_bind, wp_onError, onPair, wp_zoom]
    exact wp_mono (calm_append h _) (fun _ p' h' => ih (s := { s with pair := p' }) h' true) fun _ _ he => he

theorem calm_pwritePiece {s : LsmtRw} (h : Calm s.pair) (buf : Buf) (offset lo hi : ℕ) :
    wp (pwritePiece buf offset lo hi) (fun _ s' => Calm s'.pair) (fun e _ => e = efbig) s := by
  unfold pwritePiece
  rw [wp_bind, wp_gets, wp_bind, wp_modify, wp_bind]
  refine wp_mono (wp_each (fun _ (s : LsmtRw) => Calm s.pair) (fun op _ s hs => calm_writeOp hs buf offset op) _ h)
    (fun _ s₁ h₁ => ?_) fun _ _ he => he
  refine (wp_ite _ _).mpr ⟨fun _ => h₁, fun _ => ?_⟩
  rw [wp_bind]
  exact wp_mono (calm_publishOps h₁ _ _) (fun _ s₂ h₂ => h₂) fun _ _ he => he

section Calm

variable {s : LsmtRw} {records : List SegmentMapping}

/-- Preparation of a layer with whole sectors. -/
theorem calm_prepare (hc : Calm s.pair) (h : LogInv s records) (hw : Wf s) (hj : s.journalFailed = false)
    (hal : s.data.size % kAlignment = 0) (hlen : s.segments.length ≤ kMaxRoIndexSize) :
    wp prepareMutation (fun _ s' => Calm s'.pair) (fun _ _ => False) s := by
  have hlog := h.led logRules hj
  have hin := within_of_map hw.index (h.map (.inl hj)) hlog.onDisk.replays.within
  unfold prepareMutation
  rw [wp_bind, wp_gets, id_eq, wp_bind, wp_refuse_of_not (by rw [hj]; decide), wp_onlyIf]
  refine ⟨fun _ => ?_, fun _ => hc⟩
  rw [onPair, wp_zoom]
  exact calm_compact hc hlog hw.index hw.exclusive hin hal hlen

theorem calm_pwrite (hc : Calm s.pair) (h : LogInv s records) (hw : Wf s) (hj : s.journalFailed = false)
    (hal : s.data.size % kAlignment = 0) (hlen : s.segments.length ≤ kMaxRoIndexSize) {buf : Buf} {count offset : ℕ}
    (ha : Admits s offset count) : Accepted (LsmtRw.pwrite buf count offset) s := by
  obtain ⟨h1, h2, h3⟩ := ha
  unfold Accepted LsmtRw.pwrite
  rw [wp_bind, wp_gets, id_eq, wp_bind, wp_refuse_of_not h1, wp_bind, wp_refuse_of_not h2, wp_bind, wp_refuse_of_not h3,
    wp_bind]
  refine wp_mono (calm_prepare hc h hw hj hal hlen) (fun _ s₀ h₀ => ?_) fun _ _ he => he.elim
  rw [wp_bind]
  refine wp_mono (wp_each (fun _ (s : LsmtRw) => Calm s.pair)
    (fun piece _ s hs => calm_pwritePiece hs buf offset piece.1 piece.2) _ h₀) (fun _ s₁ _ => trivial) fun _ _ he => he

theorem calm_discard (hc : Calm s.pair) (h : LogInv s records) (hw : Wf s) (hj : s.journalFailed = false)
    (hal : s.data.size % kAlignment = 0) (hlen : s.segments.length ≤ kMaxRoIndexSize) {offset len : ℕ}
    (ha : Admits s offset len) : Accepted (LsmtRw.discard offset len) s := by
  obtain ⟨h1, h2, h3⟩ := ha
  unfold Accepted LsmtRw.discard
  rw [wp_bind, wp_gets, id_eq, wp_bind, wp_refuse_of_not h1, wp_bind, wp_refuse_of_not h2, wp_bind, wp_refuse_of_not h3,
    wp_bind]
  refine wp_mono (calm_prepare hc h hw hj hal hlen) (fun _ s₀ h₀ => ?_) fun _ _ he => he.elim
  unfold publishZeros
  rw [wp_bind, wp_gets, wp_bind]
  refine wp_mono (wp_each (fun _ (s : LsmtRw) => Calm s.pair) (fun piece _ s hs => ?_) _ h₀) (fun _ s₁ _ => trivial)
    fun _ _ he => he
  rw [wp_onError, onPair, wp_zoom]
  exact wp_mono (calm_append hs _) (fun _ _ h' => h') fun _ _ he => he

end Calm

/-- The files of a calm layer are those of the layer. -/
theorem calm_inv {s : LsmtRw} {records : List SegmentMapping} (h : LogInv s records) (hw : Wf s)
    (hj : s.journalFailed = false) : Calm s.calm.pair ∧ LogInv s.calm records ∧ Wf s.calm := by
  have hlog := h.led logRules hj
  have hd := hlog.onDisk
  have hlog' : Logged s.calm.pair records :=
    ⟨⟨hd.toBody.front rfl rfl fun _ _ => rfl, hd.valid, hd.dataRegion, hd.indexRegion, hd.intent⟩, hlog.indexSize,
      hlog.indexBytes, hlog.ranges, hlog.healthy, hlog.settled⟩
  exact ⟨⟨fun _ => rfl, hlog.healthy⟩, ⟨.logged hlog', h.small, h.ends, h.failed, h.vsize_eq, h.map⟩,
    ⟨hw.index, hw.header_le, hw.vsize_le, hw.start, hw.backed, hw.exclusive⟩⟩

/-- **When a healthy layer survives.** -/
theorem survives_iff {s : LsmtRw} {records : List SegmentMapping} (h : LogInv s records) (hw : Wf s)
    (hj : s.journalFailed = false) :
    Survives s ↔ s.data.size % kAlignment = 0 ∧ s.segments.length ≤ kMaxRoIndexSize ∧ sealedTrailer s.data = false := by
  obtain ⟨hcalm, hinv, hw'⟩ := calm_inv h hw hj
  have hlog := hinv.led logRules hj
  have hd := hlog.onDisk
  constructor
  · intro hs
    obtain ⟨p, hp⟩ := hs.compact
    obtain ⟨q, hq⟩ := hs.reopen
    have hcompact : s.data.size % kAlignment = 0 ∧ s.segments.length ≤ kMaxRoIndexSize := by
      by_contra hbad
      have hno := @compact_refused s.calm.pair s.segments hbad
      rw [wp_of_eq hp] at hno
      exact hno
    refine ⟨hcompact.1, hcompact.2, Bool.eq_false_of_not_eq_true fun hseal => ?_⟩
    have hno := openSync_of_sealedTrailer hd.data_ge (HeaderTrailer.parse_serialize hd.valid.fits hd.dataRegion) hseal
    exact nomatch hq.symm.trans hno
  · rintro ⟨hal, hlen, hseal⟩
    have hin := within_of_map hw'.index (hinv.map (.inl hj)) hd.replays.within
    refine ⟨fun buf count offset ha => calm_pwrite hcalm hinv hw' hj hal hlen ha,
      fun offset len ha => calm_discard hcalm hinv hw' hj hal hlen ha, ?_, fun v hv => ?_, ?_⟩
    · obtain ⟨_, p, hp, -⟩ := exists_ok_of_wp (calm_compact hcalm hlog hw'.index hw'.exclusive hin hal hlen)
      exact ⟨p, hp⟩
    · obtain ⟨hopen, h0, ha, hm, hge⟩ := hv
      have hv' : s.calm.pair.header.virtualSize ≤ v := (hinv.vsize_eq hlog.healthy).symm.trans_le hge
      have hrun : wp (LsmtRw.grow v) (fun r _ => r = 0) (fun _ _ => False) s.calm := by
        unfold LsmtRw.grow
        rw [wp_bind, wp_gets, id_eq, wp_bind, wp_refuse_of_not (show ¬ (s.calm.sealed = true ∨ s.calm.checkpointed = true) from hopen), wp_bind,
          wp_refuse_of_not (show ¬ (s.calm.journalFailed = true ∧ s.calm.pair.growthPending = false) from
            fun hbad => Bool.false_ne_true (hj.symm.trans hbad.1)), wp_bind, wp_onError, onPair, wp_zoom]
        exact wp_mono (calm_grow hcalm hlog h0 ha hm hv' hal) (fun _ _ _ => rfl) fun _ _ he => he
      obtain ⟨r, t, hr, rfl⟩ := exists_ok_of_wp hrun
      exact ⟨t, hr⟩
    · exact ⟨_, openSync_of_log hd hseal⟩

/-- **A failed payload write**: reported, and outside its range nothing moves.  What comes later survives exactly if the
file was left with whole sectors, the map fits an index, and the payload does not end like a sealed layer. -/
theorem payload_failure {buf : Buf} {count offset : ℕ} {e : ℤ} {s s₁ s' : LsmtRw} (hs : History s)
    (h : PayloadFails buf count offset e s s₁ s') :
    LsmtRw.pwrite buf count offset s = (.error e, s') ∧ s'.segments = s₁.segments ∧
      Frame (offset / kAlignment) (offset / kAlignment + count / kAlignment) s s' ∧
      s'.journalFailed = false ∧ s'.pair.poisoned = false ∧
      (Survives s' ↔
        s'.data.size % kAlignment = 0 ∧ s'.segments.length ≤ kMaxRoIndexSize ∧ sealedTrailer s'.data = false) := by
  have hrun := h.run
  obtain ⟨hsegs, hj⟩ := h.kept
  have hspec := @pwrite_spec buf count offset s hs.inv.1
  rw [wp_of_error hrun] at hspec
  have hs' : History s' := by
    have := hs.call (.pwrite buf count offset)
    rwa [show (Op.pwrite buf count offset).run s = (.error e, s') from hrun] at this
  obtain ⟨hw, records, hinv⟩ := hs'.inv
  exact ⟨hrun, hsegs, hspec.2.2, hj, (hinv.led logRules hj).healthy, survives_iff hinv hw hj⟩

/-! ### A residue -/

/-- The first call fails with `n` bytes written, the others succeed. -/
def firstFails (n : ℕ) : ℕ → Option Fault := fun k => if k = 0 then some ⟨n, 5, eio_pos⟩ else none

/-- Create, and a first write of 4096 zeroes that stops after `n` bytes. -/
theorem exists_residue (n : ℕ) (hn : n ≤ 4096) : ∃ s s', History s ∧ PayloadFails (fun _ => 0) 4096 0 5 s s s' ∧
    s'.data.size = kSpace + n ∧
    s'.segments = [] ∧ s'.vsize = 2 ^ 20 ∧ s'.pair.header.virtualSize = 2 ^ 20 ∧
    ¬ (s'.sealed = true ∨ s'.checkpointed = true) ∧ (∀ k, s'.pair.disk.faults (s'.pair.disk.tick + k) = none) := by
  obtain ⟨data, index, hdata, hindex, -, hcreate⟩ := createSync_ok (show validUuid nilUuid = true by decide)
    (show 2 ^ 20 ≠ 0 by decide) (by decide) (by decide) (firstFails n)
  set s := fromPair (created (2 ^ 20) nilUuid data index (firstFails n)) with hs
  have hlayer : create (2 ^ 20) nilUuid (firstFails n) = .ok s := by
    rw [create, hcreate]
    rfl
  have hsize : s.data.size = kSpace := size_region hdata
  have hplan : s.plan 0 8 = ([⟨0, 8, 8, false⟩], 16) := by
    show planOps 0 8 ([].dropWhile _) 0 (kSpace / kAlignment) = _
    rw [List.dropWhile_nil, planOps, if_pos (by decide)]
    rfl
  have hprep : prepareMutation s = (.ok (), s) := by
    refine eq_ok_of_wp ?_
    unfold prepareMutation
    rw [wp_bind, wp_gets, id_eq, wp_bind, wp_refuse_of_not (show ¬ s.journalFailed = true from Bool.false_ne_true), wp_onlyIf]
    exact ⟨fun hbad => absurd hbad (show ¬ max 4096 (4 * 0) ≤ (kSpace - kSpace) / 16 by decide), fun _ => ⟨rfl, rfl⟩⟩
  -- the only payload write of the request
  set s₁ : LsmtRw := { s with dataEndSector := 16 } with hs₁
  set s' : LsmtRw := { s₁ with pair := { s₁.pair with
    disk := (s₁.pair.disk.setFile .data (s₁.pair.disk.data.write kSpace n fun _ => 0)).passed } } with hs'
  have hfail : each [⟨0, 8, 8, false⟩] (writeOp (fun _ => 0) 0) s₁ = (.error 5, s') := by
    refine eq_error_state_of_wp ?_
    unfold each writeOp onPair FilePair.sys
    simp only [wp_bind, wp_zoom]
    unfold wp Disk.write
    rw [show s₁.pair.disk.faults s₁.pair.disk.tick = some ⟨n, 5, by decide⟩ from rfl]
    have hmin : min (min n (kMaxFileSize - 8 * kAlignment)) (8 * kAlignment) = n := by
      simp only [kMaxFileSize, kAlignment]
      omega
    refine ⟨rfl, ?_⟩
    rw [hmin]
    rfl
  have hopen : ¬ (false = true ∨ false = true) := by decide
  refine ⟨s, s', .create hlayer, ⟨⟨hopen, by decide, ?_⟩, s, hprep, [], 0, 8, [], by decide, rfl, ?_⟩, ?_, rfl, rfl, rfl,
    hopen, fun k => ?_⟩
  · show ¬ (2 ^ 20 < 0 ∨ 2 ^ 20 - 0 < 4096)
    decide
  · rw [hplan]
    exact hfail
  · show (s.data.write kSpace n fun _ => 0).size = _
    rw [File.size_write, hsize]
    split_ifs <;> omega
  · show firstFails n (0 + 1 + k) = none
    exact if_neg (by omega)

/-- A failed write that left one whole sector. -/
theorem payload_failure_sector : ∃ s s', History s ∧ PayloadFails (fun _ => 0) 4096 0 5 s s s' ∧ Survives s' := by
  obtain ⟨s, s', hs, hfails, hsize, hsegs, -⟩ := exists_residue 512 (by decide)
  obtain ⟨-, -, -, -, -, hiff⟩ := payload_failure hs hfails
  refine ⟨s, s', hs, hfails, hiff.mpr ⟨?_, ?_, sealedTrailer_of_short ?_⟩⟩
  · rw [hsize]
    decide
  · rw [hsegs]
    decide
  · rw [hsize]
    decide

/-- Headers are not valid over part of a sector. -/
theorem validatePair_unaligned {data index : HeaderTrailer} {dataBytes indexBytes : ℕ} (h : dataBytes % kAlignment ≠ 0) :
    validatePair data index dataBytes indexBytes = none := by
  unfold validatePair
  split_ifs with h1 h2 h3 h4 h5
  · rfl
  · rfl
  · rfl
  · rfl
  · rfl
  · exact absurd (.inr (.inr (.inr (.inr (.inl h))))) h3

theorem growIntent_unaligned {p : FilePair} {v : ℕ} (h : p.disk.data.size % kAlignment ≠ 0) : p.growIntent v = none := by
  unfold FilePair.growIntent
  simp only [validatePair_unaligned h, Option.bind_eq_bind, Option.bind_none, Option.bind_fun_none]

/-- **A failed write of 100 bytes stops the layer from growing**, though it is healthy and every call succeeds. -/
theorem residue_refused : ∃ s s', History s ∧ PayloadFails (fun _ => 0) 4096 0 5 s s s' ∧ s'.journalFailed = false ∧
    GrowsTo s' (2 ^ 21) ∧ (∀ k, s'.pair.disk.faults (s'.pair.disk.tick + k) = none) ∧
    ∃ t, LsmtRw.grow (2 ^ 21) s' = (.error einval, t) := by
  obtain ⟨s, s', hs, hfails, hsize, hsegs, hv, hheader, hopen, hfaults⟩ := exists_residue 100 (by decide)
  obtain ⟨-, hj⟩ := hfails.kept
  have hs' : History s' := by
    have := hs.call (.pwrite (fun _ => 0) 4096 0)
    rwa [show (Op.pwrite (fun _ => 0) 4096 0).run s = (.error 5, s') from hfails.run] at this
  obtain ⟨-, records, hinv⟩ := hs'.inv
  have hlog := hinv.led logRules hj
  have hal : s'.pair.disk.data.size % kAlignment ≠ 0 := by
    show s'.data.size % kAlignment ≠ 0
    rw [hsize]
    decide
  refine ⟨s, s', hs, hfails, hj, ⟨hopen, by decide, by decide, by decide, by rw [hv]; decide⟩, hfaults, ?_⟩
  refine eq_error_of_wp ?_
  unfold LsmtRw.grow FilePair.grow publishGrow
  rw [wp_bind, wp_gets, id_eq, wp_bind, wp_refuse_of_not hopen, wp_bind,
    wp_refuse_of_not (fun hbad => Bool.false_ne_true (hj.symm.trans hbad.1)), wp_bind, wp_onError, onPair, wp_zoom, wp_bind,
    wp_gets, id_eq, wp_bind, wp_refuse_of_not (fun hbad => Bool.false_ne_true (hlog.healthy.symm.trans hbad.1)), wp_bind,
    wp_onlyIf]
  refine ⟨(fun hbad => by cases hlog.settled.symm.trans hbad), fun _ => ?_⟩
  rw [wp_bind, wp_gets, id_eq, wp_bind, hheader, wp_refuse_of_not (by decide), if_neg (by decide), wp_bind, wp_need]
  exact ⟨fun raw hraw => (by cases hraw.symm.trans (growIntent_unaligned hal)), fun _ => rfl⟩

end LsmtRw

end OverlayBD
