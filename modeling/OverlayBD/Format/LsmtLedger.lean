import OverlayBD.Format.LsmtRecovery
import OverlayBD.Format.RecordReplay

/-!
# Admission to the journal

Before it appends a record, `FilePair::append` asks whether the journal could still be replayed with it.  It does not
replay anything: `live_ranges_` is meant to be the set of logical intervals that a replay would hold, kept by a splitting
routine of its own.  If the two ever differed, the pair could write a journal that no open accepts.

## The model

* `spliceRanges` — the loop of `append` over the ordered map of intervals.
* `replayOf` — the replay of the complete records of the index file, as `open_sync` makes it.
* `Ledger p raw more r` — the pair knows the records `raw`, replayed to `r`; `more` is a record that reached the file
  although its write failed.  Padding and extents that alias among dead records are allowed: the pair may have been
  written by anybody.
* `Used` — a layer that was created, or opened from any directory that is accepted, and used with any outcome.

## What is proved

* `ledgerRules` — every operation of the pair keeps the ledger, so the layer keeps its map in step with it.
* `admission_exact` — in every state `live_ranges_` is the partition of the replay, admission refuses a record if and only
  if the replay would, and compaction changes nothing a replay resolves to.
-/

namespace OverlayBD

open Intervals SegmentMapping Bytes Errno Effect

/-! ### The intervals -/

instance : Intervals.Interval (ℕ × ℕ) := ⟨Prod.fst, Prod.snd⟩

namespace FilePair

end FilePair

/-! ### Replays of one log with other bounds -/

namespace Replay

/-- The same replay in a larger device and a larger file. -/
structure Wider (r q : Replay) : Prop where
  live : q.live = r.live
  records : q.records = r.records
  sectors : r.sectors ≤ q.sectors
  dataSectors : r.dataSectors ≤ q.dataSectors

variable {r r' q q' : Replay} {m : SegmentMapping} {ms : List SegmentMapping}

theorem Wider.append (h : Wider r q) (ha : r.append m = some r') : ∃ q', q.append m = some q' ∧ Wider r' q' := by
  have h1 := h.sectors
  have h2 := h.dataSectors
  simp only [Replay.append] at ha ⊢
  rw [h.records, h.live]
  split_ifs at ha with c1 c2 c3 c4 c5
  · obtain rfl := Option.some.inj ha
    rw [if_neg c1, if_pos c2]
    exact ⟨_, rfl, rfl, rfl, h1, h2⟩
  · obtain rfl := Option.some.inj ha
    rw [if_neg c1, if_neg c2, if_neg (by omega),
      if_neg (fun hbad => c4 ⟨hbad.1, by have := hbad.2; omega⟩), if_neg c5]
    exact ⟨_, rfl, rfl, rfl, h1, h2⟩

theorem Wider.fold (h : Wider r q) (ha : ms.foldlM Replay.append r = some r') :
    ∃ q', ms.foldlM Replay.append q = some q' ∧ Wider r' q' := by
  induction ms generalizing r q with
  | nil =>
    obtain rfl := Option.some.inj ha
    exact ⟨q, rfl, h⟩
  | cons m ms ih =>
    rw [List.foldlM_cons] at ha ⊢
    obtain ⟨r₁, h1, h2⟩ := Option.bind_eq_some_iff.mp ha
    obtain ⟨q₁, h3, h4⟩ := h.append h1
    obtain ⟨q₂, h5, h6⟩ := ih h4 h2
    exact ⟨q₂, by rw [h3]; exact h5, h6⟩

/-- The runs do not depend on the bounds. -/
theorem live_of_append (hl : q.live = r.live) (ha : r.append m = some r') (hb : q.append m = some q') :
    q'.live = r'.live := by
  simp only [Replay.append] at ha hb
  rw [hl] at hb
  split_ifs at ha hb <;> (obtain rfl := Option.some.inj ha; obtain rfl := Option.some.inj hb; first | exact hl | rfl)

theorem live_of_fold (hl : q.live = r.live) (ha : ms.foldlM Replay.append r = some r')
    (hb : ms.foldlM Replay.append q = some q') : q'.live = r'.live := by
  induction ms generalizing r q with
  | nil =>
    obtain rfl := Option.some.inj ha
    obtain rfl := Option.some.inj hb
    exact hl
  | cons m ms ih =>
    rw [List.foldlM_cons] at ha hb
    obtain ⟨r₁, h1, h2⟩ := Option.bind_eq_some_iff.mp ha
    obtain ⟨q₁, h3, h4⟩ := Option.bind_eq_some_iff.mp hb
    exact ih (live_of_append hl h1 h3) h2 h4

/-- Every record is counted, and the bounds stay. -/
theorem fold_fixed (ha : ms.foldlM Replay.append r = some r') :
    r'.records = r.records + ms.length ∧ r'.sectors = r.sectors ∧ r'.dataSectors = r.dataSectors := by
  induction ms generalizing r with
  | nil =>
    obtain rfl := Option.some.inj ha
    exact ⟨rfl, rfl, rfl⟩
  | cons m ms ih =>
    rw [List.foldlM_cons] at ha
    obtain ⟨r₁, h1, h2⟩ := Option.bind_eq_some_iff.mp ha
    have hone : r₁.records = r.records + 1 ∧ r₁.sectors = r.sectors ∧ r₁.dataSectors = r.dataSectors := by
      simp only [Replay.append] at h1
      split_ifs at h1 <;> (obtain rfl := Option.some.inj h1; exact ⟨rfl, rfl, rfl⟩)
    obtain ⟨i1, i2, i3⟩ := ih h2
    refine ⟨?_, i2.trans hone.2.1, i3.trans hone.2.2⟩
    rw [i1, hone.1, List.length_cons]
    omega

/-- **A record that fits is refused for a limit, or not at all.** -/
theorem append_eq_none_iff (hm : Within r.sectors r.dataSectors m) (hs : r.sectors ≤ kMaxOffset) :
    r.append m = none ↔ kMaxLogRecords ≤ r.records ∨ kMaxRoIndexSize < (liveStep r.live m).length := by
  constructor
  · intro h
    by_contra hn
    rw [not_or, not_le, not_lt] at hn
    rw [append_eq_some hm hs hn.1 hn.2] at h
    exact nomatch h
  · intro h
    simp only [Replay.append]
    split_ifs with c1 c2 c3 c4 c5
    · rfl
    · have := hm.length_pos
      have := hm.stop_le
      simp only [stop] at this
      simp only [kInvalidOffset] at c2
      omega
    · rfl
    · rfl
    · rfl
    · exact absurd (h.resolve_left c1) c5

end Replay

/-! ### The ledger -/

/-- Sizes a replay can start with, the file cut to whole sectors. -/
structure Sized (v n : ℕ) : Prop where
  pos : v ≠ 0
  aligned : v % kAlignment = 0
  capacity_le : v / kAlignment ≤ kMaxOffset
  data_ge : kSpace ≤ n
  data_lt : n / kAlignment < kMaxMoffset

/-- A replay before its first record. -/
def Replay.blank (v n : ℕ) : Replay := ⟨v / kAlignment, n / kAlignment, 0, []⟩

theorem Sized.start {v n : ℕ} (h : Sized v n) :
    Replay.start v (n / kAlignment * kAlignment) = some (Replay.blank v n) := by
  have h1 := h.pos
  have h2 := h.aligned
  have h3 := h.capacity_le
  have h4 := h.data_ge
  have h5 := h.data_lt
  have hdiv : n / kAlignment * kAlignment / kAlignment = n / kAlignment := Nat.mul_div_cancel _ (by decide)
  rw [Replay.start, hdiv, if_neg (by simp only [kAlignment, kSpace] at *; omega)]
  rfl

theorem sized_of_start {v n : ℕ} {r : Replay} (h : Replay.start v (n / kAlignment * kAlignment) = some r) :
    Sized v n ∧ r = Replay.blank v n := by
  have hdiv : n / kAlignment * kAlignment / kAlignment = n / kAlignment := Nat.mul_div_cancel _ (by decide)
  unfold Replay.start at h
  rw [hdiv] at h
  split_ifs at h with hbad
  simp only [not_or, not_not, not_lt, not_le] at hbad
  obtain ⟨h1, h2, h3, h4, -, h6⟩ := hbad
  exact ⟨⟨h1, h2, h3, h4.trans (Nat.div_mul_le_self _ _), h6⟩, (Option.some.inj h).symm⟩

namespace FilePair

/-- The replay `open_sync` makes of a directory: the complete records of the index, over whole sectors of payload. -/
def replayOf (p : FilePair) : Option Replay := do
  let r ← Replay.start p.header.virtualSize (p.disk.data.size / kAlignment * kAlignment)
  (Replay.recordsOf p.disk.index ((completeIndex p.disk.index.size - kSpace) / 16)).foldlM Replay.append r

/-- **The records a pair knows**, replayed, and perhaps one more on disk. -/
structure Ledger (p : FilePair) (raw more : List SegmentMapping) (r : Replay) : Prop where
  sized : Sized p.header.virtualSize p.disk.data.size
  log : Replay.recordsOf p.disk.index (raw ++ more).length = raw ++ more
  index_ge : kSpace + 16 * (raw ++ more).length ≤ p.disk.index.size
  index_lt : p.disk.index.size < kSpace + 16 * ((raw ++ more).length + 1)
  indexBytes : p.indexBytes = kSpace + 16 * raw.length
  replayed : raw.foldlM Replay.append (Replay.blank p.header.virtualSize p.disk.data.size) = some r
  ranges : p.liveRanges = r.live.map bounds
  accepted : ∃ r', more.foldlM Replay.append r = some r'

/-- A usable pair. -/
def Booked (p : FilePair) (records : List SegmentMapping) : Prop :=
  ∃ raw r, Replay.liveRecords raw = records ∧ Ledger p raw [] r ∧ p.disk.index.size = kSpace + 16 * raw.length ∧
    p.poisoned = false ∧ p.growthPending = false

/-- Any pair: usable, in the middle of a grow, or poisoned by an append whose record may be on disk. -/
def LedgerInv (p : FilePair) (records : List SegmentMapping) : Prop :=
  ∃ raw more r, Replay.liveRecords (raw ++ more) = records ∧ Ledger p raw more r ∧
    (more = [] ∧ p.disk.index.size = kSpace + 16 * raw.length ∧ p.poisoned = p.growthPending ∨
      more.length ≤ 1 ∧ p.poisoned = true ∧ p.growthPending = false)

section Ledger

variable {p p' : FilePair} {raw more records : List SegmentMapping} {r : Replay} {m : SegmentMapping}

theorem Booked.inv (h : Booked p records) : LedgerInv p records := by
  obtain ⟨raw, r, hrec, hl, hsize, hp, hg⟩ := h
  exact ⟨raw, [], r, by rw [List.append_nil]; exact hrec, hl, .inl ⟨rfl, hsize, hp.trans hg.symm⟩⟩

theorem LedgerInv.booked (h : LedgerInv p records) (hp : p.poisoned = false) : Booked p records := by
  obtain ⟨raw, more, r, hrec, hl, ⟨rfl, hsize, hpg⟩ | ⟨-, hbad, -⟩⟩ := h
  · rw [List.append_nil] at hrec
    exact ⟨raw, r, hrec, hl, hsize, hp, hpg.symm.trans hp⟩
  · exact nomatch hbad.symm.trans hp

theorem recordsOf_congr {f g : File} (h : ∀ i, kSpace ≤ i → f.byte i = g.byte i) (k : ℕ) :
    Replay.recordsOf f k = Replay.recordsOf g k := by
  refine List.map_congr_left fun i _ => congrArg loadSegmentLe (File.read_congr fun j hj => ?_)
  exact h _ (by omega)

/-- The complete records of the index file are those of the ledger. -/
theorem Ledger.count (h : Ledger p raw more r) : (completeIndex p.disk.index.size - kSpace) / 16 = (raw ++ more).length := by
  have h1 := h.index_ge
  have h2 := h.index_lt
  simp only [completeIndex]
  omega

/-- **What an open replays.** -/
theorem Ledger.replayOf (h : Ledger p raw more r) : replayOf p = more.foldlM Replay.append r := by
  unfold FilePair.replayOf
  rw [h.sized.start, h.count, h.log]
  show (raw ++ more).foldlM Replay.append _ = _
  rw [List.foldlM_append, h.replayed]
  rfl

theorem Ledger.lengths (h : Ledger p raw more r) : ∀ m ∈ raw, m.length ≤ kMaxLength := by
  intro m hm
  have hmem : m ∈ raw ++ more := List.mem_append_left _ hm
  rw [← h.log] at hmem
  obtain ⟨i, -, rfl⟩ := List.mem_map.mp hmem
  exact Replay.length_loadSegmentLe _

theorem Ledger.ok (h : Ledger p raw more r) :
    r.Ok ∧ ∀ x, resolve r.live x = logMap (Replay.liveRecords raw) x := by
  obtain ⟨hok, -, -, hres⟩ := Replay.run_spec (Replay.ok_nil _ _ _) h.lengths h.replayed
  exact ⟨hok, hres⟩

theorem Ledger.within (h : Ledger p raw more r) : ∀ m ∈ Replay.liveRecords raw,
    Replay.Within (p.header.virtualSize / kAlignment) (p.disk.data.size / kAlignment) m := by
  intro m hm
  obtain ⟨hm, hn⟩ := List.mem_filter.mp hm
  exact Replay.within_of_fold h.lengths h.replayed m hm (of_decide_eq_true hn)

/-- The bounds of the replay, and its count. -/
theorem Ledger.fixed (h : Ledger p raw more r) : r.records = raw.length ∧
    r.sectors = p.header.virtualSize / kAlignment ∧ r.dataSectors = p.disk.data.size / kAlignment := by
  obtain ⟨h1, h2, h3⟩ := Replay.fold_fixed h.replayed
  exact ⟨h1.trans (Nat.zero_add _), h2, h3⟩

/-- **The admission test is the replay's**, for a record that fits. -/
theorem Ledger.admission (h : Ledger p raw more r)
    (hm : Replay.Within (p.header.virtualSize / kAlignment) (p.disk.data.size / kAlignment) m) :
    (kMaxLogRecords ≤ (p.indexBytes - kSpace) / 16 ∨ kMaxRoIndexSize < (replaceRange p.liveRanges m).length) ↔
      r.append m = none := by
  obtain ⟨h1, h2, h3⟩ := h.fixed
  have hcount : (p.indexBytes - kSpace) / 16 = r.records := by
    rw [h.indexBytes, h1]
    omega
  have hlen : (replaceRange p.liveRanges m).length = (Replay.liveStep r.live m).length := by
    rw [h.ranges, replaceRange_map, List.length_map]
  rw [hcount, hlen]
  refine (Replay.append_eq_none_iff ?_ ?_).symm
  · rw [h2, h3]
    exact hm
  · rw [h2]
    exact h.sized.capacity_le

/-! ### Calls that move no record -/

/-- Other headers and flags over the same records, as long as the log replays under the new header. -/
theorem Ledger.headers (h : Ledger p raw [] r) (hrel : headersOnly.rel p p')
    (hsized : Sized p'.header.virtualSize p.disk.data.size) {r' : Replay}
    (hr : raw.foldlM Replay.append (Replay.blank p'.header.virtualSize p.disk.data.size) = some r') :
    Ledger p' raw [] r' ∧ p'.disk.index.size = p.disk.index.size := by
  obtain ⟨hds, his, -, hib, -, hidx, -, hranges⟩ := hrel
  have hdata : p'.disk.data.size = p.disk.data.size := hds h.sized.data_ge
  have hindex : p'.disk.index.size = p.disk.index.size := his ((Nat.le_add_right _ _).trans h.index_ge)
  refine ⟨⟨hdata ▸ hsized, ?_, hindex ▸ h.index_ge, hindex ▸ h.index_lt, hidx.trans h.indexBytes, hdata ▸ hr, ?_,
    r', rfl⟩, hindex⟩
  · rw [recordsOf_congr hib]
    exact h.log
  · have hlive : r'.live = r.live := Replay.live_of_fold (by rfl) h.replayed hr
    rw [hranges, h.ranges, hlive]

/-- A call that changes no file, and flags of the pair. -/
theorem Ledger.flags (h : Ledger p raw more r) (t : ℕ) (intent : Option (List UInt8)) (poisoned pending : Bool) :
    Ledger { p with
      disk := { p.disk with tick := t, growIntent := intent }
      poisoned := poisoned
      growthPending := pending } raw more r :=
  ⟨h.sized, h.log, h.index_ge, h.index_lt, h.indexBytes, h.replayed, h.ranges, h.accepted⟩

theorem Booked.passed (h : Booked p records) : Booked { p with disk := p.disk.passed } records := by
  obtain ⟨raw, r, hrec, hl, hsize, hp, hg⟩ := h
  exact ⟨raw, r, hrec, hl.flags _ _ _ _, hsize, hp, hg⟩

/-- Other payload behind the same header. -/
theorem Booked.store (h : Booked p records) (f : File) (t : ℕ) (hsize : p.disk.data.size ≤ f.size)
    (hlt : f.size / kAlignment < kMaxMoffset) : Booked { p with disk := { p.disk with data := f, tick := t } } records := by
  obtain ⟨raw, r, hrec, hl, hindex, hp, hg⟩ := h
  have hwider : Replay.Wider (Replay.blank p.header.virtualSize p.disk.data.size)
      (Replay.blank p.header.virtualSize f.size) := ⟨rfl, rfl, le_rfl, Nat.div_le_div_right hsize⟩
  obtain ⟨r', hr', hw⟩ := hwider.fold hl.replayed
  have hs := hl.sized
  refine ⟨raw, r', hrec, ⟨⟨hs.pos, hs.aligned, hs.capacity_le, hs.data_ge.trans hsize, hlt⟩, hl.log, hl.index_ge,
    hl.index_lt, hl.indexBytes, hr', ?_, r', rfl⟩, hindex, hp, hg⟩
  rw [hw.live]
  exact hl.ranges

theorem ledger_flush (h : LedgerInv p records) :
    wp flush (fun _ p' => LedgerInv p' records ∧ ∃ t, p' = { p with disk := { p.disk with tick := t } })
      (fun _ p' => LedgerInv p' records ∧ ∃ t, p' = { p with disk := { p.disk with tick := t } }) p := by
  unfold flush
  rw [wp_bind, wp_gets, wp_bind, wp_refuse]
  refine ⟨fun _ => ⟨h, p.disk.tick, rfl⟩, fun hp => ?_⟩
  have hb := h.booked (Bool.eq_false_of_not_eq_true hp)
  rw [wp_bind]
  refine wp_sys_call ?_ fun _ _ => ⟨hb.passed.inv, _, rfl⟩
  rw [wp_bind]
  refine wp_sys_call ?_ fun _ _ => ⟨hb.passed.passed.inv, _, rfl⟩
  exact wp_sys_call ⟨hb.passed.passed.passed.inv, _, rfl⟩ fun _ _ => ⟨hb.passed.passed.passed.inv, _, rfl⟩

/-! ### Publishing -/

/-- A record of the device is no padding. -/
theorem liveRecords_concat {sectors dataSectors : ℕ} (hm : Replay.Within sectors dataSectors m)
    (hs : sectors ≤ kMaxOffset) (raw : List SegmentMapping) :
    Replay.liveRecords (raw ++ [m]) = Replay.liveRecords raw ++ [m] := by
  have hn : m.offset ≠ kInvalidOffset := by
    have h1 := hm.length_pos
    have h2 := hm.stop_le
    simp only [stop] at h2
    rw [kInvalidOffset]
    omega
  rw [Replay.liveRecords, Replay.liveRecords, List.filter_append, List.filter_cons_of_pos (by simpa using hn)]
  rfl

/-- **A published record** is in the ledger.  It is refused if the replay would refuse it; after a failed write the
pair is poisoned, and the record may be on disk. -/
theorem Ledger.append (hl : Ledger p raw [] r) (hsize : p.disk.index.size = kSpace + 16 * raw.length)
    (hp : p.poisoned = false)
    (hm : Replay.Within (p.header.virtualSize / kAlignment) (p.disk.data.size / kAlignment) m) (hf : m.Fits) :
    wp (append m)
      (fun _ p' => (∃ r', r.append m = some r' ∧ Ledger p' (raw ++ [m]) [] r' ∧
          p'.disk.index.size = kSpace + 16 * (raw ++ [m]).length) ∧ p'.poisoned = false ∧
        p'.disk.data = p.disk.data ∧ p'.header = p.header ∧ p'.growthPending = p.growthPending)
      (fun e p' => (p' = p ∧ e = efbig ∧ r.append m = none ∨
          p'.poisoned = true ∧ (∃ r', r.append m = some r') ∧ ∃ more, (more = [] ∨ more = [m]) ∧ Ledger p' raw more r) ∧
        p'.disk.data = p.disk.data ∧ p'.header = p.header ∧ p'.growthPending = p.growthPending) p := by
  have hlen : (storeSegmentLe m).length = 16 := length_storeSegmentLe m
  have hadmit := hl.admission hm
  unfold FilePair.append
  rw [wp_bind, wp_gets, wp_bind, wp_refuse_of_not (by rw [id_eq, hp]; decide), wp_bind, wp_refuse]
  refine ⟨fun hcount => ⟨.inl ⟨rfl, rfl, hadmit.mp (.inl hcount)⟩, rfl, rfl, rfl⟩, fun hcount => ?_⟩
  rw [wp_bind, wp_refuse]
  refine ⟨fun hlive => ⟨.inl ⟨rfl, rfl, hadmit.mp (.inr hlive)⟩, rfl, rfl, rfl⟩, fun hlive => ?_⟩
  simp only [id] at hcount hlive
  -- the replay takes the record too
  obtain ⟨hrec, hsec, hdat⟩ := hl.fixed
  have hstep : ∃ r', r.append m = some r' ∧ r'.live = Replay.liveStep r.live m := by
    rw [hl.indexBytes] at hcount
    rw [hl.ranges, replaceRange_map, List.length_map, not_lt] at hlive
    refine ⟨_, Replay.append_eq_some ?_ ?_ ?_ hlive, rfl⟩
    · rw [hsec, hdat]
      exact hm
    · rw [hsec]
      exact hl.sized.capacity_le
    · omega
  obtain ⟨r', hr', hlive'⟩ := hstep
  have hone : [m].foldlM Replay.append r = some r' := by
    rw [List.foldlM_cons, hr']
    rfl
  have hall : (raw ++ [m]).length = raw.length + 1 := List.length_append
  -- the record, complete or not, behind the log
  have hwrite : ∀ n, (p.disk.index.write (kSpace + 16 * raw.length) n fun i => (storeSegmentLe m).getD i 0).size
      = kSpace + 16 * raw.length + n := by
    intro n
    rw [File.size_write, hsize]
    split_ifs <;> omega
  have hlog : Replay.recordsOf p.disk.index raw.length = raw := by
    have := hl.log
    rwa [List.append_nil] at this
  have hshort : ∀ n, Replay.recordsOf
      (p.disk.index.write (kSpace + 16 * raw.length) n fun i => (storeSegmentLe m).getD i 0) raw.length = raw := by
    intro n
    refine Eq.trans (List.map_congr_left fun i hi => ?_) hlog
    have := List.mem_range.mp hi
    exact congrArg loadSegmentLe (File.read_write_of_disjoint (.inl (by omega)))
  have hfull := recordsOf_write hlog hf
  rw [File.writeBytes, hlen] at hfull
  rw [wp_bind, wp_onError, id_eq, hl.indexBytes, writeBytes, sys, wp_zoom, hlen]
  unfold wp Disk.write
  cases p.disk.faults p.disk.tick with
  | some f =>
    refine ⟨.inr ⟨rfl, ⟨r', hr'⟩, ?_⟩, rfl, rfl, rfl⟩
    rcases Nat.lt_or_ge (min f.written (kMaxFileSize - (kSpace + 16 * raw.length))) 16 with hw | hw
    · refine ⟨[], .inl rfl, hl.sized, ?_, ?_, ?_, hl.indexBytes, hl.replayed, hl.ranges, r, rfl⟩
      · rw [List.append_nil]
        exact hshort _
      · exact (hwrite _).symm ▸ by rw [List.append_nil]; omega
      · exact (hwrite _).symm ▸ by rw [List.append_nil]; omega
    · refine ⟨[m], .inr rfl, hl.sized, ?_, ?_, ?_, hl.indexBytes, hl.replayed, hl.ranges, r', hone⟩
      · rw [hall, min_eq_right hw]
        exact hfull
      · rw [hall, min_eq_right hw]
        exact (hwrite 16).ge.trans' (by omega)
      · rw [hall, min_eq_right hw]
        exact (hwrite 16).trans_lt (by omega)
  | none =>
    by_cases hbig : kMaxFileSize < kSpace + 16 * raw.length + 16
    · simp only [if_pos hbig]
      exact ⟨.inr ⟨trivial, ⟨r', hr'⟩, [], .inl rfl, hl.flags _ _ _ _⟩, rfl, trivial, trivial⟩
    · simp only [if_neg hbig]
      refine ⟨⟨r', hr', ⟨hl.sized, ?_, ?_, ?_, ?_, ?_, ?_, r', rfl⟩, ?_⟩, hp, rfl, rfl, rfl⟩
      · rw [List.append_nil, hall]
        exact hfull
      · rw [List.append_nil, hall]
        exact (hwrite 16).ge.trans' (by omega)
      · rw [List.append_nil, hall]
        exact (hwrite 16).trans_lt (by omega)
      · show p.indexBytes + 16 = _
        rw [hl.indexBytes, hall]
        omega
      · show (raw ++ [m]).foldlM Replay.append (Replay.blank p.header.virtualSize p.disk.data.size) = some r'
        rw [List.foldlM_append, hl.replayed]
        exact hone
      · show replaceRange p.liveRanges m = _
        rw [hl.ranges, replaceRange_map, hlive']
      · rw [hall]
        exact (hwrite 16).trans (by omega)

/-- The same for the effective records. -/
theorem ledger_append (h : Booked p records)
    (hm : Replay.Within (p.header.virtualSize / kAlignment) (p.disk.data.size / kAlignment) m) (hf : m.Fits) :
    wp (FilePair.append m)
      (fun _ p' => Booked p' (records ++ [m]) ∧ p'.disk.data = p.disk.data ∧ p'.header = p.header)
      (fun _ p' => (∃ new, (new = [] ∨ new = [m] ∧ p'.poisoned = true) ∧ LedgerInv p' (records ++ new)) ∧
        p'.disk.data = p.disk.data ∧ p'.header = p.header ∧ p'.growthPending = false) p := by
  have hinv := h.inv
  obtain ⟨raw, r, rfl, hl, hsize, hp, hg⟩ := h
  have hconcat := liveRecords_concat hm hl.sized.capacity_le raw
  refine wp_mono (hl.append hsize hp hm hf) (fun _ p' h' => ?_) fun _ p' h' => ?_
  · obtain ⟨⟨r', -, hl', hsize'⟩, hp', hdata, hheader, hg'⟩ := h'
    exact ⟨⟨raw ++ [m], r', hconcat, hl', hsize', hp', hg'.trans hg⟩, hdata, hheader⟩
  · obtain ⟨hcase, hdata, hheader, hg'⟩ := h'
    refine ⟨?_, hdata, hheader, hg'.trans hg⟩
    rcases hcase with ⟨rfl, -⟩ | ⟨hp', -, more, rfl | rfl, hl'⟩
    · exact ⟨[], .inl rfl, by rw [List.append_nil]; exact hinv⟩
    · exact ⟨[], .inl rfl, raw, [], r, by rw [List.append_nil, List.append_nil], hl',
        .inr ⟨Nat.zero_le _, hp', hg'.trans hg⟩⟩
    · exact ⟨[m], .inr ⟨rfl, hp'⟩, raw, [m], r, hconcat, hl', .inr ⟨le_rfl, hp', hg'.trans hg⟩⟩

/-! ### Compaction -/

/-- **Compaction** replays what it writes; if it fails, the ledger is that one or the old one. -/
theorem ledger_compact {live : List SegmentMapping} (h : Booked p records)
    (hin : ∀ m ∈ live, Replay.Within (p.header.virtualSize / kAlignment) (p.disk.data.size / kAlignment) m) :
    wp (compactSync live)
      (fun _ p' => Booked p' (live.map retag) ∧ p'.disk.data = p.disk.data ∧ p'.header = p.header)
      (fun _ p' => (Booked p' records ∨ Booked p' (live.map retag)) ∧ p'.disk.data = p.disk.data ∧
        p'.header = p.header) p := by
  have hb := h
  obtain ⟨raw, r, hrec, hl, hsize, hp, hg⟩ := h
  have hcap := hl.sized.capacity_le
  have hreload := map_reload hin hcap
  have hlive : Replay.liveRecords (live.map retag) = live.map retag := by
    refine List.filter_eq_self.mpr fun m hm => ?_
    obtain ⟨a, ha, rfl⟩ := List.mem_map.mp hm
    have h1 := (hin a ha).stop_le
    have h2 := (hin a ha).length_pos
    simp only [stop] at h1
    have hn : (retag a).offset ≠ kInvalidOffset := by
      show a.offset ≠ kMaxOffset
      omega
    simpa using hn
  unfold compactSync
  rw [wp_bind, wp_gets, wp_bind, wp_refuse]
  refine ⟨fun _ => ⟨.inl hb, rfl, rfl⟩, fun _ => ?_⟩
  rw [wp_bind, wp_refuse]
  refine ⟨fun _ => ⟨.inl hb, rfl, rfl⟩, fun _ => ?_⟩
  rw [wp_bind]
  refine wp_sys_call ?_ fun _ _ => ⟨.inl hb.passed, rfl, rfl⟩
  rw [wp_bind, wp_need]
  refine ⟨fun r₀ hr₀ => ?_, fun _ => ⟨.inl hb.passed, rfl, rfl⟩⟩
  rw [wp_bind, wp_need]
  refine ⟨fun replayed hrep => ?_, fun _ => ⟨.inl hb.passed, rfl, rfl⟩⟩
  rw [wp_bind]
  refine wp_sys_call ?_ fun _ _ => ⟨.inl hb.passed.passed, rfl, rfl⟩
  rw [wp_bind, wp_need]
  refine ⟨fun region hregion => ?_, fun _ => ⟨.inl hb.passed.passed, rfl, rfl⟩⟩
  rw [wp_bind]
  refine wp_sys_call ?_ fun _ _ => ⟨.inl hb.passed.passed.passed, rfl, rfl⟩
  rw [wp_bind]
  refine wp_sys_call ?_ fun _ _ => ⟨.inl hb.passed.passed.passed.passed, rfl, rfl⟩
  rw [wp_bind, wp_modify]
  refine (fun hnew => wp_sys_call ⟨Booked.passed hnew, rfl, rfl⟩ fun _ _ => ⟨.inr (Booked.passed hnew), rfl, rfl⟩) ?_
  obtain ⟨r', hr', hfin⟩ := Option.bind_eq_some_iff.mp hrep
  have hfold := fold_of_replayLive hr'
  rw [hreload, Replay.start_eq hr₀] at hfold
  have hrlen : region.length = kSpace := HeaderTrailer.length_serialize hregion
  have hnew := size_journal hrlen live
  have hcount : (live.map retag).length = live.length := List.length_map _
  refine ⟨live.map retag, r', hlive, ⟨hl.sized, ?_, ?_, ?_, ?_, hfold, ?_, r', rfl⟩, ?_, hp, hg⟩
  · rw [List.append_nil, hcount]
    exact (recordsOf_ofBytes hrlen live).trans hreload
  · rw [List.append_nil, hcount]
    exact hnew.ge
  · rw [List.append_nil, hcount]
    exact hnew.trans_lt (by omega)
  · rw [hcount]
  · show replayed.map bounds = _
    rw [Replay.finish_eq_some hfin]
  · rw [hcount]
    exact hnew

/-! ### Growing -/

/-- An intent that passes its checks names a capacity the log replays under. -/
theorem replay_of_checkGrow {d : Disk} {intent : List UInt8} {target : HeaderTrailer}
    (h : checkGrow d intent = some target) : Sized target.virtualSize d.data.size ∧
      ∃ r, (Replay.recordsOf d.index ((completeIndex d.index.size - kSpace) / 16)).foldlM Replay.append
        (Replay.blank target.virtualSize d.data.size) = some r := by
  simp only [checkGrow, Option.bind_eq_bind, Option.bind_eq_some_iff] at h
  obtain ⟨-, -, -, -, -, -, t, -, ti, -, -, -, -, -, n, hn, -, -, -, -, -, -, -, -, live, hlive, ht⟩ := h
  obtain rfl := Option.some.inj ht
  rw [Replay.load_eq] at hlive
  obtain ⟨r₀, hr₀, hlive⟩ := Option.bind_eq_some_iff.mp hlive
  obtain ⟨r, hr, -⟩ := Option.bind_eq_some_iff.mp hlive
  obtain ⟨hsized, rfl⟩ := sized_of_start hr₀
  have hcount : n = (completeIndex d.index.size - kSpace) / 16 := by
    unfold validatePair at hn
    split_ifs at hn
    exact (Option.some.inj hn).symm
  exact ⟨hsized, r, hcount ▸ hr⟩

/-- Rolling forward ends usable, or flagged, under the target header. -/
theorem rollForward_flags (intent : List UInt8) (target : HeaderTrailer) :
    wp (rollForward intent target)
      (fun _ p' => headersOnly.rel p p' ∧ p'.header = target ∧ p'.poisoned = false ∧ p'.growthPending = false)
      (fun _ p' => headersOnly.rel p p' ∧ p'.header = target ∧ p'.poisoned = true ∧ p'.growthPending = true) p := by
  have hlen : ∀ off, 0 + (field intent off kSpace).length ≤ kMaxFileSize := by
    intro off
    have h1 : (field intent off kSpace).length ≤ kSpace := by
      rw [field, List.length_take]
      exact min_le_left _ _
    have h2 : kSpace ≤ kMaxFileSize := by decide
    omega
  have hflags : wp (rollForward intent target)
      (fun _ p' => p'.header = target ∧ p'.poisoned = false ∧ p'.growthPending = false)
      (fun _ p' => p'.header = target ∧ p'.poisoned = true ∧ p'.growthPending = true) p := by
    unfold rollForward
    rw [wp_bind, wp_modify, wp_bind]
    refine wp_writeBytes (hlen _) ?_ fun _ _ _ _ => ⟨rfl, rfl, rfl⟩
    rw [wp_bind]
    refine wp_writeBytes (hlen _) ?_ fun _ _ _ _ => ⟨rfl, rfl, rfl⟩
    rw [wp_bind]
    refine wp_sys_call ?_ fun _ _ => ⟨rfl, rfl, rfl⟩
    rw [wp_bind]
    refine wp_sys_call ?_ fun _ _ => ⟨rfl, rfl, rfl⟩
    rw [wp_bind, wp_modify, wp_bind]
    exact wp_sys_call ⟨rfl, rfl, rfl⟩ fun _ _ => ⟨rfl, rfl, rfl⟩
  exact wp_mono (wp_and (respects_headers_rollForward intent target p) hflags) (fun _ _ h => h)
    fun _ _ h => ⟨h.1.2, h.2⟩

/-- **Recovery** keeps the records.  It does nothing, or ends usable; a failure leaves the flags up. -/
theorem ledger_recover (h : Ledger p raw [] r) :
    wp recoverGrow
      (fun _ p' => headersOnly.rel p p' ∧ (∃ r', Ledger p' raw [] r' ∧ p'.disk.index.size = p.disk.index.size) ∧
        (p.disk.growIntent = none ∧ p' = p ∨ p'.poisoned = false ∧ p'.growthPending = false))
      (fun _ p' => headersOnly.rel p p' ∧ (∃ r', Ledger p' raw [] r' ∧ p'.disk.index.size = p.disk.index.size) ∧
        (p' = p ∨ p'.poisoned = true ∧ p'.growthPending = true)) p := by
  unfold recoverGrow
  rw [wp_bind, wp_gets]
  cases hi : p.disk.growIntent with
  | none => exact ⟨headersOnly.refl p, ⟨r, h, rfl⟩, .inl ⟨rfl, rfl⟩⟩
  | some intent =>
    show wp (gets disk >>= _) _ _ p
    rw [wp_bind, wp_gets, wp_bind, wp_need]
    refine ⟨fun target ht => ?_, fun _ => ⟨headersOnly.refl p, ⟨r, h, rfl⟩, .inl rfl⟩⟩
    obtain ⟨hsized, r', hr'⟩ := replay_of_checkGrow ht
    rw [h.count, h.log, List.append_nil] at hr'
    have hkeep : ∀ p', headersOnly.rel p p' → p'.header = target →
        ∃ r', Ledger p' raw [] r' ∧ p'.disk.index.size = p.disk.index.size := by
      rintro p' hrel rfl
      exact ⟨r', h.headers hrel hsized hr'⟩
    exact wp_mono (rollForward_flags intent target) (fun _ p' h' => ⟨h'.1, hkeep p' h'.1 h'.2.1, .inr h'.2.2⟩)
      fun _ p' h' => ⟨h'.1, hkeep p' h'.1 h'.2.1, .inr h'.2.2⟩

/-- The second half of a grow. -/
theorem ledger_publish (h : Booked p records) (v : ℕ) :
    wp (publishGrow p v) (fun _ p' => headersOnly.rel p p' ∧ Booked p' records)
      (fun _ p' => headersOnly.rel p p' ∧
        (Booked p' records ∨ LedgerInv p' records ∧ p'.poisoned = true ∧ p'.growthPending = true)) p := by
  have hb := h
  obtain ⟨raw, r, hrec, hl, hsize, hp, hg⟩ := h
  unfold publishGrow
  rw [wp_bind, wp_refuse]
  refine ⟨fun _ => ⟨headersOnly.refl p, .inl hb⟩, fun _ => ?_⟩
  rw [wp_ite]
  refine ⟨fun _ => ⟨headersOnly.refl p, hb⟩, fun _ => ?_⟩
  rw [wp_bind, wp_need]
  refine ⟨fun intent _ => ?_, fun _ => ⟨headersOnly.refl p, .inl hb⟩⟩
  rw [wp_bind]
  refine wp_sys_call ?_ fun _ _ => ⟨headersOnly.refl p, .inl hb.passed⟩
  rw [wp_bind, wp_refuse]
  refine ⟨fun _ => ⟨headersOnly.refl p, .inl hb.passed⟩, fun _ => ?_⟩
  rw [wp_bind]
  refine wp_sys_call ?_ fun _ _ => ⟨headersOnly.refl p, .inl hb.passed.passed⟩
  rw [wp_bind, wp_modify]
  -- from here on the intent is published
  have hinv : ∀ p' : FilePair, (∃ r', Ledger p' raw [] r' ∧ p'.disk.index.size = p.disk.index.size) → p'.poisoned = true →
      p'.growthPending = true → LedgerInv p' records := by
    rintro p' ⟨r', hl', hs'⟩ hp' hg'
    exact ⟨raw, [], r', by rw [List.append_nil]; exact hrec, hl', .inl ⟨rfl, hs'.trans hsize, hp'.trans hg'.symm⟩⟩
  rw [wp_bind]
  have hstart := hl.flags (p.disk.tick + 1 + 1 + 1) (some intent) true true
  refine wp_sys_call ?_ fun _ _ => ⟨headersOnly.refl p, .inr ⟨hinv _ ⟨r, hstart, rfl⟩ rfl rfl, rfl, rfl⟩⟩
  refine wp_mono (ledger_recover hstart) (fun _ p' h' => ⟨h'.1, ?_⟩) fun _ p' h' => ⟨h'.1, .inr ?_⟩
  · obtain ⟨-, ⟨r', hl', hs'⟩, ⟨hnone, -⟩ | ⟨hp', hg'⟩⟩ := h'
    · exact nomatch hnone
    · exact ⟨raw, r', hrec, hl', hs'.trans hsize, hp', hg'⟩
  · obtain ⟨-, hl', rfl | ⟨hp', hg'⟩⟩ := h'
    · exact ⟨hinv _ hl' rfl rfl, rfl, rfl⟩
    · exact ⟨hinv _ hl' hp' hg', hp', hg'⟩

/-- **Grow** keeps the records. -/
theorem ledger_grow (h : LedgerInv p records) (v : ℕ) :
    wp (grow v) (fun _ p' => headersOnly.rel p p' ∧ Booked p' records)
      (fun _ p' => headersOnly.rel p p' ∧
        (p' = p ∨ Booked p' records ∨ LedgerInv p' records ∧ p'.poisoned = true ∧ p'.growthPending = true)) p := by
  unfold grow
  rw [wp_bind, wp_gets, wp_bind, wp_refuse]
  refine ⟨fun _ => ⟨headersOnly.refl p, .inl rfl⟩, fun hrefuse => ?_⟩
  have hpublish : ∀ q : FilePair, headersOnly.rel p q → Booked q records →
      wp (publishGrow q v) (fun _ p' => headersOnly.rel p p' ∧ Booked p' records)
        (fun _ p' => headersOnly.rel p p' ∧
          (p' = p ∨ Booked p' records ∨ LedgerInv p' records ∧ p'.poisoned = true ∧ p'.growthPending = true)) q := by
    intro q hrel hq
    exact wp_mono (ledger_publish hq v) (fun _ p' h' => ⟨headersOnly.trans hrel h'.1, h'.2⟩)
      fun _ p' h' => ⟨headersOnly.trans hrel h'.1, .inr h'.2⟩
  rw [wp_bind, wp_onlyIf]
  refine ⟨fun hpend => ?_, fun hpend => ?_⟩
  · obtain ⟨raw, more, r, hrec, hl, ⟨rfl, hsize, hpg⟩ | ⟨-, -, hbad⟩⟩ := h
    swap
    · exact nomatch hbad.symm.trans hpend
    rw [List.append_nil] at hrec
    have hsus : ∀ p' : FilePair, (∃ r', Ledger p' raw [] r' ∧ p'.disk.index.size = p.disk.index.size) →
        p'.poisoned = p'.growthPending → LedgerInv p' records := by
      rintro p' ⟨r', hl', hs'⟩ hpg'
      exact ⟨raw, [], r', by rw [List.append_nil]; exact hrec, hl', .inl ⟨rfl, hs'.trans hsize, hpg'⟩⟩
    rw [wp_bind]
    refine wp_mono (ledger_recover hl) (fun _ q hq => ?_) fun _ q hq => ?_
    · obtain ⟨hrel, ⟨r', hl', hs'⟩, hcase⟩ := hq
      rw [wp_bind]
      refine wp_sys_call ?_ fun _ _ => ⟨hrel, ?_⟩
      · rw [wp_modify, wp_bind, wp_gets]
        exact hpublish _ hrel ⟨raw, r', hrec, hl'.flags _ _ _ _, hs'.trans hsize, rfl, rfl⟩
      · refine .inr ?_
        rcases hcase with ⟨-, rfl⟩ | ⟨hp', hg'⟩
        · exact .inr ⟨hsus _ ⟨r', hl'.flags _ _ _ _, hs'⟩ hpg, hpg.trans hpend, hpend⟩
        · exact .inl ⟨raw, r', hrec, hl'.flags _ _ _ _, hs'.trans hsize, hp', hg'⟩
    · obtain ⟨hrel, hl', rfl | ⟨hp', hg'⟩⟩ := hq
      · exact ⟨hrel, .inl rfl⟩
      · exact ⟨hrel, .inr (.inr ⟨hsus q hl' (hp'.trans hg'.symm), hp', hg'⟩)⟩
  · have hp : p.poisoned = false := by
      cases hp : p.poisoned with
      | false => rfl
      | true => exact absurd ⟨hp, Bool.eq_false_of_not_eq_true hpend⟩ hrefuse
    rw [wp_bind, wp_gets]
    exact hpublish p (headersOnly.refl p) (h.booked hp)

/-- **Every operation of a pair keeps the ledger.** -/
theorem ledgerRules : LogRules Booked LedgerInv where
  inv := Booked.inv
  led := LedgerInv.booked
  healthy h := by
    obtain ⟨-, -, -, -, -, hp, -⟩ := h
    exact hp
  data_ge h := by
    obtain ⟨_, _, _, -, hl, -⟩ := h
    exact hl.sized.data_ge
  data_lt h := by
    obtain ⟨_, _, -, hl, -⟩ := h
    exact hl.sized.data_lt
  capacity_le h := by
    obtain ⟨_, _, -, hl, -⟩ := h
    exact hl.sized.capacity_le
  within h := by
    obtain ⟨raw, _, rfl, hl, -⟩ := h
    exact hl.within
  passed := Booked.passed
  store h f t hsize hlt _ := h.store f t hsize hlt
  append h hm hf _ := ledger_append h hm hf
  compact h _ _ hin := ledger_compact h hin
  flush := ledger_flush
  grow := ledger_grow

end Ledger

/-! ### What the next open finds -/

/-- What a usable ledger says of the next open. -/
theorem Booked.replay {p : FilePair} {records : List SegmentMapping} (h : Booked p records) :
    ∃ r, replayOf p = some r ∧ p.liveRanges = r.live.map bounds ∧ ∀ x, resolve r.live x = logMap records x := by
  obtain ⟨raw, r, rfl, hl, -⟩ := h
  exact ⟨r, hl.replayOf, hl.ranges, hl.ok.2⟩

/-! ### Opening -/

/-- A pair as `open_sync` returns it: the mappings are those of the ledger. -/
def Fresh (p : FilePair) : Prop :=
  ∃ raw r, Ledger p raw [] r ∧ p.disk.index.size = kSpace + 16 * raw.length ∧ p.poisoned = false ∧
    p.growthPending = false ∧ p.mappings = r.live ∧ p.disk.data.size = p.dataBytes ∧ p.dataBytes ≤ 2 ^ 63

/-- **Any directory that opens** gives a ledger. -/
theorem fresh_of_openSync {d : Disk} {p : FilePair} (hsmall : d.data.size ≤ kMaxFileSize) (h : openSync d = .ok p) :
    Fresh p := by
  refine of_openSync (Q := Fresh) (E := fun _ _ => True) ?_ h
  unfold openBody
  rw [wp_bind, wp_gets, wp_bind, wp_refuse]
  refine ⟨fun _ => trivial, fun hsize => ?_⟩
  rw [wp_bind, wp_need]
  refine ⟨fun header _ => ?_, fun _ => trivial⟩
  rw [wp_bind, wp_modify, wp_bind, wp_refuse]
  refine ⟨fun _ => trivial, fun _ => ?_⟩
  rw [wp_bind, wp_refuse]
  refine ⟨fun _ => trivial, fun hindex => ?_⟩
  -- recovery does nothing, or ends usable
  have hrecover : ∀ q : FilePair, q.poisoned = false → q.growthPending = false →
      wp recoverGrow (fun _ q' => q'.poisoned = false ∧ q'.growthPending = false) (fun _ _ => True) q := by
    intro q hp hg
    unfold recoverGrow
    rw [wp_bind, wp_gets]
    cases q.disk.growIntent with
    | none => exact ⟨hp, hg⟩
    | some intent =>
      show wp (gets disk >>= _) _ _ q
      rw [wp_bind, wp_gets, wp_bind, wp_need]
      refine ⟨fun target _ => ?_, fun _ => trivial⟩
      exact wp_mono (rollForward_flags intent target) (fun _ _ h' => h'.2.2) fun _ _ _ => trivial
  rw [wp_bind]
  refine wp_mono (hrecover _ rfl rfl) (fun _ q hq => ?_) fun _ _ _ => trivial
  have hp : q.poisoned = false := hq.1
  have hg : q.growthPending = false := hq.2
  rw [wp_bind, wp_gets, id_eq, wp_bind, wp_need]
  refine ⟨fun ih _ => ?_, fun _ => trivial⟩
  rw [wp_bind, wp_need]
  refine ⟨fun count hcount => ?_, fun _ => trivial⟩
  rw [wp_bind, wp_need]
  refine ⟨fun live hlive => ?_, fun _ => trivial⟩
  rw [wp_modify]
  have hn : count = (completeIndex d.index.size - kSpace) / 16 := by
    unfold validatePair at hcount
    split_ifs at hcount
    exact (Option.some.inj hcount).symm
  have hcomplete : completeIndex d.index.size = kSpace + 16 * count := by
    simp only [hn, completeIndex]
    omega
  rw [Replay.load_eq] at hlive
  obtain ⟨r₀, hr₀, hlive⟩ := Option.bind_eq_some_iff.mp hlive
  obtain ⟨r, hr, hfin⟩ := Option.bind_eq_some_iff.mp hlive
  obtain ⟨hsized, rfl⟩ := sized_of_start hr₀
  -- the payload is cut up to whole sectors
  set n := (d.data.size + kAlignment - 1) / kAlignment * kAlignment with hround
  have hle : d.data.size ≤ n := le_roundUp _
  have htop : n ≤ 2 ^ 63 := by
    simp only [hround, kAlignment, kMaxFileSize] at *
    omega
  have hwider : Replay.Wider (Replay.blank q.header.virtualSize d.data.size) (Replay.blank q.header.virtualSize n) :=
    ⟨rfl, rfl, le_rfl, Nat.div_le_div_right hle⟩
  obtain ⟨r', hr', hw⟩ := hwider.fold hr
  have hlen : (Replay.recordsOf q.disk.index count).length = count := by
    rw [Replay.recordsOf, List.length_map, List.length_range]
  have hlive' : live = r'.live := (Replay.finish_eq_some hfin).trans hw.live.symm
  refine ⟨Replay.recordsOf q.disk.index count, r', ⟨⟨hsized.pos, hsized.aligned, hsized.capacity_le,
    hsized.data_ge.trans hle, ?_⟩, ?_, ?_, ?_, ?_, hr', ?_, r', rfl⟩, ?_, hp, hg, hlive', rfl, htop⟩
  · show n / kAlignment < kMaxMoffset
    simp only [kAlignment, kMaxMoffset]
    omega
  · rw [List.append_nil, hlen]
    exact recordsOf_truncate hcomplete.ge
  · rw [List.append_nil, hlen]
    exact hcomplete.ge
  · rw [List.append_nil, hlen]
    exact hcomplete.trans_lt (by omega)
  · rw [hlen]
    exact hcomplete
  · rw [← hlive']
    rfl
  · rw [hlen]
    exact hcomplete

end FilePair

/-! ### Layers -/

namespace LsmtRw

open FilePair

/-- **A layer that is in use**: created, or opened from any directory that is accepted, and then used with any outcome.
A file has at most `kMaxFileSize` bytes. -/
inductive Used : LsmtRw → Prop where
  | create {vsize : ℕ} {uuid : List UInt8} {faults : ℕ → Option Fault} {s : LsmtRw}
      (h : LsmtRw.create vsize uuid faults = .ok s) : Used s
  | opened {d : Disk} {p : FilePair} (hsize : d.data.size ≤ kMaxFileSize) (ho : openSync d = .ok p) : Used (fromPair p)
  | call {s : LsmtRw} (h : Used s) (op : Op) : Used (op.run s).2

theorem mapInv_of_fresh {p : FilePair} (h : Fresh p) : ∃ records, MapInv LedgerInv (fromPair p) records := by
  obtain ⟨raw, r, hl, hsize, hp, hg, hmap, hdata, hle⟩ := h
  have hb : Booked p (Replay.liveRecords raw) := ⟨raw, r, rfl, hl, hsize, hp, hg⟩
  refine ⟨Replay.liveRecords raw, hb.inv, hdata.trans_le hle, fun a ha hz => ?_,
    (fun hbad => nomatch hp.symm.trans hbad), fun _ => rfl, fun _ x => ?_⟩
  · show a.moffset + a.length ≤ p.dataBytes / kAlignment
    rw [← hdata]
    exact ((hl.within a ha).backed hz).2
  · show resolve p.mappings x = _
    rw [hmap]
    exact hl.ok.2 x

/-- **Every state of a layer in use.** -/
theorem Used.inv {s : LsmtRw} (h : Used s) : Wf s ∧ ∃ records, MapInv LedgerInv s records := by
  induction h with
  | @create vsize uuid faults s h =>
    obtain ⟨data, index, n, p, -, hdata, -, ho, rfl⟩ := create_eq_ok h
    have hsize : (newDisk data index faults).data.size ≤ kMaxFileSize := (size_region hdata).trans_le (by decide)
    exact ⟨wf_fromPair (opened_of_openSync ho), mapInv_of_fresh (fresh_of_openSync hsize ho)⟩
  | opened hsize ho => exact ⟨wf_fromPair (opened_of_openSync ho), mapInv_of_fresh (fresh_of_openSync hsize ho)⟩
  | call _ op ih =>
    obtain ⟨hw, records, hinv⟩ := ih
    exact state_of_wp (wp_mono (Op.inv ledgerRules hinv hw op) (fun _ _ h' => h'.1) fun _ _ h' => h')

end LsmtRw

end OverlayBD
