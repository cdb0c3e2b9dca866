import Mathlib.Data.List.Induction
import OverlayBD.Format.LsmtPairOpen

/-!
# Logs that replay

The log of a pair as a list of records, apart from the file it is kept in.

* `Replay.liveOf` — the runs a log leaves, limits aside.
* `Replay.Replays` — every record fits the device and the payload, and no limit is met on the way.  Prefixes of such a
  log, and the log against a larger device or payload, are such logs again.
* `Replay.Distinct` — no two DATA records name the same payload.
* `Replay.load_of_replays` — such a log is accepted and denotes its map.
* `Replay.within_of_load` — an accepted log fits the payload it was read against.
* `FilePair.replaceRange_map` — the admission test of `append` follows the replay.
* `openSync_of_log` — opening a pair whose index holds such a log.
-/

namespace OverlayBD

open Intervals SegmentMapping Bytes Errno

namespace Replay

/-! ### The runs of a log -/

/-- The map after one record. -/
def liveStep (live : List SegmentMapping) (m : SegmentMapping) : List SegmentMapping :=
  placeSorted (eraseRange m.offset m.stop live) (normalize m)

/-- The map after a log, oldest record first. -/
def liveOf (ms : List SegmentMapping) : List SegmentMapping := ms.foldl liveStep []

@[simp] theorem liveOf_nil : liveOf [] = [] := rfl

theorem liveOf_concat (ms : List SegmentMapping) (m : SegmentMapping) : liveOf (ms ++ [m]) = liveStep (liveOf ms) m := by
  rw [liveOf, List.foldl_append]
  rfl

theorem liveOf_spec {ms : List SegmentMapping} (h : ∀ m ∈ ms, 0 < m.length ∧ m.length ≤ kMaxLength) :
    IndexWf (liveOf ms) ∧ ∀ x, resolve (liveOf ms) x = logMap ms x := by
  induction ms using List.reverseRecOn with
  | nil => exact ⟨indexWf_nil, fun _ => rfl⟩
  | append_singleton ms m ih =>
    obtain ⟨hpos, hlen⟩ := h m (by simp)
    obtain ⟨hwf, hres⟩ := ih fun m hm => h m (List.mem_append_left _ hm)
    obtain ⟨hwf', hres'⟩ := live_append (r := ⟨0, 0, 0, liveOf ms⟩) hwf hpos hlen
    rw [liveOf_concat]
    refine ⟨hwf', fun x => ?_⟩
    rw [logMap_concat, ← funext hres]
    exact hres' x

/-- A sorted list of runs is its own log. -/
theorem liveOf_of_indexWf {l : List SegmentMapping} (h : IndexWf l) : liveOf l = l.map normalize := by
  induction l using List.reverseRecOn with
  | nil => rfl
  | append_singleton l m ih =>
    have hbefore : ∀ s ∈ l.map normalize, s.stop ≤ m.offset ∧ s.offset < m.offset := by
      intro s hs
      obtain ⟨t, ht, rfl⟩ := List.mem_map.mp hs
      have hpos := h.proper t (List.mem_append_left _ ht)
      have hle : t.stop ≤ m.offset := (List.pairwise_append.mp h.ordered).2.2 t ht m (List.mem_singleton_self m)
      simp only [lo_eq, hi_eq] at hpos
      exact ⟨hle, hpos.trans_le hle⟩
    have herase : eraseRange m.offset m.stop (l.map normalize) = l.map normalize := by
      have htrim : ∀ s ∈ l.map normalize, trim m.offset m.stop s = [s] := fun s hs => if_pos (.inl (hbefore s hs).1)
      rw [eraseRange, List.flatMap_congr htrim]
      exact List.flatMap_singleton' _
    have htake : (l.map normalize).takeWhile (fun s => decide (s.offset < m.offset)) = l.map normalize :=
      List.takeWhile_eq_self_iff.mpr fun s hs => decide_eq_true (hbefore s hs).2
    have hdrop : (l.map normalize).dropWhile (fun s => decide (s.offset < m.offset)) = [] :=
      List.dropWhile_eq_nil_iff.mpr fun s hs => decide_eq_true (hbefore s hs).2
    rw [liveOf_concat, ih (h.sublist (List.sublist_append_left _ _)), liveStep, herase, placeSorted, List.map_append]
    show (l.map normalize).takeWhile (fun s => decide (s.offset < m.offset)) ++
      normalize m :: (l.map normalize).dropWhile (fun s => decide (s.offset < m.offset)) = _
    rw [htake, hdrop]
    rfl

/-! ### Logs without an error -/

/-- **A log that replays** over `sectors` of device and `dataSectors` of payload. -/
structure Replays (sectors dataSectors : ℕ) (ms : List SegmentMapping) : Prop where
  within : ∀ m ∈ ms, Within sectors dataSectors m
  count : ms.length ≤ kMaxLogRecords
  live : ∀ k, (liveOf (ms.take k)).length ≤ kMaxRoIndexSize

theorem Within.mono {sectors dataSectors sectors' dataSectors' : ℕ} {m : SegmentMapping}
    (h : Within sectors dataSectors m) (hs : sectors ≤ sectors') (hd : dataSectors ≤ dataSectors') :
    Within sectors' dataSectors' m :=
  ⟨h.length_pos, h.length_le, h.stop_le.trans hs, fun hz => ⟨(h.backed hz).1, (h.backed hz).2.trans hd⟩⟩

section Replays

variable {sectors dataSectors : ℕ} {ms : List SegmentMapping}

theorem replays_nil : Replays sectors dataSectors [] :=
  ⟨(fun _ h => nomatch h), Nat.zero_le _, fun k => by rw [List.take_nil]; exact Nat.zero_le _⟩

theorem Replays.mono {sectors' dataSectors' : ℕ} (h : Replays sectors dataSectors ms) (hs : sectors ≤ sectors')
    (hd : dataSectors ≤ dataSectors') : Replays sectors' dataSectors' ms :=
  ⟨fun m hm => (h.within m hm).mono hs hd, h.count, h.live⟩

theorem Replays.take (h : Replays sectors dataSectors ms) (k : ℕ) : Replays sectors dataSectors (ms.take k) := by
  refine ⟨fun m hm => h.within m (List.mem_of_mem_take hm), ?_, fun j => ?_⟩
  · exact (List.length_take_le' _ _).trans h.count
  · rw [List.take_take]
    exact h.live _

theorem Replays.live_all (h : Replays sectors dataSectors ms) : (liveOf ms).length ≤ kMaxRoIndexSize := by
  have := h.live ms.length
  rwa [List.take_length] at this

/-- **One more record.** -/
theorem Replays.concat {m : SegmentMapping} (h : Replays sectors dataSectors ms) (hm : Within sectors dataSectors m)
    (hcount : ms.length < kMaxLogRecords) (hlive : (liveStep (liveOf ms) m).length ≤ kMaxRoIndexSize) :
    Replays sectors dataSectors (ms ++ [m]) := by
  refine ⟨fun m' hm' => ?_, by rw [List.length_append]; exact hcount, fun k => ?_⟩
  · rcases List.mem_append.mp hm' with hold | hnew
    · exact h.within m' hold
    · rw [List.mem_singleton.mp hnew]
      exact hm
  · rcases Nat.lt_or_ge ms.length k with hlt | hge
    · rw [List.take_of_length_le (by rw [List.length_append]; exact hlt), liveOf_concat]
      exact hlive
    · rw [List.take_append_of_le_length hge]
      exact h.live k

theorem Replays.lengths (h : Replays sectors dataSectors ms) : ∀ m ∈ ms, 0 < m.length ∧ m.length ≤ kMaxLength :=
  fun m hm => ⟨(h.within m hm).length_pos, (h.within m hm).length_le⟩

/-- The replay of such a log. -/
theorem Replays.fold (h : Replays sectors dataSectors ms) (hs : sectors ≤ kMaxOffset) :
    ms.foldlM append ⟨sectors, dataSectors, 0, []⟩ = some ⟨sectors, dataSectors, ms.length, liveOf ms⟩ := by
  induction ms using List.reverseRecOn with
  | nil => rfl
  | append_singleton ms m ih =>
    have hprefix : Replays sectors dataSectors ms := by
      have := h.take ms.length
      rwa [List.take_left] at this
    have hcount := h.count
    have hlive := h.live_all
    rw [liveOf_concat] at hlive
    rw [List.length_append, List.length_singleton] at hcount
    rw [List.foldlM_append, ih hprefix]
    show (append ⟨sectors, dataSectors, ms.length, liveOf ms⟩ m).bind _ = _
    rw [append_eq_some (r := ⟨sectors, dataSectors, ms.length, liveOf ms⟩) (h.within m (by simp)) hs hcount hlive,
      liveOf_concat, List.length_append, List.length_singleton]
    rfl

end Replays

/-! ### Payload that is named once -/

/-- Two records that share no payload. -/
def SharesNothing (a b : SegmentMapping) : Prop :=
  a.zeroed = false → b.zeroed = false → a.moffset + a.length ≤ b.moffset ∨ b.moffset + b.length ≤ a.moffset

/-- No two DATA records of the log name the same payload. -/
def Distinct (ms : List SegmentMapping) : Prop := ms.Pairwise SharesNothing

variable {ms : List SegmentMapping}

theorem Distinct.take (h : Distinct ms) (k : ℕ) : Distinct (ms.take k) :=
  List.Pairwise.sublist (List.take_sublist k ms) h

theorem Distinct.concat {m : SegmentMapping} (h : Distinct ms)
    (hm : ∀ a ∈ ms, SharesNothing a m) : Distinct (ms ++ [m]) :=
  List.pairwise_append.mpr ⟨h, List.pairwise_singleton _ _, fun a ha b hb => by
    rw [List.mem_singleton.mp hb]
    exact hm a ha⟩

/-- A sector of the map of a log comes from one of its records. -/
theorem exists_record_of_logMap {x : ℕ} {p : Place} (h : logMap ms x = some p) :
    ∃ m ∈ ms, Covers m x ∧ m.place x = p := by
  induction ms using List.reverseRecOn with
  | nil => exact nomatch h
  | append_singleton ms m ih =>
    rw [logMap_concat, SectorMap.assign] at h
    by_cases hc : Covers m x
    · rw [if_pos hc] at h
      exact ⟨m, by simp, hc, Option.some.inj h⟩
    · rw [if_neg hc] at h
      obtain ⟨a, ha, hca, hpa⟩ := ih h
      exact ⟨a, List.mem_append_left _ ha, hca, hpa⟩

/-- The runs of a map without shared payload. -/
theorem distinct_of_exclusive {l : List SegmentMapping} (h : IndexWf l) (hx : SectorMap.Exclusive (resolve l)) :
    Distinct l := by
  refine List.Pairwise.imp_of_mem (fun {a b} ha hb hab hza hzb => ?_) h.ordered
  by_contra hn
  have hpa := h.proper a ha
  have hpb := h.proper b hb
  simp only [lo_eq, hi_eq] at hpa hpb hab
  -- a payload sector of both runs, and where each maps it
  have hcover : ∀ m ∈ l, m.zeroed = false → ∀ p, m.moffset ≤ p → p < m.moffset + m.length →
      resolve l (m.offset + (p - m.moffset)) = some (.data p) := by
    intro m hm hz p h1 h2
    rw [resolve, h.ordered.lookup_of_mem hm (by simp only [covers_iff]; omega), place, if_neg (by simp [hz])]
    congr 2
    omega
  have h1 := hcover a ha hza (max a.moffset b.moffset) (le_max_left _ _) (by omega)
  have h2 := hcover b hb hzb (max a.moffset b.moffset) (le_max_right _ _) (by omega)
  have := hx _ _ _ h1 h2
  omega

theorem exclusive_logMap (h : Distinct ms) : SectorMap.Exclusive (logMap ms) := by
  intro x y p hx hy
  obtain ⟨a, ha, hca, hpa⟩ := exists_record_of_logMap hx
  obtain ⟨b, hb, hcb, hpb⟩ := exists_record_of_logMap hy
  have hza : a.zeroed = false := by
    cases hz : a.zeroed
    · rfl
    · simp [place, hz] at hpa
  have hzb : b.zeroed = false := by
    cases hz : b.zeroed
    · rfl
    · simp [place, hz] at hpb
  simp only [place, hza, hzb, Bool.false_eq_true, if_false, Place.data.injEq] at hpa hpb
  simp only [covers_iff] at hca hcb
  by_cases hab : a = b
  · subst hab
    omega
  · have hsymm : Std.Symm SharesNothing := ⟨fun a b h ha hb => (h hb ha).symm⟩
    have := List.Pairwise.forall h ha hb hab hza hzb
    omega

/-! ### Accepted logs -/

/-- **A log that replays is accepted.** -/
theorem load_of_replays {virtualSize dataBytes : ℕ} {index : File}
    (h0 : virtualSize ≠ 0) (ha : virtualSize % kAlignment = 0) (hm : virtualSize / kAlignment ≤ kMaxOffset)
    (hd : kSpace ≤ dataBytes) (hda : dataBytes % kAlignment = 0) (hdm : dataBytes / kAlignment < kMaxMoffset)
    (hrec : recordsOf index ms.length = ms)
    (hr : Replays (virtualSize / kAlignment) (dataBytes / kAlignment) ms) (hx : Distinct ms) :
    load virtualSize dataBytes index ms.length = some (liveOf ms) := by
  obtain ⟨hwf, hres⟩ := liveOf_spec hr.lengths
  have hfin : finish ⟨virtualSize / kAlignment, dataBytes / kAlignment, ms.length, liveOf ms⟩ = some (liveOf ms) :=
    (finish_iff (r := ⟨virtualSize / kAlignment, dataBytes / kAlignment, ms.length, liveOf ms⟩) hwf).mpr
      (by rw [show resolve (liveOf ms) = logMap ms from funext hres]; exact exclusive_logMap hx)
  rw [load_eq, start, if_neg (by omega), Option.bind_some, hrec, hr.fold hm, Option.bind_some, hfin]

/-- The records of an accepted log fit. -/
theorem within_of_fold {r r' : Replay} (hlen : ∀ m ∈ ms, m.length ≤ kMaxLength) (h : ms.foldlM append r = some r') :
    ∀ m ∈ ms, m.offset ≠ kInvalidOffset → Within r.sectors r.dataSectors m := by
  induction ms generalizing r with
  | nil => exact fun m hm => nomatch hm
  | cons m ms ih =>
    rw [List.foldlM_cons] at h
    obtain ⟨r₁, h1, h2⟩ := Option.bind_eq_some_iff.mp h
    have hstep : r₁.sectors = r.sectors ∧ r₁.dataSectors = r.dataSectors ∧
        (m.offset ≠ kInvalidOffset → Within r.sectors r.dataSectors m) := by
      simp only [append] at h1
      split_ifs at h1 with h3 h4 h5 h6 h7
      · obtain rfl := Option.some.inj h1
        exact ⟨rfl, rfl, fun hn => absurd h4 hn⟩
      · obtain rfl := Option.some.inj h1
        refine ⟨rfl, rfl, fun _ => ⟨by omega, hlen m (by simp), by simp only [stop]; omega, fun hz => ?_⟩⟩
        have := not_and.mp h6 hz
        omega
    intro a ha hn
    rcases List.mem_cons.mp ha with rfl | ha
    · exact hstep.2.2 hn
    · have := ih (fun m hm => hlen m (List.mem_cons_of_mem _ hm)) h2 a ha hn
      rwa [hstep.1, hstep.2.1] at this

theorem within_of_load {virtualSize dataBytes count : ℕ} {index : File} {live : List SegmentMapping}
    (h : load virtualSize dataBytes index count = some live) :
    ∀ m ∈ recordsOf index count, m.offset ≠ kInvalidOffset →
      Within (virtualSize / kAlignment) (dataBytes / kAlignment) m := by
  rw [load_eq] at h
  obtain ⟨r, hr, h⟩ := Option.bind_eq_some_iff.mp h
  obtain ⟨r', hr', -⟩ := Option.bind_eq_some_iff.mp h
  obtain rfl := start_eq hr
  refine within_of_fold (fun m hm => ?_) hr'
  obtain ⟨i, -, rfl⟩ := List.mem_map.mp hm
  exact length_loadSegmentLe _

end Replay

/-! ### The admission test -/

namespace FilePair

/-- The bounds of a run, as `live_ranges_` keeps them. -/
def bounds (m : SegmentMapping) : ℕ × ℕ := (m.offset, m.stop)

theorem trimRange_bounds (lo hi : ℕ) (s : SegmentMapping) :
    trimRange lo hi (bounds s) = (trim lo hi s).map bounds := by
  unfold trimRange trim bounds
  by_cases h1 : s.stop ≤ lo ∨ hi ≤ s.offset
  · rw [if_pos h1, if_pos h1]
    rfl
  · rw [if_neg h1, if_neg h1, List.map_append]
    simp only [stop] at h1
    congr 1
    · by_cases h2 : s.offset < lo
      · rw [if_pos h2, if_pos h2]
        simp only [List.map_singleton, takeHead_offset, stop, takeHead_length]
        congr 2
        omega
      · rw [if_neg h2, if_neg h2]
        rfl
    · by_cases h3 : hi < s.stop
      · rw [if_pos h3, if_pos h3]
        simp only [stop] at h3
        simp only [List.map_singleton, dropHead_offset, stop, dropHead_length]
        congr 2 <;> omega
      · rw [if_neg h3, if_neg h3]
        rfl

/-- **The admission test follows the replay.** -/
theorem replaceRange_map (live : List SegmentMapping) (m : SegmentMapping) :
    replaceRange (live.map bounds) m = (Replay.liveStep live m).map bounds := by
  have hrest : (live.map bounds).flatMap (trimRange m.offset m.stop)
      = (eraseRange m.offset m.stop live).map bounds := by
    rw [eraseRange, List.flatMap_map, List.map_flatMap]
    exact List.flatMap_congr fun s _ => trimRange_bounds _ _ s
  unfold replaceRange
  dsimp only
  rw [hrest, Replay.liveStep, placeSorted, List.map_append, List.map_cons, List.takeWhile_map, List.dropWhile_map]
  rfl

/-! ### A pair with a log -/

/-- **Payload and log of a pair**, perhaps with part of one more record, over a device of `sectors`. -/
structure Body (d : Disk) (sectors : ℕ) (records : List SegmentMapping) : Prop where
  data_ge : kSpace ≤ d.data.size
  data_lt : d.data.size / kAlignment < kMaxMoffset
  log : Replay.recordsOf d.index records.length = records
  index_ge : kSpace + 16 * records.length ≤ d.index.size
  index_lt : d.index.size < kSpace + 16 * (records.length + 1)
  replays : Replay.Replays sectors (d.data.size / kAlignment) records
  distinct : Replay.Distinct records

/-- **The directory of a pair** with this header and this log, and no grow under way. -/
structure LogOn (d : Disk) (header : HeaderTrailer) (records : List SegmentMapping) : Prop extends
    Body d (header.virtualSize / kAlignment) records where
  valid : PairHeader header
  dataRegion : header.serialize = some (d.data.read 0 kSpace)
  indexRegion : (indexHeader header).serialize = some (d.index.read 0 kSpace)
  intent : d.growIntent = none

section LogOn

variable {d : Disk} {header : HeaderTrailer} {records : List SegmentMapping}

theorem Body.completeIndex {sectors : ℕ} (h : Body d sectors records) : completeIndex d.index.size = kSpace + 16 * records.length := by
  have h1 := h.index_ge
  have h2 := h.index_lt
  unfold FilePair.completeIndex
  omega

/-- The complete sectors of the payload. -/
theorem Body.complete {sectors : ℕ} (h : Body d sectors records) :
    kSpace ≤ d.data.size / kAlignment * kAlignment ∧ d.data.size / kAlignment * kAlignment % kAlignment = 0 ∧
      d.data.size / kAlignment * kAlignment / kAlignment = d.data.size / kAlignment := by
  have := h.data_ge
  refine ⟨?_, Nat.mul_mod_left _ _, Nat.mul_div_cancel _ (by decide)⟩
  simp only [kSpace, kAlignment] at *
  omega

/-- **The log passes the checks of a header** whose capacity it was written for. -/
theorem Body.accepted (h : Body d (header.virtualSize / kAlignment) records) (hp : PairHeader header) :
    validatePair header (indexHeader header) (d.data.size / kAlignment * kAlignment) (FilePair.completeIndex d.index.size)
        = some records.length ∧
      Replay.load header.virtualSize (d.data.size / kAlignment * kAlignment) d.index records.length
        = some (Replay.liveOf records) := by
  obtain ⟨hge, hmod, hsize⟩ := h.complete
  constructor
  · rw [h.completeIndex]
    exact hp.validatePair_eq records.length hge hmod (hsize.symm ▸ h.data_lt) h.replays.count
  · exact Replay.load_of_replays hp.capacity_pos hp.capacity_aligned hp.capacity_le hge hmod
      (hsize.symm ▸ h.data_lt) h.log (hsize.symm ▸ h.replays) h.distinct

/-- **Opening a pair with a log.** -/
theorem openSync_of_log (h : LogOn d header records) (hseal : sealedTrailer d.data = false) :
    openSync d = .ok (opened d header (Replay.liveOf records)) := by
  have hp := h.valid
  obtain ⟨hvalid, hload⟩ := h.accepted hp
  exact openSync_of_valid h.data_ge (HeaderTrailer.parse_serialize hp.fits h.dataRegion) hp.not_isSealed hseal
    ((Nat.le_add_right _ _).trans h.index_ge) h.intent (HeaderTrailer.parse_serialize hp.fits_index h.indexRegion)
    hvalid hload

/-- The records in front of a cut. -/
theorem recordsOf_truncate {index : File} {n k : ℕ} (hk : kSpace + 16 * k ≤ n) :
    Replay.recordsOf (index.truncate n) k = Replay.recordsOf index k := by
  refine List.map_congr_left fun i hi => ?_
  have := List.mem_range.mp hi
  rw [File.read_truncate (by omega)]

theorem recordsOf_take (index : File) {k n : ℕ} (h : k ≤ n) :
    Replay.recordsOf index k = (Replay.recordsOf index n).take k := by
  rw [Replay.recordsOf, Replay.recordsOf, ← List.map_take, List.take_range, Nat.min_eq_left h]

/-- **A cut of the index** leaves the records that are complete. -/
theorem LogOn.cut (h : LogOn d header records) {n : ℕ} (hn : kSpace ≤ n) (hle : n ≤ d.index.size) :
    LogOn { d with index := d.index.truncate n } header (records.take ((n - kSpace) / 16)) := by
  have hlt := h.index_lt
  have hk : (n - kSpace) / 16 ≤ records.length := by omega
  have hlen : (records.take ((n - kSpace) / 16)).length = (n - kSpace) / 16 := List.length_take_of_le hk
  refine ⟨⟨h.data_ge, h.data_lt, ?_, ?_, ?_, h.replays.take _, h.distinct.take _⟩, h.valid, h.dataRegion, ?_, h.intent⟩
  · rw [hlen]
    show Replay.recordsOf (d.index.truncate n) _ = _
    rw [recordsOf_truncate (by omega), recordsOf_take _ hk, h.log]
  · show kSpace + 16 * (records.take ((n - kSpace) / 16)).length ≤ n
    omega
  · show n < kSpace + 16 * ((records.take ((n - kSpace) / 16)).length + 1)
    omega
  · rw [h.indexRegion]
    exact congrArg some (File.read_truncate (by omega)).symm

end LogOn

end FilePair

end OverlayBD
