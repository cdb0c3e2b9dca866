import OverlayBD.Format.LsmtReplay

/-!
# Opening and creating a pair

What `openSync` makes of a directory, check by check.

* `openSync_of_valid` — every check passed: the pair, its mappings those of the replayed log.
* `openSync_of_sealedTrailer` — a payload whose last 4096 bytes read as a sealed trailer is refused, whatever the
  rest of the pair says.
* `opened_of_openSync` — whatever the directory held, a pair that opens satisfies `Opened`.
* `createSync_ok` — creation succeeds for every size a header can declare, and opens empty.
-/

namespace OverlayBD

open Intervals SegmentMapping Bytes Errno Effect

/-! ### Headers of a pair -/

theorem validUuid_fits {u : List UInt8} (h : validUuid u = true) : HeaderTrailer.StringFits 37 u := by
  rw [validUuid, Bool.and_eq_true, decide_eq_true_iff, List.all_eq_true] at h
  refine ⟨by omega, fun h0 => ?_⟩
  obtain ⟨i, hi⟩ := List.getElem?_of_mem h0
  have := h.2 (0, i) (List.mk_mem_zipIdx_iff_getElem?.mpr hi)
  simp only at this
  split_ifs at this
  · exact absurd this (by decide)
  · exact absurd this (by decide)

/-- The headers a writable pair has. -/
structure PairHeader (h : HeaderTrailer) : Prop where
  flags : h.flags = 3
  fits : h.Fits
  indexOffset : h.indexOffset = 0
  indexSize : h.indexSize = 0
  version : h.version = 1
  subVersion : h.subVersion = 1
  reserved : h.reserved = 0
  uuid : validUuid h.uuid = true
  parentUuid : h.parentUuid = []
  capacity_pos : h.virtualSize ≠ 0
  capacity_aligned : h.virtualSize % kAlignment = 0
  capacity_le : h.virtualSize / kAlignment ≤ kMaxOffset

theorem pairHeader_dataHeader {virtualSize : ℕ} {uuid : List UInt8} (hu : validUuid uuid = true)
    (h0 : virtualSize ≠ 0) (ha : virtualSize % kAlignment = 0) (hm : virtualSize / kAlignment ≤ kMaxOffset) :
    PairHeader (FilePair.dataHeader virtualSize uuid) := by
  have hlt : virtualSize < 2 ^ 64 := by
    simp only [kAlignment, kMaxOffset] at *
    omega
  have hempty : ∀ n, 0 < n → HeaderTrailer.StringFits n [] := fun n hn => ⟨hn, by simp⟩
  exact ⟨rfl, ⟨rfl, by simp [FilePair.dataHeader], by simp [FilePair.dataHeader], by simp [FilePair.dataHeader], hlt, validUuid_fits hu,
    hempty 37 (by omega), by simp [FilePair.dataHeader], by simp [FilePair.dataHeader], by simp [FilePair.dataHeader], hempty 256 (by omega)⟩,
    rfl, rfl, rfl, rfl, rfl, hu, rfl, h0, ha, hm⟩

namespace PairHeader

variable {h : HeaderTrailer}

theorem fits_index (hp : PairHeader h) : (FilePair.indexHeader h).Fits := by
  obtain ⟨hs, hf, ho, hi, hv, hu, hpu, hr, hve, hsu, ht⟩ := hp.fits
  exact ⟨hs, by simp [FilePair.indexHeader], by simp [FilePair.indexHeader, kSpace],
    by simp [FilePair.indexHeader], hv, hu, hpu, hr, hve, hsu, ht⟩

/-- The checks on headers and sizes, passed. -/
theorem validatePair_eq (hp : PairHeader h) {dataBytes : ℕ} (records : ℕ) (hd : kSpace ≤ dataBytes)
    (hda : dataBytes % kAlignment = 0) (hdm : dataBytes / kAlignment < kMaxMoffset) (hr : records ≤ kMaxLogRecords) :
    validatePair h (FilePair.indexHeader h) dataBytes (kSpace + 16 * records) = some records := by
  have hx : (kSpace + 16 * records - kSpace) % kEncodedSize = 0 ∧
      (kSpace + 16 * records - kSpace) / kEncodedSize = records := by
    simp only [kEncodedSize]
    omega
  unfold validatePair
  rw [if_neg (by simp [hp.flags, hp.version, hp.subVersion, hp.reserved, FilePair.indexHeader]),
    if_neg (by simp [hp.uuid, hp.parentUuid, FilePair.indexHeader]),
    if_neg (by have := hp.capacity_pos; have := hp.capacity_aligned; have := hp.capacity_le; omega),
    if_neg (by simp only [hp.indexOffset, hp.indexSize, FilePair.indexHeader, hx.1]; omega),
    if_neg (by rw [hx.2]; omega), hx.2]

theorem not_isSealed (hp : PairHeader h) : h.isSealed = false := by
  simp [HeaderTrailer.isSealed, HeaderTrailer.getFlagBit, hp.flags]

end PairHeader

/-! ### Opening -/

namespace FilePair

/-- The pair a directory opens as, its header read and its log replayed. -/
def opened (d : Disk) (header : HeaderTrailer) (live : List SegmentMapping) : FilePair where
  disk := { d with
    data := d.data.truncate ((d.data.size + kAlignment - 1) / kAlignment * kAlignment)
    index := d.index.truncate (completeIndex d.index.size) }
  header := header
  dataBytes := (d.data.size + kAlignment - 1) / kAlignment * kAlignment
  indexBytes := completeIndex d.index.size
  poisoned := false
  growthPending := false
  mappings := live
  liveRanges := live.map fun m => (m.offset, m.stop)

/-- Without an intent there is nothing to recover. -/
theorem recoverGrow_none {p : FilePair} (h : p.disk.growIntent = none) : recoverGrow p = (.ok (), p) := by
  refine eq_ok_of_wp ?_
  unfold recoverGrow
  rw [wp_bind, wp_gets, h]
  exact ⟨rfl, rfl⟩

/-- **Every check of `open_sync` passed.** -/
theorem openSync_of_valid {d : Disk} {header ih : HeaderTrailer} {count : ℕ} {live : List SegmentMapping}
    (hsize : kSpace ≤ d.data.size) (hheader : HeaderTrailer.parse (d.data.read 0 kSpace) = some header)
    (hsealed : header.isSealed = false) (htrailer : sealedTrailer d.data = false) (hisize : kSpace ≤ d.index.size)
    (hintent : d.growIntent = none) (hih : HeaderTrailer.parse (d.index.read 0 kSpace) = some ih)
    (hvalid : validatePair header ih (d.data.size / kAlignment * kAlignment) (completeIndex d.index.size) = some count)
    (hload : Replay.load header.virtualSize (d.data.size / kAlignment * kAlignment) d.index count = some live) :
    openSync d = .ok (opened d header live) := by
  have hrun : openBody (closed d) = (.ok (), opened d header live) := by
    refine eq_ok_of_wp ?_
    unfold openBody
    rw [wp_bind, wp_gets, wp_bind, wp_refuse_of_not (Nat.not_lt.mpr hsize), wp_bind, wp_need_some hheader, wp_bind,
      wp_modify, wp_bind, wp_refuse_of_not, wp_bind, wp_refuse_of_not (Nat.not_lt.mpr hisize), wp_bind,
      wp_of_eq (recoverGrow_none hintent), wp_bind, wp_gets, id_eq, wp_bind, wp_need_some hih, wp_bind, wp_need_some hvalid,
      wp_bind, wp_need_some hload, wp_modify]
    · exact ⟨rfl, rfl⟩
    · rintro (h | h)
      · rw [hsealed] at h
        exact nomatch h
      · rw [show (closed d).disk.data = d.data from rfl, htrailer] at h
        exact nomatch h
  rw [openSync, hrun]

/-- **A payload that ends like a sealed layer** is refused. -/
theorem openSync_of_sealedTrailer {d : Disk} {header : HeaderTrailer} (hsize : kSpace ≤ d.data.size)
    (hheader : HeaderTrailer.parse (d.data.read 0 kSpace) = some header) (htrailer : sealedTrailer d.data = true) :
    openSync d = .error ealready := by
  have hrun : ∃ p, openBody (closed d) = (.error ealready, p) := by
    refine eq_error_of_wp ?_
    unfold openBody
    rw [wp_bind, wp_gets, wp_bind, wp_refuse_of_not (Nat.not_lt.mpr hsize), wp_bind, wp_need_some hheader, wp_bind,
      wp_modify, wp_bind, wp_refuse_of (.inr htrailer)]
  obtain ⟨p, hp⟩ := hrun
  rw [openSync, hp]

/-- A log that does not replay is refused. -/
theorem openSync_of_not_loaded {d : Disk} {header ih : HeaderTrailer} {count : ℕ}
    (hsize : kSpace ≤ d.data.size) (hheader : HeaderTrailer.parse (d.data.read 0 kSpace) = some header)
    (hsealed : header.isSealed = false) (htrailer : sealedTrailer d.data = false) (hisize : kSpace ≤ d.index.size)
    (hintent : d.growIntent = none) (hih : HeaderTrailer.parse (d.index.read 0 kSpace) = some ih)
    (hvalid : validatePair header ih (d.data.size / kAlignment * kAlignment) (completeIndex d.index.size) = some count)
    (hload : Replay.load header.virtualSize (d.data.size / kAlignment * kAlignment) d.index count = none) :
    openSync d = .error einval := by
  have hrun : ∃ p, openBody (closed d) = (.error einval, p) := by
    refine eq_error_of_wp ?_
    unfold openBody
    rw [wp_bind, wp_gets, wp_bind, wp_refuse_of_not (Nat.not_lt.mpr hsize), wp_bind, wp_need_some hheader, wp_bind,
      wp_modify, wp_bind, wp_refuse_of_not, wp_bind, wp_refuse_of_not (Nat.not_lt.mpr hisize), wp_bind,
      wp_of_eq (recoverGrow_none hintent), wp_bind, wp_gets, id_eq, wp_bind, wp_need_some hih, wp_bind,
      wp_need_some hvalid, wp_bind, hload]
    · rfl
    · simp [hsealed, htrailer]
  obtain ⟨p, hp⟩ := hrun
  rw [openSync, hp]

/-- What every opened pair satisfies. -/
structure Opened (p : FilePair) : Prop where
  aligned : p.header.virtualSize % kAlignment = 0
  capacity : p.header.virtualSize ≤ kMaxOffset * kAlignment
  header_le : kSpace ≤ p.dataBytes
  size : p.disk.data.size = p.dataBytes
  /-- The mappings are those of a log that was accepted against the complete sectors of the payload. -/
  loaded : ∃ complete index count, complete ≤ p.dataBytes ∧
    Replay.load p.header.virtualSize complete index count = some p.mappings

/-- **Opening** succeeds only with a replayed log. -/
theorem opened_of_openSync {d : Disk} {p : FilePair} (h : openSync d = .ok p) : Opened p := by
  have hbody : wp openBody (fun _ p => Opened p) (fun _ _ => True) (closed d) := by
    unfold openBody
    rw [wp_bind, wp_gets, wp_bind, wp_refuse]
    refine ⟨fun _ => trivial, fun hsize => ?_⟩
    rw [wp_bind, wp_need]
    refine ⟨fun header _ => ?_, fun _ => trivial⟩
    rw [wp_bind, wp_modify, wp_bind, wp_refuse]
    refine ⟨fun _ => trivial, fun _ => ?_⟩
    rw [wp_bind, wp_refuse]
    refine ⟨fun _ => trivial, fun _ => ?_⟩
    rw [wp_bind]
    refine wp_mono wp_trivial (fun _ p _ => ?_) fun _ _ _ => trivial
    rw [wp_bind, wp_gets, id_eq, wp_bind, wp_need]
    refine ⟨fun ih _ => ?_, fun _ => trivial⟩
    rw [wp_bind, wp_need]
    refine ⟨fun count hcount => ?_, fun _ => trivial⟩
    rw [wp_bind, wp_need]
    refine ⟨fun live hlive => ?_, fun _ => trivial⟩
    rw [wp_modify]
    obtain ⟨ha, hc⟩ := validatePair_capacity hcount
    refine ⟨ha, hc, ?_, rfl, _, _, _, ?_, hlive⟩
    · show kSpace ≤ (d.data.size + kAlignment - 1) / kAlignment * kAlignment
      simp only [not_lt] at hsize
      change kSpace ≤ d.data.size at hsize
      simp only [kSpace, kAlignment] at *
      omega
    · show d.data.size / kAlignment * kAlignment ≤ (d.data.size + kAlignment - 1) / kAlignment * kAlignment
      exact Nat.mul_le_mul_right _ (Nat.div_le_div_right (Nat.le_add_right _ _))
  unfold openSync at h
  rcases hr : openBody (closed d) with ⟨e | a, q⟩
  · rw [hr] at h
    exact nomatch h
  · rw [hr] at h
    obtain rfl := Except.ok.inj h
    exact ok_of_wp hbody hr

/-! ### Creating -/

theorem sealedTrailer_of_short {f : File} (h : f.size < 2 * kSpace) : sealedTrailer f = false := if_pos h

theorem load_zero {virtualSize dataBytes : ℕ} (h0 : virtualSize ≠ 0) (ha : virtualSize % kAlignment = 0)
    (hm : virtualSize / kAlignment ≤ kMaxOffset) (hd : kSpace ≤ dataBytes) (hda : dataBytes % kAlignment = 0)
    (hdm : dataBytes / kAlignment < kMaxMoffset) (index : File) :
    Replay.load virtualSize dataBytes index 0 = some [] := by
  unfold Replay.load Replay.start
  rw [if_neg (by omega)]
  simp [Replay.finish, Replay.physical, Replay.overlaps]

/-- A file of one header region. -/
theorem size_region {h : HeaderTrailer} {bs : List UInt8} (hb : h.serialize = some bs) :
    (File.empty.writeBytes 0 bs).size = kSpace := File.size_writeBytes_empty.trans (HeaderTrailer.length_serialize hb)

theorem read_region {h : HeaderTrailer} {bs : List UInt8} (hb : h.serialize = some bs) :
    (File.empty.writeBytes 0 bs).read 0 kSpace = bs :=
  File.read_writeBytes_of_length (HeaderTrailer.length_serialize hb)

/-- A pair that was just created. -/
def created (virtualSize : ℕ) (uuid data index : List UInt8) (faults : ℕ → Option Fault) : FilePair :=
  ⟨newDisk data index faults, dataHeader virtualSize uuid, kSpace, kSpace, false, false, [], []⟩

section Create

variable {virtualSize : ℕ} {uuid data index : List UInt8}

/-- The two headers of a new pair open to it. -/
theorem openSync_newDisk (hp : PairHeader (dataHeader virtualSize uuid))
    (hdata : (dataHeader virtualSize uuid).serialize = some data)
    (hindex : (indexHeader (dataHeader virtualSize uuid)).serialize = some index) (faults : ℕ → Option Fault) :
    openSync (newDisk data index faults) = .ok (created virtualSize uuid data index faults) := by
  have hds : (newDisk data index faults).data.size = kSpace := size_region hdata
  have his : (newDisk data index faults).index.size = kSpace := size_region hindex
  have hheader : HeaderTrailer.parse ((newDisk data index faults).data.read 0 kSpace) =
      some (dataHeader virtualSize uuid) := by
    rw [newDisk, read_region hdata]
    exact HeaderTrailer.parse_serialize hp.fits hdata
  have hih : HeaderTrailer.parse ((newDisk data index faults).index.read 0 kSpace) =
      some (indexHeader (dataHeader virtualSize uuid)) := by
    rw [newDisk, read_region hindex]
    exact HeaderTrailer.parse_serialize hp.fits_index hindex
  have hvalid : validatePair (dataHeader virtualSize uuid) (indexHeader (dataHeader virtualSize uuid)) kSpace kSpace =
      some 0 := hp.validatePair_eq 0 le_rfl (by decide) (by decide) (Nat.zero_le _)
  have hopen := openSync_of_valid hds.ge hheader hp.not_isSealed (sealedTrailer_of_short (by rw [hds]; decide)) his.ge
    rfl hih (by rw [hds, his]; exact hvalid)
    (by rw [hds]
        exact load_zero hp.capacity_pos hp.capacity_aligned hp.capacity_le (by decide) (by decide) (by decide) _)
  have hdt : (newDisk data index faults).data.truncate kSpace = (newDisk data index faults).data := by
    conv_lhs => rw [← hds]
    exact File.truncate_size
  have hit : (newDisk data index faults).index.truncate kSpace = (newDisk data index faults).index := by
    conv_lhs => rw [← his]
    exact File.truncate_size
  rw [hopen, opened, hds, his]
  simp only [show (kSpace + kAlignment - 1) / kAlignment * kAlignment = kSpace by decide,
    show completeIndex kSpace = kSpace by decide, hdt, hit, List.map_nil]
  rfl

/-- **Creation** succeeds and opens empty. -/
theorem createSync_ok (hu : validUuid uuid = true) (h0 : virtualSize ≠ 0) (ha : virtualSize % kAlignment = 0)
    (hm : virtualSize / kAlignment ≤ kMaxOffset) (faults : ℕ → Option Fault) :
    ∃ data index, (dataHeader virtualSize uuid).serialize = some data ∧
      (indexHeader (dataHeader virtualSize uuid)).serialize = some index ∧
      openSync (newDisk data index faults) = .ok (created virtualSize uuid data index faults) ∧
      createSync virtualSize uuid faults = .ok (created virtualSize uuid data index faults) := by
  have hp := pairHeader_dataHeader hu h0 ha hm
  have hdata := HeaderTrailer.serialize_of_fits hp.fits
  have hindex := HeaderTrailer.serialize_of_fits hp.fits_index
  have hopen := openSync_newDisk hp hdata hindex faults
  have hvalid : validatePair (dataHeader virtualSize uuid) (indexHeader (dataHeader virtualSize uuid)) kSpace kSpace =
      some 0 := hp.validatePair_eq 0 le_rfl (by decide) (by decide) (Nat.zero_le _)
  refine ⟨_, _, hdata, hindex, hopen, ?_⟩
  rw [← hopen]
  unfold createSync
  simp only [hvalid, hdata, hindex]

end Create

end FilePair

end OverlayBD
