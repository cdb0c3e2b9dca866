import OverlayBD.Format.LsmtReplay
import OverlayBD.Format.MergeAccepted

/-!
# Opening a sealed layer (`LsmtLayer::open`, `open_warp`)

A sealed layer is a data file whose first 4096 bytes are a header, whose last 4096 bytes are a trailer, and whose
index lies between the payload and the trailer.  Warp metadata may refer to a second file, the target; its sectors are
numbered behind those of the metadata.

## The model

* `openImpl` — every check of the source in its order; `none` is the exception it throws.  Reads of the blob succeed: a
  read that fails makes the call fail.
* `checkExtent` — the checks of one record, and the record as it is kept.

## What is proved

* `accepted_of_open` — the index of an accepted layer is in order, and its lengths are those of the encoding.
* `backed_of_open` — every DATA record lies inside the blob it is read from.
* `openImpl_of_parts` — a file with a valid header, trailer and records is accepted.
-/

namespace OverlayBD

open Intervals SegmentMapping Bytes

namespace LsmtLayer

/-- `kFlagShiftHybridRw`. -/
def kFlagShiftHybridRw : ℕ := 5

/-- The flags a Hybrid region may carry. -/
def kHybridFlags : ℕ := 2 ^ 0 + 2 ^ 1 + 2 ^ 2 + 2 ^ 5

/-- The largest `uint64_t`. -/
def kMaxU64 : ℕ := 2 ^ 64 - 1

/-- The records of an index region, as they are stored. -/
def storedRecords (src : File) (off count : ℕ) : List SegmentMapping :=
  (List.range count).map fun i => loadSegmentLe (src.read (off + 16 * i) 16)

/-- The first sector of the target behind `size` bytes of metadata, in bytes. -/
def targetBase (size : ℕ) : ℕ := (size + kAlignment - 1) / kAlignment * kAlignment

/-- The bounds of a record that refers to the layer's own file. -/
def checkMapped (tht : HeaderTrailer) (hybrid : Bool) (m : SegmentMapping) : Option SegmentMapping :=
  let fin := tht.indexOffset / kAlignment
  let unbackedHybridZero := hybrid && m.zeroed && decide (m.moffset = kMaxMoffset)
  let ok :=
    if m.zeroed then unbackedHybridZero || decide (kDataStartSector ≤ m.moffset ∧ m.moffset ≤ fin)
    else decide (kDataStartSector ≤ m.moffset ∧ m.moffset < fin ∧ kDataStartSector < m.mend ∧ m.mend ≤ fin)
  if ok then some m else none

/-- The checks of a record of warp metadata. -/
def checkWarp (tht : HeaderTrailer) (hybrid : Bool) (target : File) (base minTag : ℕ) (m : SegmentMapping) :
    Option SegmentMapping :=
  if 1 < m.tag - minTag then none
  else if m.length = 0 ∨ kMaxOffset < m.stop ∨ tht.virtualSize % kAlignment ≠ 0 ∨
      tht.virtualSize / kAlignment < m.stop then none
  else if m.zeroed then some { m with tag := 0 }
  else if m.tag - minTag = 1 then
    let sectors := target.size / kAlignment
    if sectors < m.moffset ∨ sectors - m.moffset < m.length then none
    else some { m with tag := 0, moffset := m.moffset + base / kAlignment }
  else checkMapped tht hybrid { m with tag := 0 }

/-- The checks of one record; what is kept of it. -/
def checkExtent (tht : HeaderTrailer) (hybrid : Bool) (target : Option File) (base minTag : ℕ) (m : SegmentMapping) :
    Option SegmentMapping :=
  if hybrid = true ∧ (m.length = 0 ∨ tht.virtualSize % kAlignment ≠ 0 ∨ tht.virtualSize / kAlignment < m.stop) then none
  else
    match target with
    | none => checkMapped tht hybrid m
    | some target => checkWarp tht hybrid target base minTag m

/-- The records that are kept, tags cleared unless they select a source. -/
def keptRecords (src : File) (target : Option File) (tht : HeaderTrailer) : List SegmentMapping :=
  ((storedRecords src tht.indexOffset tht.indexSize).filter fun s => decide (s.offset ≠ kInvalidOffset)).map fun s =>
    if target.isNone then { s with tag := 0 } else s

/-- `segments[i - 1].end() <= segments[i].offset` for all `i`. -/
def inOrder : List SegmentMapping → Bool
  | s :: t :: rest => decide (s.stop ≤ t.offset) && inOrder (t :: rest)
  | _ => true

/-- The checks on header and trailer; whether the layer is a Hybrid one. -/
def checkRegions (src : File) (target : Option File) (hht tht : HeaderTrailer) : Option Bool :=
  let hybrid := hht.getFlagBit kFlagShiftHybridRw
  if hht.getFlagBit 0 = false ∨ hht.getFlagBit 1 = false then none
  else if tht.getFlagBit 0 = true ∨ tht.getFlagBit 1 = false ∨ tht.isSealed = false then none
  else if hybrid ≠ tht.getFlagBit kFlagShiftHybridRw then none
  else if hybrid = true ∧ (target.isSome = true ∨ hht.flags.land (2 ^ 32 - 1 - kHybridFlags) ≠ 0 ∨
      tht.flags.land (2 ^ 32 - 1 - kHybridFlags) ≠ 0 ∨ hht.version ≠ 1 ∨ hht.subVersion ≠ 1 ∨ tht.version ≠ 1 ∨
      tht.subVersion ≠ 1) then none
  else if kMaxRoIndexSize < tht.indexSize then none
  else if tht.indexOffset < kSpace ∨ src.size - kSpace < tht.indexOffset ∨
      src.size - kSpace - tht.indexOffset < tht.indexSize * kEncodedSize then none
  else some hybrid

/-- The checks a target brings. -/
def checkTarget (src : File) (target : Option File) (tht : HeaderTrailer) : Bool :=
  match target with
  | none => true
  | some target =>
    decide (tht.virtualSize % kAlignment = 0 ∧ src.size ≤ kMaxU64 - (kAlignment - 1) ∧
      target.size ≤ kMaxU64 - targetBase src.size)

/-- `open_impl`: the segments and the trailer. -/
def openImpl (src : File) (target : Option File) : Option (List SegmentMapping × HeaderTrailer) := do
  guard (2 * kSpace ≤ src.size)
  let hht ← HeaderTrailer.parse (src.read 0 kSpace)
  let tht ← HeaderTrailer.parse (src.read (src.size - kSpace) kSpace)
  let hybrid ← checkRegions src target hht tht
  let segments := keptRecords src target tht
  guard (inOrder segments)
  guard (checkTarget src target tht)
  let minTag := segments.foldl (fun t m => min t m.tag) 255
  let segments ← segments.mapM (checkExtent tht hybrid target (targetBase src.size) minTag)
  return (segments, { tht with indexSize := segments.length })

/-- The size of the blob the payload is read from. -/
def sourceSize (src : File) : Option File → ℕ
  | none => src.size
  | some target => targetBase src.size + target.size

/-- Its bytes: the metadata, zeroes up to the next sector, the target. -/
def sourceByte (src : File) (target : Option File) (i : ℕ) : UInt8 :=
  match target with
  | none => src.byte i
  | some target => if targetBase src.size ≤ i then target.byte (i - targetBase src.size) else src.byte i

/-! ### Accepted layers -/

section Accepted

variable {src : File} {target : Option File} {tht : HeaderTrailer} {hybrid : Bool} {base minTag : ℕ}

theorem checkMapped_eq {m k : SegmentMapping} (h : checkMapped tht hybrid m = some k) :
    k = m ∧ (m.zeroed = false → kDataStartSector ≤ m.moffset ∧ m.moffset + m.length ≤ tht.indexOffset / kAlignment) := by
  unfold checkMapped at h
  dsimp only at h
  split_ifs at h with hz hok hok
  · exact ⟨(Option.some.inj h).symm, fun hf => nomatch hz.symm.trans hf⟩
  · refine ⟨(Option.some.inj h).symm, fun hf => ?_⟩
    have hbounds := of_decide_eq_true hok
    rw [mend, hf] at hbounds
    exact ⟨hbounds.1, hbounds.2.2.2⟩

/-- **A kept record** covers the sectors it did when it was stored, and a DATA record lies inside a file. -/
theorem checkExtent_eq {m k : SegmentMapping} (h : checkExtent tht hybrid target base minTag m = some k) :
    k.offset = m.offset ∧ k.length = m.length ∧
      (k.zeroed = false → k.moffset + k.length ≤ tht.indexOffset / kAlignment ∨
        ∃ t, target = some t ∧ base / kAlignment ≤ k.moffset ∧
          k.moffset + k.length ≤ base / kAlignment + t.size / kAlignment) := by
  unfold checkExtent at h
  split_ifs at h
  cases target with
  | none =>
    obtain ⟨rfl, hb⟩ := checkMapped_eq h
    exact ⟨rfl, rfl, fun hz => .inl (hb hz).2⟩
  | some t =>
    simp only [checkWarp] at h
    split_ifs at h with h1 h2 hz h4 h5
    · obtain rfl := Option.some.inj h
      exact ⟨rfl, rfl, fun hf => nomatch hz.symm.trans hf⟩
    · obtain rfl := Option.some.inj h
      refine ⟨rfl, rfl, fun _ => .inr ⟨t, rfl, Nat.le_add_left _ _, ?_⟩⟩
      show m.moffset + base / kAlignment + m.length ≤ base / kAlignment + t.size / kAlignment
      omega
    · obtain ⟨rfl, hb⟩ := checkMapped_eq h
      exact ⟨rfl, rfl, fun hf => .inl (hb hf).2⟩

variable {l : List SegmentMapping}

theorem ordered_of_inOrder (h : inOrder l = true) : Ordered l := by
  induction l with
  | nil => exact ordered_nil
  | cons s rest ih =>
    cases rest with
    | nil => exact ordered_singleton s
    | cons t rest =>
      rw [inOrder, Bool.and_eq_true, decide_eq_true_eq] at h
      have hrest := ih h.2
      refine ordered_cons.mpr ⟨fun u hu => ?_, hrest⟩
      rcases List.mem_cons.mp hu with rfl | hu
      · exact h.1
      · have h1 : t.stop ≤ u.offset := hrest.head_le hu
        have h2 : s.stop ≤ t.offset := h.1
        simp only [hi_eq, lo_eq, stop] at *
        omega

variable {k : List SegmentMapping} {f : SegmentMapping → Option SegmentMapping}

theorem mapM_cons_eq_some {a : SegmentMapping}
    (h : (a :: l).mapM f = some k) : ∃ b l', f a = some b ∧ l.mapM f = some l' ∧ k = b :: l' := by
  rw [List.mapM_cons] at h
  obtain ⟨b, hb, h⟩ := Option.bind_eq_some_iff.mp h
  obtain ⟨l', hl, h⟩ := Option.bind_eq_some_iff.mp h
  exact ⟨b, l', hb, hl, (Option.some.inj h).symm⟩

theorem exists_of_mem_mapM (h : l.mapM f = some k) {b : SegmentMapping} (hb : b ∈ k) : ∃ a ∈ l, f a = some b := by
  induction l generalizing k with
  | nil =>
    obtain rfl : k = [] := by simpa using h.symm
    exact nomatch hb
  | cons a l ih =>
    obtain ⟨c, l', hc, hl, rfl⟩ := mapM_cons_eq_some h
    rcases List.mem_cons.mp hb with rfl | hb
    · exact ⟨a, List.mem_cons_self, hc⟩
    · obtain ⟨a', ha', hf⟩ := ih hl hb
      exact ⟨a', List.mem_cons_of_mem _ ha', hf⟩

/-- Order survives a map that keeps the sectors of every record. -/
theorem ordered_mapM (hf : ∀ a b, f a = some b → b.offset = a.offset ∧ b.length = a.length)
    (h : l.mapM f = some k) (hl : Ordered l) : Ordered k := by
  induction l generalizing k with
  | nil =>
    obtain rfl : k = [] := by simpa using h.symm
    exact ordered_nil
  | cons a l ih =>
    obtain ⟨b, l', hb, hl', rfl⟩ := mapM_cons_eq_some h
    refine ordered_cons.mpr ⟨fun u hu => ?_, ih hl' hl.tail⟩
    obtain ⟨v, hv, hvu⟩ := exists_of_mem_mapM hl' hu
    have h1 := hf a b hb
    have h2 := hf v u hvu
    have h3 : a.stop ≤ v.offset := hl.head_le hv
    simp only [hi_eq, lo_eq, stop] at *
    omega

variable {r : List SegmentMapping × HeaderTrailer}

/-- **What `open_impl` has checked** when it returns. -/
theorem openImpl_eq_some (h : openImpl src target = some r) :
    ∃ hht tht hybrid, 2 * kSpace ≤ src.size ∧ HeaderTrailer.parse (src.read 0 kSpace) = some hht ∧
      HeaderTrailer.parse (src.read (src.size - kSpace) kSpace) = some tht ∧
      checkRegions src target hht tht = some hybrid ∧ inOrder (keptRecords src target tht) = true ∧
      checkTarget src target tht = true ∧
      (keptRecords src target tht).mapM (checkExtent tht hybrid target (targetBase src.size)
        ((keptRecords src target tht).foldl (fun t m => min t m.tag) 255)) = some r.1 ∧
      r.2 = { tht with indexSize := r.1.length } := by
  unfold openImpl at h
  simp only [Option.bind_eq_bind, Option.bind_eq_some_iff, Option.guard_eq_some', exists_const] at h
  obtain ⟨hsize, hht, hh, tht, ht, hybrid, hr, hord, htar, segs, hsegs, h⟩ := h
  obtain rfl := Option.some.inj h
  exact ⟨hht, tht, hybrid, hsize, hh, ht, hr, hord, htar, hsegs, rfl⟩

/-- The index region lies inside the file. -/
theorem index_le_of_checkRegions {hht : HeaderTrailer} (h : checkRegions src target hht tht = some hybrid) :
    tht.indexOffset ≤ src.size - kSpace := by
  unfold checkRegions at h
  dsimp only at h
  split_ifs at h
  omega

/-- **The index of an accepted layer.** -/
theorem accepted_of_open (h : openImpl src target = some r) :
    AcceptedIndex r.1 := by
  obtain ⟨hht, tht, hybrid, -, -, -, -, hord, -, hsegs, -⟩ := openImpl_eq_some h
  refine ⟨ordered_mapM (fun a b hab => ?_) hsegs (ordered_of_inOrder hord), fun s hs => ?_⟩
  · exact ⟨(checkExtent_eq hab).1, (checkExtent_eq hab).2.1⟩
  · obtain ⟨m, hm, hms⟩ := exists_of_mem_mapM hsegs hs
    obtain ⟨m', hm', rfl⟩ := List.mem_map.mp hm
    obtain ⟨i, -, rfl⟩ := List.mem_map.mp (List.mem_filter.mp hm').1
    rw [(checkExtent_eq hms).2.1]
    have hlen : ∀ bs, (loadSegmentLe bs).length ≤ kMaxLength := Replay.length_loadSegmentLe
    split_ifs
    · exact hlen _
    · exact hlen _

/-- **DATA lies inside the blob it is read from.** -/
theorem backed_of_open (h : openImpl src target = some r) :
    ∀ s ∈ r.1, s.zeroed = false → (s.moffset + s.length) * kAlignment ≤ sourceSize src target := by
  obtain ⟨hht, tht, hybrid, hsize, -, -, hr, -, -, hsegs, -⟩ := openImpl_eq_some h
  intro s hs hz
  obtain ⟨m, -, hms⟩ := exists_of_mem_mapM hsegs hs
  have hidx : tht.indexOffset ≤ src.size := (index_le_of_checkRegions hr).trans (Nat.sub_le _ _)
  have hbase : src.size ≤ targetBase src.size := by
    simp only [targetBase, kAlignment]
    omega
  rcases (checkExtent_eq hms).2.2 hz with hin | ⟨t, rfl, -, hin⟩
  · have hle : (s.moffset + s.length) * kAlignment ≤ src.size := by
      exact (Nat.mul_le_mul_right kAlignment hin).trans ((Nat.div_mul_le_self _ _).trans hidx)
    cases target with
    | none => exact hle
    | some t => exact hle.trans (hbase.trans (Nat.le_add_right _ _))
  · calc (s.moffset + s.length) * kAlignment
        ≤ (targetBase src.size / kAlignment + t.size / kAlignment) * kAlignment := Nat.mul_le_mul_right _ hin
      _ = targetBase src.size / kAlignment * kAlignment + t.size / kAlignment * kAlignment := Nat.add_mul _ _ _
      _ ≤ targetBase src.size + t.size := Nat.add_le_add (Nat.div_mul_le_self _ _) (Nat.div_mul_le_self _ _)

end Accepted

/-! ### Files that are accepted -/

theorem mapM_eq_self {f : SegmentMapping → Option SegmentMapping} {l : List SegmentMapping}
    (h : ∀ m ∈ l, f m = some m) : l.mapM f = some l := by
  induction l with
  | nil => rfl
  | cons a l ih =>
    rw [List.mapM_cons, h a List.mem_cons_self, Option.bind_eq_bind, Option.bind_some,
      ih fun m hm => h m (List.mem_cons_of_mem _ hm)]
    rfl

/-- **A file with valid parts is accepted**, with its records as they are. -/
theorem openImpl_of_parts {src : File} {hht tht : HeaderTrailer} {hybrid : Bool} {records : List SegmentMapping}
    (hsize : 2 * kSpace ≤ src.size) (hh : HeaderTrailer.parse (src.read 0 kSpace) = some hht)
    (ht : HeaderTrailer.parse (src.read (src.size - kSpace) kSpace) = some tht)
    (hr : checkRegions src none hht tht = some hybrid) (hrec : storedRecords src tht.indexOffset tht.indexSize = records)
    (hvalid : ∀ m ∈ records, m.offset ≠ kInvalidOffset ∧ m.tag = 0) (hord : inOrder records = true)
    (hext : ∀ base minTag, ∀ m ∈ records, checkExtent tht hybrid none base minTag m = some m) :
    openImpl src none = some (records, { tht with indexSize := records.length }) := by
  have hkept : keptRecords src none tht = records := by
    have hfilter : records.filter (fun s => decide (s.offset ≠ kInvalidOffset)) = records :=
      List.filter_eq_self.mpr fun m hm => decide_eq_true (hvalid m hm).1
    rw [keptRecords, hrec, hfilter]
    refine (List.map_congr_left fun m hm => ?_).trans (List.map_id records)
    show { m with tag := 0 } = m
    rw [← (hvalid m hm).2]
  unfold openImpl
  simp only [Option.bind_eq_bind, hh, ht, hr, hkept, Option.bind_some, guard, if_pos hsize, if_pos hord,
    mapM_eq_self (hext _ _), checkTarget, if_true]
  rfl

/-- A sealed file: header, payload, records, trailer. -/
def sealedFile (header payload : List UInt8) (records : List SegmentMapping) (trailer : List UInt8) : File :=
  File.ofBytes (header ++ (payload ++ (records.flatMap storeSegmentLe ++ trailer)))

section SealedFile

variable {header payload trailer : List UInt8} {records : List SegmentMapping}

theorem size_sealedFile (hh : header.length = kSpace) (ht : trailer.length = kSpace) :
    (sealedFile header payload records trailer).size = 2 * kSpace + payload.length + 16 * records.length := by
  have hilen : (records.flatMap storeSegmentLe).length = 16 * records.length := File.length_pieces length_storeSegmentLe records
  rw [sealedFile, File.size_ofBytes]
  simp only [List.length_append, hh, ht, hilen]
  omega

/-- The three parts of a sealed file. -/
theorem read_sealedFile (hh : header.length = kSpace) (ht : trailer.length = kSpace) :
    (sealedFile header payload records trailer).read 0 kSpace = header ∧
      (sealedFile header payload records trailer).read
        ((sealedFile header payload records trailer).size - kSpace) kSpace = trailer ∧
      ((∀ m ∈ records, m.Fits) →
        storedRecords (sealedFile header payload records trailer) (kSpace + payload.length) records.length = records) := by
  refine ⟨?_, ?_, fun hfits => ?_⟩
  · have hread := File.read_ofBytes_append [] header (payload ++ (records.flatMap storeSegmentLe ++ trailer))
    rwa [hh] at hread
  · have hread := File.read_ofBytes_append (header ++ (payload ++ records.flatMap storeSegmentLe)) trailer []
    have hpos : (header ++ (payload ++ records.flatMap storeSegmentLe)).length =
        (sealedFile header payload records trailer).size - kSpace := by
      have hall : (header ++ (payload ++ records.flatMap storeSegmentLe)).length + trailer.length =
          (sealedFile header payload records trailer).size := by
        rw [sealedFile, File.size_ofBytes]
        simp only [List.length_append]
        omega
      omega
    rw [hpos, ht, List.append_nil, List.append_assoc, List.append_assoc] at hread
    exact hread
  · refine List.ext_getElem (by simp [storedRecords]) fun i hi hi' => ?_
    have hread := File.read_ofBytes_piece (header ++ payload) storeSegmentLe length_storeSegmentLe records trailer hi'
    have hload := loadSegmentLe_storeSegmentLe (hfits _ (List.getElem_mem hi')) []
    rw [List.append_nil] at hload
    rw [List.length_append, hh, List.append_assoc] at hread
    simp only [storedRecords, List.getElem_map, List.getElem_range]
    exact (congrArg loadSegmentLe hread).trans hload

/-- **A sealed file is accepted** with its records as they are. -/
theorem openImpl_sealedFile {hht tht : HeaderTrailer} {hybrid : Bool} (hh : header.length = kSpace)
    (ht : trailer.length = kSpace) (hhp : HeaderTrailer.parse header = some hht)
    (htp : HeaderTrailer.parse trailer = some tht) (hoff : tht.indexOffset = kSpace + payload.length)
    (hn : tht.indexSize = records.length)
    (hr : checkRegions (sealedFile header payload records trailer) none hht tht = some hybrid)
    (hvalid : ∀ m ∈ records, m.Fits ∧ m.offset ≠ kInvalidOffset ∧ m.tag = 0) (hord : inOrder records = true)
    (hext : ∀ base minTag, ∀ m ∈ records, checkExtent tht hybrid none base minTag m = some m) :
    openImpl (sealedFile header payload records trailer) none = some (records, tht) := by
  obtain ⟨h1, h2, h3⟩ : (sealedFile header payload records trailer).read 0 kSpace = header ∧ _ := read_sealedFile hh ht
  have hopen := openImpl_of_parts (by rw [size_sealedFile hh ht]; omega) (h1.symm ▸ hhp) (h2.symm ▸ htp) hr
    (by rw [hoff, hn]; exact h3 fun m hm => (hvalid m hm).1) (fun m hm => (hvalid m hm).2) hord hext
  rw [hopen, ← hn]

end SealedFile

/-- A region with numbers only. -/
theorem fits_plain {flags off n v : ℕ} (hflags : flags < 2 ^ 32) (hoff : off < 2 ^ 64) (hn : n < 2 ^ 64) (hv : v < 2 ^ 64) :
    HeaderTrailer.Fits { flags := flags, indexOffset := off, indexSize := n, virtualSize := v } := by
  have hempty : ∀ k, HeaderTrailer.StringFits (k + 1) [] := fun k => ⟨Nat.succ_pos k, List.not_mem_nil⟩
  refine ⟨rfl, hflags, hoff, hn, hv, hempty 36, hempty 36, Nat.two_pow_pos 16, ?_, ?_, hempty 255⟩
  · exact Nat.one_lt_two_pow (by decide)
  · exact Nat.one_lt_two_pow (by decide)

/-- The regions of an ordinary sealed layer. -/
theorem checkRegions_plain {src : File} {n v : ℕ} (hn : n ≤ kMaxRoIndexSize) (hsize : src.size = 3 * kSpace + 16 * n) :
    checkRegions src none { flags := 3, indexOffset := 0, indexSize := 0, virtualSize := v }
      { flags := 6, indexOffset := 2 * kSpace, indexSize := n, virtualSize := v } = some false := by
  have hbit : ∀ flags k off m, HeaderTrailer.getFlagBit { flags := flags, indexOffset := off, indexSize := m, virtualSize := v } k =
      decide (flags / 2 ^ k % 2 = 1) := fun _ _ _ _ => rfl
  have henc : kEncodedSize = 16 := rfl
  unfold checkRegions
  simp only [HeaderTrailer.isSealed, hbit, kFlagShiftHybridRw, henc]
  rw [if_neg (by decide), if_neg (by decide), if_neg (by decide), if_neg (by decide), if_neg (by omega), if_neg (by omega)]
  decide

/-- **Sealed layers exist** for all records that fit eight sectors of payload. -/
theorem exists_opened {records : List SegmentMapping} {v : ℕ} (hv : v < 2 ^ 64) (hcount : records.length ≤ kMaxRoIndexSize)
    (hvalid : ∀ m ∈ records, m.Fits ∧ m.offset ≠ kInvalidOffset ∧ m.tag = 0) (hord : inOrder records = true)
    (hin : ∀ m ∈ records, checkMapped { indexOffset := 2 * kSpace } false m = some m) :
    ∃ src tht, openImpl src none = some (records, tht) ∧ tht.virtualSize = v := by
  have hsmall : kMaxRoIndexSize < 2 ^ 64 := by decide
  have hhfit := fits_plain (show 3 < 2 ^ 32 by decide) (show 0 < 2 ^ 64 by decide) (show 0 < 2 ^ 64 by decide) hv
  have htfit := fits_plain (show 6 < 2 ^ 32 by decide) (show 2 * kSpace < 2 ^ 64 by decide) (hcount.trans_lt hsmall) hv
  have hhser := HeaderTrailer.serialize_of_fits hhfit
  have htser := HeaderTrailer.serialize_of_fits htfit
  generalize List.flatten _ = header at hhser
  generalize List.flatten _ = trailer at htser
  have hhlen := HeaderTrailer.length_serialize hhser
  have htlen := HeaderTrailer.length_serialize htser
  have hplen : (List.replicate kSpace (0 : UInt8)).length = kSpace := List.length_replicate
  generalize List.replicate kSpace (0 : UInt8) = payload at hplen
  have hsize : (sealedFile header payload records trailer).size = 3 * kSpace + 16 * records.length := by
    rw [size_sealedFile hhlen htlen, hplen]
    omega
  refine ⟨_, _, openImpl_sealedFile hhlen htlen (HeaderTrailer.parse_serialize hhfit hhser)
    (HeaderTrailer.parse_serialize htfit htser) ?_ rfl (checkRegions_plain hcount hsize) hvalid hord fun _ _ m hm => ?_, rfl⟩
  · show 2 * kSpace = kSpace + payload.length
    omega
  · unfold checkExtent
    rw [if_neg (fun h => nomatch h.1)]
    exact hin m hm

end LsmtLayer

end OverlayBD
