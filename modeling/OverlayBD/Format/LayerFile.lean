import OverlayBD.Format.MergedImage
import OverlayBD.Format.SparseScan

/-!
# Files the layer writers make (`format/writer.cpp`, `format/sparse_export_plan.cpp`)

A writer of a sealed layer copies runs of its input to the payload, one buffer at a time, and puts a header in front, the
index behind, and a trailer at the end.  What the three writers have in common is here: copying, the regions of the finished
file, and what a reader sees of a single layer.

## The model

* `Copy`, `copyFrom`, `copyAll` — runs of bytes copied through a buffer of 1 MiB; a read past the end of the input throws.
* `Regions` — where header, index and trailer lie in a finished file.

## What is proved

* `copyAll_spec` — copies that do not meet arrive, and nothing else changes.
* `openImpl_of_regions` — a file with these regions and valid records opens with its records as they are.
* `view_single` — a layer alone reads as its own index says.
-/

namespace OverlayBD

open Intervals SegmentMapping Bytes Errno

/-! ### Copying -/

/-- A run of bytes to copy. -/
structure Copy where
  src : ℕ
  dst : ℕ
  len : ℕ
deriving DecidableEq, Repr

/-- The size of the buffer. -/
def kCopyBuffer : ℕ := 2 ^ 20

/-- One run, `done` bytes of it copied; a short read of the input throws `eof`. -/
def copyFrom (eof : Thrown) (input : File) (c : Copy) (done : ℕ) (out : File) : Except Thrown File :=
  if done < c.len then
    let chunk := min kCopyBuffer (c.len - done)
    if input.size < c.src + done + chunk then .error eof
    else copyFrom eof input c (done + chunk) (out.write (c.dst + done) chunk fun i => input.byte (c.src + done + i))
  else .ok out
termination_by c.len - done
decreasing_by
  have : 0 < kCopyBuffer := by decide
  omega

/-- The runs one after the other. -/
def copyAll (eof : Thrown) (input : File) (copies : List Copy) (out : File) : Except Thrown File :=
  copies.foldlM (fun out c => copyFrom eof input c 0 out) out

/-- The two runs go to different places. -/
def Copy.Apart (c d : Copy) : Prop := c.dst + c.len ≤ d.dst ∨ d.dst + d.len ≤ c.dst

variable {eof : Thrown} {input out out' : File} {c : Copy} {copies : List Copy} {done : ℕ}

theorem copyFrom_spec (h : copyFrom eof input c done out = .ok out') (hle : done ≤ c.len) :
    (∀ j, out'.byte j =
        if c.dst + done ≤ j ∧ j < c.dst + c.len then input.byte (c.src + (j - c.dst)) else out.byte j) ∧
      out.size ≤ out'.size ∧ out'.size ≤ max out.size (c.dst + c.len) ∧ (done < c.len → c.src + c.len ≤ input.size) := by
  fun_induction copyFrom eof input c done out with
  | case1 => exact nomatch h
  | case2 done out hlt chunk hin ih =>
    have hpos : 0 < kCopyBuffer := by decide
    have hchunk : 0 < chunk := by omega
    obtain ⟨hbyte, hge, hsize, hsrc⟩ := ih h (by omega)
    rw [File.size_write, if_neg (by omega)] at hge hsize
    refine ⟨fun j => ?_, by omega, by omega, fun _ => ?_⟩
    · rw [hbyte j, File.byte_write]
      split_ifs with h1 h2 h3
      all_goals first | rfl | omega | skip
      congr 1
      omega
    · by_cases hrest : done + chunk < c.len
      · exact hsrc hrest
      · omega
  | case3 done out hge =>
    obtain rfl := Except.ok.inj h
    refine ⟨fun j => ?_, le_rfl, le_max_left _ _, fun hlt => absurd hlt hge⟩
    rw [if_neg (by omega)]

/-- **Copies that do not meet arrive**, and nothing else changes. -/
theorem copyAll_spec (h : copyAll eof input copies out = .ok out') (hapart : copies.Pairwise Copy.Apart) :
    (∀ c ∈ copies, ∀ i, i < c.len → out'.byte (c.dst + i) = input.byte (c.src + i)) ∧
      (∀ j, (∀ c ∈ copies, ¬ (c.dst ≤ j ∧ j < c.dst + c.len)) → out'.byte j = out.byte j) ∧
      out.size ≤ out'.size ∧ (∀ n, out.size ≤ n → (∀ c ∈ copies, c.dst + c.len ≤ n) → out'.size ≤ n) ∧
      ∀ c ∈ copies, 0 < c.len → c.src + c.len ≤ input.size := by
  induction copies generalizing out with
  | nil =>
    obtain rfl := Except.ok.inj h
    exact ⟨by simp, by simp, le_rfl, fun n hn _ => hn, by simp⟩
  | cons c copies ih =>
    rw [copyAll, List.foldlM_cons] at h
    obtain ⟨mid, hmid, hrest⟩ := bind_eq_ok.mp h
    obtain ⟨hbyte, hge, hsize, hsrc⟩ := copyFrom_spec hmid (Nat.zero_le _)
    obtain ⟨hin, hout, hge', hsize', hsrc'⟩ := ih hrest hapart.tail
    have hhead := (List.pairwise_cons.mp hapart).1
    refine ⟨fun d hd i hi => ?_, fun j hj => ?_, hge.trans hge', fun n hn hall => ?_, fun d hd hpos => ?_⟩
    · rcases List.mem_cons.mp hd with rfl | hd
      · rw [hout (d.dst + i) fun e he hmeet => ?_, hbyte, if_pos (by omega), Nat.add_sub_cancel_left]
        rcases hhead e he with hap | hap <;> omega
      · exact hin d hd i hi
    · rw [hout j fun e he => hj e (List.mem_cons_of_mem _ he), hbyte, if_neg (by simpa using hj c List.mem_cons_self)]
    · refine hsize' n (hsize.trans (max_le hn (hall c List.mem_cons_self))) fun e he => hall e (List.mem_cons_of_mem _ he)
    · rcases List.mem_cons.mp hd with rfl | hd
      · exact hsrc hpos
      · exact hsrc' d hd hpos

/-! ### Regions of a finished file -/

/-- **A finished layer file**: header in front, records at `off`, trailer at the end. -/
structure Regions (f : File) (header trailer : List UInt8) (off : ℕ) (records : List SegmentMapping) : Prop where
  fits : off + 16 * records.length + kSpace ≤ f.size
  low : kSpace ≤ off
  header : f.read 0 kSpace = header
  trailer : f.read (f.size - kSpace) kSpace = trailer
  index : f.read off (16 * records.length) = records.flatMap storeSegmentLe

/-- The records of a region that was written. -/
theorem storedRecords_of_read {f : File} {off : ℕ} {records : List SegmentMapping} (hfits : ∀ m ∈ records, m.Fits)
    (h : f.read off (16 * records.length) = records.flatMap storeSegmentLe) :
    LsmtLayer.storedRecords f off records.length = records := by
  refine List.ext_getElem (by simp [LsmtLayer.storedRecords]) fun i hi hi' => ?_
  have hread : f.read (off + 16 * i) 16 = storeSegmentLe (records[i]) := by
    have hpiece := File.read_ofBytes_piece [] storeSegmentLe length_storeSegmentLe records [] hi'
    rw [List.append_nil, List.nil_append, List.length_nil, Nat.zero_add] at hpiece
    rw [← hpiece]
    refine File.read_congr fun j hj => ?_
    have hlen : 16 * i + j < 16 * records.length := by omega
    have hbyte := congrArg (fun l => l[16 * i + j]?) h
    simp only [File.getElem?_read hlen] at hbyte
    rw [File.byte_ofBytes, List.getD_eq_getElem?_getD, ← hbyte, Option.getD_some, Nat.add_assoc]
  have hload := loadSegmentLe_storeSegmentLe (hfits _ (List.getElem_mem hi')) []
  rw [List.append_nil] at hload
  simp only [LsmtLayer.storedRecords, List.getElem_map, List.getElem_range]
  rw [hread, hload]

/-- Header and trailer of a sealed layer without further flags. -/
theorem checkRegions_sealed {src : File} {target : Option File} {hht tht : HeaderTrailer} (hh : hht.flags = 7)
    (ht : tht.flags = 6) (hn : tht.indexSize ≤ kMaxRoIndexSize) (hlow : kSpace ≤ tht.indexOffset)
    (hfits : tht.indexOffset + 16 * tht.indexSize + kSpace ≤ src.size) :
    LsmtLayer.checkRegions src target hht tht = some false := by
  have henc : kEncodedSize = 16 := rfl
  have hhbit : ∀ k, hht.getFlagBit k = decide (7 / 2 ^ k % 2 = 1) := fun k => by rw [HeaderTrailer.getFlagBit, hh]
  have htbit : ∀ k, tht.getFlagBit k = decide (6 / 2 ^ k % 2 = 1) := fun k => by rw [HeaderTrailer.getFlagBit, ht]
  unfold LsmtLayer.checkRegions
  simp only [HeaderTrailer.isSealed, hhbit, htbit, LsmtLayer.kFlagShiftHybridRw, henc]
  rw [if_neg (by decide), if_neg (by decide), if_neg (by decide), if_neg (by simp), if_neg (by omega), if_neg (by omega)]
  decide

theorem inOrder_of_ordered {l : List SegmentMapping} (h : Ordered l) : LsmtLayer.inOrder l = true := by
  induction l with
  | nil => rfl
  | cons s l ih =>
    cases l with
    | nil => rfl
    | cons t l =>
      have hst : s.stop ≤ t.offset := h.head_le List.mem_cons_self
      rw [LsmtLayer.inOrder, ih h.tail, Bool.and_true]
      exact decide_eq_true hst

/-- The numbers of a trailer. -/
structure Numbers (hdr : HeaderTrailer) (off n v : ℕ) : Prop where
  indexOffset : hdr.indexOffset = off
  indexSize : hdr.indexSize = n
  virtualSize : hdr.virtualSize = v

/-- **A file with these regions opens** with its records as they are. -/
theorem openImpl_of_regions {f : File} {header trailer : List UInt8} {records : List SegmentMapping} {off v : ℕ}
    {hht tht : HeaderTrailer} (hr : Regions f header trailer off records)
    (hh : HeaderTrailer.parse header = some hht) (ht : HeaderTrailer.parse trailer = some tht) (hhf : hht.flags = 7)
    (htf : tht.flags = 6) (hd : Numbers tht off records.length v) (hcount : records.length ≤ kMaxRoIndexSize)
    (hord : Ordered records) (hvalid : ∀ m ∈ records, m.Fits ∧ m.offset ≠ kInvalidOffset ∧ m.tag = 0)
    (hmapped : ∀ m ∈ records, LsmtLayer.checkMapped tht false m = some m) :
    LsmtLayer.openImpl f none = some (records, tht) := by
  have hfits := hr.fits
  have hlow := hr.low
  have hopen := LsmtLayer.openImpl_of_parts (by omega) (hr.header.symm ▸ hh) (hr.trailer.symm ▸ ht)
    (checkRegions_sealed hhf htf (hd.indexSize ▸ hcount) (hd.indexOffset ▸ hlow)
      (by rw [hd.indexOffset, hd.indexSize]; exact hfits))
    (by rw [hd.indexOffset, hd.indexSize]; exact storedRecords_of_read (fun m hm => (hvalid m hm).1) hr.index)
    (fun m hm => (hvalid m hm).2) (inOrder_of_ordered hord) (fun base minTag m hm => by
      rw [LsmtLayer.checkExtent, if_neg (by simp)]
      exact hmapped m hm)
  rw [hopen, ← hd.indexSize]

/-! ### A layer alone -/

/-- Over no lower levels the scan appends at most one entry for each it meets. -/
theorem length_mergeScan_le {below : ℕ → ℕ → List SegmentMapping → List SegmentMapping} (hbelow : ∀ a b o, below a b o = o)
    (level hi begin : ℕ) (l : List SegmentMapping) (lo : ℕ) (out : List SegmentMapping) :
    (mergeScan below level hi begin l lo out).length ≤ out.length + l.length := by
  induction l generalizing lo out with
  | nil =>
    rw [mergeScan]
    split_ifs
    · rw [hbelow]
      simp
    · simp
  | cons s l ih =>
    have hpush : ∀ m, (pushMerged begin out m).length ≤ out.length + 1 := by
      intro m
      unfold pushMerged
      split
      · split_ifs
        · simp
        · simp
      · simp
    rw [mergeScan]
    simp only [hbelow, ite_self]
    split_ifs
    · simp
    · exact (ih _ _).trans (by simp)
    · exact (hpush _).trans (by simp)
    · calc _ ≤ _ := ih _ _
        _ ≤ out.length + 1 + l.length := Nat.add_le_add_right (hpush _) _
        _ = out.length + (s :: l).length := by rw [List.length_cons]; omega

/-- One index of allowed size merges. -/
theorem exists_mergeIndexes {segs : List SegmentMapping} (h : segs.length ≤ kMaxRoIndexSize) :
    ∃ index, mergeIndexes [segs] = some index := by
  refine ⟨_, if_neg (Nat.not_lt.mpr ?_)⟩
  have hmax : ¬ kMaxOffset ≤ 0 := by decide
  rw [mergeRange, if_neg hmax]
  refine (length_mergeScan_le (fun a b o => by rw [mergeRange]) _ _ _ _ _ _).trans ?_
  have hdrop : (segs.dropWhile fun s => decide (s.stop ≤ 0)).length ≤ segs.length := (List.dropWhile_sublist _).length_le
  rw [List.length_nil]
  omega

/-- What the byte of an image of one file is. -/
theorem imageByte_single (f : OpenedFile) {i : ℕ} (hi : i / kAlignment < kMaxOffset) :
    imageByte [f] i =
      match resolve f.segments (i / kAlignment) with
      | some (.data q) => f.byte (q * kAlignment + i % kAlignment)
      | _ => 0 := by
  rw [imageByte, if_pos hi, List.map_singleton, topLevel, topLevel, Option.or_none]
  rcases resolve f.segments (i / kAlignment) with _ | _ | q <;> rfl

/-- A walk stops early only on an error. -/
theorem readLoop_fail_neg {src : ℕ → BlobSource} {start fin : ℕ} {l : List SegmentMapping} {cur n : ℕ} {buf : Buf} {r : ℤ}
    (h : (readLoop src start fin l cur n buf).fail = some r) : r < 0 := by
  induction l generalizing cur n buf with
  | nil =>
    rw [readLoop] at h
    split_ifs at h
    all_goals cases h
  | cons s rest ih =>
    rw [readLoop] at h
    by_cases h1 : fin ≤ cur
    · simp [if_pos h1] at h
    by_cases h2 : fin ≤ s.offset
    · simp [if_neg h1, if_pos h2] at h
    rw [if_neg h1, if_neg h2] at h
    dsimp only at h
    by_cases hz : s.zeroed = true
    · rw [if_pos hz] at h
      by_cases h3 : s.stop ≤ min s.stop fin
      · rw [if_pos h3] at h
        exact ih h
      · rw [if_neg h3] at h
        cases h
    · rw [if_neg hz] at h
      generalize hp : readPiece (src s.tag) n _ _ _ _ = piece at h
      cases hf : piece.fail with
      | some r' =>
        rw [hf] at h
        obtain rfl := Option.some.inj h
        rw [← hp, readPiece_fail] at hf
        split_ifs at hf with hneg
        exact Option.some.inj hf ▸ hneg
      | none =>
        rw [hf] at h
        dsimp only at h
        by_cases h3 : s.stop ≤ min s.stop fin
        · rw [if_pos h3] at h
          exact ih h
        · rw [if_neg h3] at h
          cases h

/-- What is served lies inside the image. -/
theorem pread_ret_le {m : MergedLsmt} {buf : Buf} {count off : ℕ} (hpos : 0 < (m.pread buf count off).ret) :
    (m.pread buf count off).ret ≤ (min count (m.vsize - off) : ℕ) := by
  by_cases hreq : off % kAlignment = 0 ∧ count % kAlignment = 0 ∧ off < m.vsize ∧ 0 < count
  · obtain ⟨hoff, hcount, hlt, hc0⟩ := hreq
    rw [pread_eq hoff hcount hlt hc0, ReadRun.result] at hpos ⊢
    cases hfail : (readLoop m.source (off / kAlignment) ((off + min count (m.vsize - off)) / kAlignment)
        (m.seek (off / kAlignment)) (off / kAlignment) 0 buf).fail with
    | none => exact le_rfl
    | some r =>
      have hneg := readLoop_fail_neg hfail
      simp only [hfail, Option.getD_some] at hpos
      omega
  · exact absurd hpos (not_lt.mpr (pread_of_not hreq))

/-- **A layer alone opens and reads as its index says**; over a source that never fails every aligned request is served. -/
theorem view_single {f : OpenedFile} {layer : LsmtLayer} (hp : layer.Presents f) (hproper : Proper f.segments)
    (hcount : f.segments.length ≤ kMaxRoIndexSize) (h0 : f.trailer.virtualSize ≠ 0)
    (hal : f.trailer.virtualSize % kAlignment = 0) :
    ∃ m, openLayers [layer] = some m ∧ m.vsize = f.trailer.virtualSize ∧ m.ReadsImage [f] ∧
      ((∀ n count off, 0 ≤ (layer.dataSource.pread n count off).ret) → ∀ out count off, off % kAlignment = 0 →
        count % kAlignment = 0 → (m.pread out count off).ret = (min count (f.trailer.virtualSize - off) : ℕ)) := by
  obtain ⟨index, hindex⟩ := exists_mergeIndexes hcount
  have hfind : [layer].find? (fun l => decide (l.virtualSize ≠ 0)) = some layer := by
    simp [hp.virtualSize, h0]
  obtain ⟨m, hm, hlayers, hv⟩ : ∃ m, openLayers [layer] = some m ∧ m.layers = [layer] ∧ m.vsize = f.trailer.virtualSize := by
    unfold openLayers
    rw [if_neg (by simp [kMaxStackLayers])]
    simp only [List.reverse_singleton, hfind, List.map_singleton, hp.segments, hindex]
    by_cases hbig : 65536 ≤ index.length
    · rw [if_pos hbig]
      exact ⟨_, rfl, rfl, hp.virtualSize⟩
    · rw [if_neg hbig]
      exact ⟨_, rfl, rfl, hp.virtualSize⟩
  have hl : List.Forall₂ LsmtLayer.Presents [layer] [f] := .cons hp .nil
  obtain ⟨hpres, hlen, hmerge, hsampled, hv64⟩ := view_of_open hl hm
  rw [List.reverse_singleton] at hpres hlen hmerge
  have hwf : IndexWf m.index := mergeIndexes_wellFormed
    (by simpa using ⟨f.accepted.ordered, hproper, f.accepted.short⟩) hmerge
  refine ⟨m, hm, hv, readsImage_of_ascends hpres hmerge hlen hsampled hv64 (hv ▸ hal) fun start _ => ?_,
    fun hsrc out count off hoff hcnt => ?_⟩
  · have hland := MergedLsmt.landed_seekPos hsampled start
    exact ascends_of_ordered (hwf.ordered.sublist (List.drop_sublist _ _)) fun s hs => (hland.past s hs).le
  · by_cases hreq : off < m.vsize ∧ 0 < count
    · rw [pread_eq hoff hcnt hreq.1 hreq.2, ReadRun.result, readLoop_ends, Option.getD_none, hv]
      intro s hs n count off
      obtain ⟨g, hg, -⟩ := exists_file hmerge hlen (List.mem_of_mem_drop hs)
      -- the one layer has tag 0
      have htag : s.tag = 0 := by
        have := (List.getElem?_eq_some_iff.mp hg).1
        simpa using this
      rw [MergedLsmt.source, hlayers, htag]
      exact hsrc n count off
    · have hzero : min count (f.trailer.virtualSize - off) = 0 := by
        rw [hv] at hreq
        omega
      unfold MergedLsmt.pread
      rw [if_neg (by simp [hoff, hcnt]), hzero]
      by_cases hpast : m.vsize ≤ off
      · rw [if_pos hpast]
        rfl
      · have hcount0 : count = 0 := by omega
        rw [if_neg hpast]
        simp [hcount0]

end OverlayBD
