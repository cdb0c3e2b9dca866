import OverlayBD.Format.ZFileJump

/-!
# Regions and layout of a ZFile

* `parse_serialize` — a region gives back its fields, each modulo its width.
* `withDigest_serialize` — patching the digest of a region is serializing the patched record; hence a region with a
  digest passes its own check.
* `image` — header, blocks, index and trailer one behind the other.
* `openFile_image` — opening such a file reads the trailer back and goes on to its index.
* `openIndex_image` — an index in its place is the list of sizes it was made from; what remains is the table.
-/

namespace OverlayBD.ZFile

open Bytes Errno JumpTable

namespace HeaderTrailer

/-- The fields as a region holds them. -/
def stored (h : HeaderTrailer) : HeaderTrailer where
  size := kHeaderSize
  digest := h.digest % 2 ^ 32
  flags := h.flags % 2 ^ 64
  indexOffset := h.indexOffset % 2 ^ 64
  indexSize := h.indexSize % 2 ^ 64
  originalFileSize := h.originalFileSize % 2 ^ 64
  indexCrc := h.indexCrc % 2 ^ 32
  reserved0 := h.reserved0 % 2 ^ 32
  opt :=
    { blockSize := h.opt.blockSize % 2 ^ 32
      algo := h.opt.algo % 2 ^ 8
      level := h.opt.level % 2 ^ 8
      useDict := h.opt.useDict % 2 ^ 8
      reserved := h.opt.reserved % 2 ^ 32
      dictSize := h.opt.dictSize % 2 ^ 32
      verify := h.opt.verify % 2 ^ 8 }

/-- Widths of the pieces. -/
theorem map_length_pieces (h : HeaderTrailer) :
    h.pieces.map List.length = [8, 16, 4, 4, 8, 8, 8, 8, 4, 4, 4, 1, 1, 1, 1, 4, 4, 1, 7, 416] := by
  simp only [pieces, List.map_cons, List.map_nil, length_leBytes, List.length_replicate]
  rfl

@[simp] theorem length_serialize (h : HeaderTrailer) : h.serialize.length = kSpace := by
  rw [serialize, List.length_flatten, map_length_pieces]
  rfl

/-- **Round trip** of a region. -/
theorem parse_serialize (h : HeaderTrailer) : parse h.serialize = some h.stored := by
  have hl := map_length_pieces h
  have f0 : field h.serialize 0 8 = kMagic0 := field_flatten hl 0 rfl rfl rfl
  have f1 : field h.serialize 8 16 = kMagic1 := field_flatten hl 1 rfl rfl rfl
  have f2 : field h.serialize 24 4 = leBytes 4 ZFile.kHeaderSize := field_flatten hl 2 rfl rfl (length_leBytes _ _)
  have f3 : field h.serialize 28 4 = leBytes 4 h.digest := field_flatten hl 3 rfl rfl (length_leBytes _ _)
  have f4 : field h.serialize 32 8 = leBytes 8 h.flags := field_flatten hl 4 rfl rfl (length_leBytes _ _)
  have f5 : field h.serialize 40 8 = leBytes 8 h.indexOffset := field_flatten hl 5 rfl rfl (length_leBytes _ _)
  have f6 : field h.serialize 48 8 = leBytes 8 h.indexSize := field_flatten hl 6 rfl rfl (length_leBytes _ _)
  have f7 : field h.serialize 56 8 = leBytes 8 h.originalFileSize := field_flatten hl 7 rfl rfl (length_leBytes _ _)
  have f8 : field h.serialize 64 4 = leBytes 4 h.indexCrc := field_flatten hl 8 rfl rfl (length_leBytes _ _)
  have f9 : field h.serialize 68 4 = leBytes 4 h.reserved0 := field_flatten hl 9 rfl rfl (length_leBytes _ _)
  have f10 : field h.serialize 72 4 = leBytes 4 h.opt.blockSize := field_flatten hl 10 rfl rfl (length_leBytes _ _)
  have f11 : field h.serialize 76 1 = leBytes 1 h.opt.algo := field_flatten hl 11 rfl rfl (length_leBytes _ _)
  have f12 : field h.serialize 77 1 = leBytes 1 h.opt.level := field_flatten hl 12 rfl rfl (length_leBytes _ _)
  have f13 : field h.serialize 78 1 = leBytes 1 h.opt.useDict := field_flatten hl 13 rfl rfl (length_leBytes _ _)
  have f14 : field h.serialize 80 4 = leBytes 4 h.opt.reserved := field_flatten hl 15 rfl rfl (length_leBytes _ _)
  have f15 : field h.serialize 84 4 = leBytes 4 h.opt.dictSize := field_flatten hl 16 rfl rfl (length_leBytes _ _)
  have f16 : field h.serialize 88 1 = leBytes 1 h.opt.verify := field_flatten hl 17 rfl rfl (length_leBytes _ _)
  have hsize : leNat (leBytes 4 ZFile.kHeaderSize) = ZFile.kHeaderSize := leNat_leBytes_of_lt (by decide)
  rw [parse, f0, f1, f2, f3, f4, f5, f6, f7, f8, f9, f10, f11, f12, f13, f14, f15, f16, hsize, if_neg (by simp),
    if_neg (fun h => h rfl)]
  simp only [leNat_leBytes, stored]
  rfl

/-- Patching the digest of a region. -/
theorem withDigest_serialize (h : HeaderTrailer) (digest : ℕ) :
    withDigest h.serialize digest = { h with digest := digest }.serialize := by
  have hfront : (h.pieces.take 3).flatten.length = 28 := by
    rw [List.length_flatten, List.map_take, map_length_pieces]
    rfl
  have hback : (h.pieces.take 4).flatten.length = 32 := by
    rw [List.length_flatten, List.map_take, map_length_pieces]
    rfl
  have htake : h.serialize.take 28 = (h.pieces.take 3).flatten := by
    rw [serialize, ← List.take_append_drop 3 h.pieces, List.flatten_append, ← hfront, List.take_left,
      List.take_append_drop]
  have hdrop : h.serialize.drop 32 = (h.pieces.drop 4).flatten := by
    rw [serialize, ← List.take_append_drop 4 h.pieces, List.flatten_append, ← hback, List.drop_left,
      List.take_append_drop]
  rw [withDigest, htake, hdrop]
  simp [serialize, pieces]

/-- A region with its digest. -/
theorem setRegionDigest_serialize (h : HeaderTrailer) :
    setRegionDigest h.serialize
      = { h with digest := (crc32c { h with digest := 0 }.serialize).toNat }.serialize := by
  rw [setRegionDigest, withDigest_serialize, withDigest_serialize]

/-- The digest of a record, if its flags ask for one. -/
def Digested (h : HeaderTrailer) : Prop :=
  h.stored.isDigestEnabled = true → h.digest = (crc32c { h with digest := 0 }.serialize).toNat

/-- A record with its digest passes the check of its region. -/
theorem regionDigestOk_serialize {h : HeaderTrailer} (hd : h.Digested) :
    h.stored.regionDigestOk h.serialize = true := by
  rw [regionDigestOk, withDigest_serialize]
  cases he : h.stored.isDigestEnabled with
  | false => rfl
  | true =>
    have hdigest : h.stored.digest = (crc32c { h with digest := 0 }.serialize).toNat := by
      show h.digest % 2 ^ 32 = _
      rw [hd he, Nat.mod_eq_of_lt (UInt32.toNat_lt _)]
    rw [hdigest, decide_eq_true rfl, Bool.or_true]

end HeaderTrailer

/-! ### Layout -/

/-- A ZFile: the header, the blocks, the index and the trailer. -/
def image (hdr trl : HeaderTrailer) (body index : List UInt8) : List UInt8 :=
  hdr.serialize ++ (body ++ (index ++ trl.serialize))

section Image

variable {hdr trl : HeaderTrailer} {body index : List UInt8}

theorem length_image : (image hdr trl body index).length = kSpace + body.length + index.length + kSpace := by
  simp [image]
  omega

theorem read_header : (File.ofBytes (image hdr trl body index)).read 0 kSpace = hdr.serialize := by
  have := File.read_ofBytes_append [] hdr.serialize (body ++ (index ++ trl.serialize))
  rwa [HeaderTrailer.length_serialize] at this

theorem read_trailer :
    (File.ofBytes (image hdr trl body index)).read (kSpace + body.length + index.length) kSpace = trl.serialize := by
  have := File.read_ofBytes_append (hdr.serialize ++ (body ++ index)) trl.serialize []
  simpa [image, Nat.add_assoc] using this

theorem read_index :
    (File.ofBytes (image hdr trl body index)).read (kSpace + body.length) index.length = index := by
  have := File.read_ofBytes_append (hdr.serialize ++ body) index trl.serialize
  simpa [image, Nat.add_assoc] using this

/-- The flags of a header and of a trailer. -/
structure Flagged (hdr trl : HeaderTrailer) : Prop where
  digest : hdr.Digested
  isHeader : hdr.stored.isHeader = true
  isDataFile : hdr.stored.isDataFile = true
  notOverwritten : hdr.stored.isHeaderOverwrite = false
  isTrailer : trl.stored.isHeader = false
  trailerDataFile : trl.stored.isDataFile = true
  isSealed : trl.stored.isSealed = true

/-- **Opening an image** goes on with the trailer's fields. -/
theorem openFile_image (available : ℕ → Bool) (verify : Bool) (h : Flagged hdr trl) :
    openFile available (File.ofBytes (image hdr trl body index)) verify
      = openIndex available (File.ofBytes (image hdr trl body index)) verify false trl.stored
          (kSpace + body.length + index.length) := by
  have hdigest := HeaderTrailer.regionDigestOk_serialize h.digest
  have hend : (File.ofBytes (image hdr trl body index)).size - kSpace = kSpace + body.length + index.length := by
    rw [File.size_ofBytes, length_image]
    omega
  have heff : effective (File.ofBytes (image hdr trl body index)) hdr.stored
      = some (trl.stored, kSpace + body.length + index.length) := by
    rw [effective, h.notOverwritten, h.isDataFile, hend, read_trailer, HeaderTrailer.parse_serialize]
    simp [h.isTrailer, h.trailerDataFile, h.isSealed]
  rw [openFile, if_neg (by rw [File.size_ofBytes, length_image]; omega), read_header, HeaderTrailer.parse_serialize]
  simp only [h.isHeader, hdigest, heff, h.notOverwritten]
  simp

/-! ### The index -/

/-- The index region of a list of sizes. -/
def encodeIndex (sizes : List ℕ) : List UInt8 := (sizes.map (leBytes 4)).flatten

@[simp] theorem length_encodeIndex (sizes : List ℕ) : (encodeIndex sizes).length = sizes.length * 4 := by
  induction sizes with
  | nil => rfl
  | cons e sizes ih =>
    rw [encodeIndex, List.map_cons, List.flatten_cons, List.length_append, length_leBytes, List.length_cons,
      ← encodeIndex, ih]
    omega

/-- One entry of an index region. -/
theorem encodeIndex_split (sizes : List ℕ) {i : ℕ} (hi : i < sizes.length) :
    encodeIndex sizes = encodeIndex (sizes.take i) ++ (leBytes 4 sizes[i] ++ encodeIndex (sizes.drop (i + 1))) := by
  unfold encodeIndex
  rw [← List.flatten_cons, ← List.flatten_append, ← List.map_cons, ← List.map_append, ← List.drop_eq_getElem_cons hi,
    List.take_append_drop]

/-- What the reader decodes from the index. -/
theorem indexEntries_image {sizes : List ℕ} (hsize : trl.indexSize = sizes.length)
    (hoff : trl.indexOffset = kSpace + body.length) (hfits : ∀ e ∈ sizes, e < 2 ^ 32) :
    indexEntries (File.ofBytes (image hdr trl body (encodeIndex sizes))) trl = sizes := by
  refine List.ext_getElem (by simp [indexEntries, hsize]) fun i hi hi' => ?_
  have hread := File.read_ofBytes_append (hdr.serialize ++ (body ++ encodeIndex (sizes.take i))) (leBytes 4 sizes[i])
    (encodeIndex (sizes.drop (i + 1)) ++ trl.serialize)
  have hbytes : hdr.serialize ++ (body ++ encodeIndex (sizes.take i)) ++ (leBytes 4 sizes[i] ++
      (encodeIndex (sizes.drop (i + 1)) ++ trl.serialize)) = image hdr trl body (encodeIndex sizes) := by
    rw [image, encodeIndex_split sizes hi']
    simp only [List.append_assoc]
  have hpos : (hdr.serialize ++ (body ++ encodeIndex (sizes.take i))).length = trl.indexOffset + i * 4 := by
    rw [List.length_append, List.length_append, HeaderTrailer.length_serialize, length_encodeIndex,
      List.length_take_of_le (Nat.le_of_lt hi'), hoff, Nat.add_assoc]
  rw [hbytes, hpos, length_leBytes] at hread
  simp only [indexEntries, List.getElem_map, List.getElem_range]
  rw [hread, leNat_leBytes_of_lt (hfits _ (List.getElem_mem hi'))]

/-- **An index in its place.**  Of the checks only the table is left. -/
theorem openIndex_image (available : ℕ → Bool) (verify : Bool) {sizes : List ℕ} (hsize : trl.indexSize = sizes.length)
    (hmax : sizes.length ≤ kMaxIndexSize) (hoff : trl.indexOffset = kSpace + body.length)
    (hfits : ∀ e ∈ sizes, e < 2 ^ 32) (hdict : trl.opt.useDict = 0 ∧ trl.opt.dictSize = 0)
    (halgo : available trl.opt.algo = true)
    (hcrc : trl.isDigestEnabled = true → trl.indexCrc = (crc32c (encodeIndex sizes)).toNat) :
    openIndex available (File.ofBytes (image hdr trl body (encodeIndex sizes))) verify false trl
        (kSpace + body.length + (encodeIndex sizes).length)
      = (build sizes kSpace trl.opt.blockSize (decide (trl.opt.verify ≠ 0))).map fun jump =>
          ⟨trl, jump, decide (trl.opt.verify ≠ 0) && verify, trl.opt.blockSize⟩ := by
  have hraw : rawIndex (File.ofBytes (image hdr trl body (encodeIndex sizes))) trl = encodeIndex sizes := by
    have hread : (File.ofBytes (image hdr trl body (encodeIndex sizes))).read (kSpace + body.length)
        (encodeIndex sizes).length = encodeIndex sizes := read_index
    rwa [length_encodeIndex, ← hoff, ← hsize] at hread
  have hroom : (kSpace + body.length + (encodeIndex sizes).length + 2 ^ 64 - trl.indexOffset) % 2 ^ 64
      = (encodeIndex sizes).length := by
    have hlen := length_encodeIndex sizes
    unfold kMaxIndexSize at hmax
    omega
  rw [openIndex, if_neg (by omega), hroom, if_neg (by rw [length_encodeIndex]; omega),
    if_neg (by rw [hdict.1, hdict.2]; simp), if_neg (by rw [halgo]; simp),
    if_neg (by rw [File.size_ofBytes, length_image, length_encodeIndex]; omega), hraw,
    if_neg (fun hn => hn.2 (hcrc hn.1).symm), indexEntries_image hsize hoff hfits, hdict.2, Nat.add_zero]
  cases build sizes kSpace trl.opt.blockSize (decide (trl.opt.verify ≠ 0)) <;> rfl

end Image

end OverlayBD.ZFile
