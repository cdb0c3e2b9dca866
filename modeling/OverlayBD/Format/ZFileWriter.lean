import Mathlib.Algebra.Order.BigOperators.Group.List
import OverlayBD.Format.ZFileRead

/-!
# The ZFile writer (`format/writer.cpp`)

## The model

* `writeZfile` — `write_zfile`: the blocks of the input, compressed and with their checksums, the index of their sizes,
  and a header and trailer that differ in one flag and their digests.
* `Lossless` — what is assumed of a codec: it compresses every block within its bound and decodes what it compressed.

## What is proved

* `compressLoop_spec` — the loop writes one record for each block, in order.
* `writeZfile_eq` — the file is the image of those records.
* `openFile_written` — opening it is building the table of the record sizes, unless there are too many of them.
-/

namespace OverlayBD.ZFile

open Bytes Errno Effect JumpTable

/-! ### The writer -/

/-- `ZFileWriteOptions`. -/
structure ZFileWriteOptions where
  blockSize : ℕ := 4096
  algo : UInt8 := 1
  level : UInt8 := 3
  verify : Bool := true
  calcDigest : Bool := true

/-- The checksum behind a compressed block. -/
def blockCrc (comp : List UInt8) : List UInt8 := leBytes 4 (crc32cExtend comp kNoiWellKnownPrime).toNat

/-- What is written for one block. -/
def blockRecord (verify : Bool) (comp : List UInt8) : List UInt8 := if verify then comp ++ blockCrc comp else comp

section Writer

variable (codec : BlockCodec) (opts : ZFileWriteOptions) (input : List UInt8)

/-- The loop over the input, which has read `done` bytes: what was written so far, and the sizes of it. -/
def compressLoop : ℕ → ℕ → List UInt8 → List ℕ → Except ℤ (List UInt8 × List ℕ)
  | 0, _, out, index => .ok (out, index)
  | fuel + 1, done, out, index =>
    if input.length ≤ done then .ok (out, index)
    else
      let chunk := min opts.blockSize (input.length - done)
      match codec.compress ((input.drop done).take chunk) (codec.compressBound opts.blockSize + 8) with
      | .error _ => .error eio
      | .ok comp =>
        if comp.length = 0 then .error eio
        else
          let record := blockRecord opts.verify comp
          compressLoop fuel (done + chunk) (out ++ record) (index ++ [record.length % 2 ^ 32])

/-- The trailer, before its digest. -/
def trailerOf (indexOffset : ℕ) (index : List ℕ) : HeaderTrailer where
  flags := if opts.calcDigest then 22 else 6
  indexOffset := indexOffset
  indexSize := index.length
  originalFileSize := input.length
  indexCrc := (crc32c (encodeIndex index)).toNat
  opt :=
    { blockSize := opts.blockSize
      algo := opts.algo.toNat
      level := opts.level.toNat
      verify := if opts.verify then 1 else 0 }

/-- The same fields with the header flag. -/
def headerOf (indexOffset : ℕ) (index : List ℕ) : HeaderTrailer :=
  { trailerOf opts input indexOffset index with flags := if opts.calcDigest then 23 else 7 }

/-- A region as it is written. -/
def regionOf (h : HeaderTrailer) : List UInt8 :=
  if opts.calcDigest then setRegionDigest h.serialize else h.serialize

/-- `write_zfile`: the bytes of the file. -/
def writeZfile (available : ℕ → Bool) : Except ℤ (List UInt8) :=
  if ¬ ValidBlockSize opts.blockSize then .error einval
  else if available opts.algo.toNat = false then .error einval
  else
    match compressLoop codec opts input input.length 0 [] [] with
    | .error e => .error e
    | .ok (body, index) =>
      .ok (regionOf opts (headerOf opts input (kSpace + body.length) index) ++
        (body ++ (encodeIndex index ++ regionOf opts (trailerOf opts input (kSpace + body.length) index))))

end Writer

/-! ### Codecs -/

/-- The block decodes from these compressed bytes. -/
def Decodes (codec : BlockCodec) (comp block : List UInt8) : Prop :=
  ∃ bytes, codec.decode comp block.length = .ok bytes ∧ ∀ k, k < block.length → bytes k = block.getD k 0

/-- **A lossless codec.** -/
structure Lossless (codec : BlockCodec) : Prop where
  bound_mono : Monotone codec.compressBound
  /-- Compressed sizes are returned as `int`. -/
  bound_lt : ∀ n, n ≤ 65536 → codec.compressBound n < 2 ^ 31
  encode : ∀ b, b ≠ [] → ∃ c, codec.encode b = .ok c ∧ c ≠ [] ∧ c.length ≤ codec.compressBound b.length
  decode : ∀ b c, codec.encode b = .ok c → Decodes codec c b

/-- The compressed bytes of a block. -/
def BlockCodec.encoded (codec : BlockCodec) (b : List UInt8) : List UInt8 :=
  match codec.encode b with
  | .ok c => c
  | .error _ => []

/-! ### The blocks of an input -/

/-- Number of blocks. -/
def blockCount (bs : ℕ) (input : List UInt8) : ℕ := (input.length + bs - 1) / bs

/-- Block `i`. -/
def blockAt (bs : ℕ) (input : List UInt8) (i : ℕ) : List UInt8 := (input.drop (i * bs)).take bs

section Blocks

variable (codec : BlockCodec) (opts : ZFileWriteOptions) (input : List UInt8)

/-- Compressed bytes of block `i`. -/
def compAt (i : ℕ) : List UInt8 := codec.encoded (blockAt opts.blockSize input i)

/-- The record of block `i`. -/
def recordAt (i : ℕ) : List UInt8 := blockRecord opts.verify (compAt codec opts input i)

/-- The records of the file. -/
def records : List (List UInt8) :=
  (List.range (blockCount opts.blockSize input)).map (recordAt codec opts input)

/-- Their sizes. -/
def recordSizes : List ℕ := (records codec opts input).map List.length

end Blocks

theorem lt_blockCount_iff {bs : ℕ} (hbs : 0 < bs) {input : List UInt8} {i : ℕ} :
    i < blockCount bs input ↔ i * bs < input.length := by
  rw [blockCount, Nat.lt_div_iff_mul_lt hbs]
  omega

theorem length_le_blockCount {bs : ℕ} (hbs : 0 < bs) {input : List UInt8} :
    input.length ≤ blockCount bs input * bs :=
  Nat.le_of_not_lt fun h => absurd ((lt_blockCount_iff hbs).mpr h) (Nat.lt_irrefl _)

theorem blockCount_le_length {bs : ℕ} (hbs : 0 < bs) {input : List UInt8} : blockCount bs input ≤ input.length := by
  rw [blockCount, Nat.div_le_iff_le_mul_add_pred hbs]
  have := Nat.mul_le_mul_right input.length hbs
  omega

@[simp] theorem length_blockAt (bs : ℕ) (input : List UInt8) (i : ℕ) :
    (blockAt bs input i).length = min bs (input.length - i * bs) := by
  simp [blockAt]

section Loop

variable {codec : BlockCodec} (hl : Lossless codec) {opts : ZFileWriteOptions} (hbs : ValidBlockSize opts.blockSize)
  {input : List UInt8}
include hl hbs

/-- A block of the input is compressed. -/
theorem encode_blockAt {i : ℕ} (hi : i < blockCount opts.blockSize input) :
    codec.encode (blockAt opts.blockSize input i) = .ok (compAt codec opts input i) ∧
      compAt codec opts input i ≠ [] ∧
      (compAt codec opts input i).length ≤ codec.compressBound opts.blockSize := by
  have hpos := Nat.pos_of_ne_zero hbs.1
  have hlt := (lt_blockCount_iff hpos).mp hi
  have hne : blockAt opts.blockSize input i ≠ [] := by
    intro h
    have := congrArg List.length h
    rw [length_blockAt, List.length_nil] at this
    omega
  obtain ⟨c, hc, hcne, hlen⟩ := hl.encode _ hne
  have hcomp : compAt codec opts input i = c := by rw [compAt, BlockCodec.encoded, hc]
  rw [hcomp]
  refine ⟨hc, hcne, hlen.trans (hl.bound_mono ?_)⟩
  rw [length_blockAt]
  exact min_le_left _ _

theorem compress_blockAt {i : ℕ} (hi : i < blockCount opts.blockSize input) :
    codec.compress (blockAt opts.blockSize input i) (codec.compressBound opts.blockSize + 8)
      = .ok (compAt codec opts input i) := by
  have hle : codec.compressBound (blockAt opts.blockSize input i).length ≤ codec.compressBound opts.blockSize :=
    hl.bound_mono (by rw [length_blockAt]; exact min_le_left _ _)
  rw [BlockCodec.compress, if_neg (by omega), (encode_blockAt hl hbs hi).1]

theorem length_recordAt {i : ℕ} (hi : i < blockCount opts.blockSize input) :
    (if opts.verify then 4 else 0) < (recordAt codec opts input i).length ∧
      (recordAt codec opts input i).length ≤ codec.compressBound opts.blockSize + (if opts.verify then 4 else 0) ∧
      (recordAt codec opts input i).length < 2 ^ 32 := by
  obtain ⟨-, hne, hle⟩ := encode_blockAt hl hbs hi
  have hpos := List.length_pos_iff.mpr hne
  have hlt := hl.bound_lt _ hbs.2.1
  cases hv : opts.verify with
  | false =>
    simp only [recordAt, blockRecord, hv]
    simp only [Bool.false_eq_true, if_false]
    omega
  | true =>
    simp only [recordAt, blockRecord, hv, if_true, blockCrc, List.length_append, length_leBytes]
    omega

/-- **The loop** writes the records of the blocks that are left. -/
theorem compressLoop_spec (m : ℕ) :
    ∀ {i fuel : ℕ} (out : List UInt8) (index : List ℕ), i + m = blockCount opts.blockSize input → m ≤ fuel →
      compressLoop codec opts input fuel (min input.length (i * opts.blockSize)) out index
        = .ok (out ++ ((List.range' i m).map (recordAt codec opts input)).flatten,
            index ++ ((List.range' i m).map (recordAt codec opts input)).map List.length) := by
  have hpos := Nat.pos_of_ne_zero hbs.1
  induction m with
  | zero =>
    intro i fuel out index hi hfuel
    have hend : input.length ≤ i * opts.blockSize := by
      rw [Nat.add_zero] at hi
      exact hi ▸ length_le_blockCount hpos
    cases fuel with
    | zero => simp [compressLoop]
    | succ fuel =>
      rw [compressLoop, if_pos (by omega)]
      simp
  | succ m ih =>
    intro i fuel out index hi hfuel
    have hlt : i < blockCount opts.blockSize input := by omega
    have hin := (lt_blockCount_iff hpos).mp hlt
    obtain ⟨fuel, rfl⟩ : ∃ k, fuel = k + 1 := ⟨fuel - 1, by omega⟩
    have hdone : min input.length (i * opts.blockSize) = i * opts.blockSize := by omega
    have hchunk : (input.drop (i * opts.blockSize)).take (min opts.blockSize (input.length - i * opts.blockSize))
        = blockAt opts.blockSize input i := by
      rw [blockAt, List.take_eq_take_min, List.length_drop, min_assoc, min_self, ← List.length_drop,
        ← List.take_eq_take_min]
    have hnext : i * opts.blockSize + min opts.blockSize (input.length - i * opts.blockSize)
        = min input.length ((i + 1) * opts.blockSize) := by
      rw [Nat.succ_mul]
      omega
    have hsome : (compAt codec opts input i).length ≠ 0 := by
      simpa using (encode_blockAt hl hbs hlt).2.1
    have hrecord : blockRecord opts.verify (compAt codec opts input i) = recordAt codec opts input i := rfl
    rw [compressLoop, hdone, if_neg (by omega)]
    dsimp only
    rw [hchunk, compress_blockAt hl hbs hlt]
    dsimp only
    rw [if_neg hsome, hrecord, Nat.mod_eq_of_lt (length_recordAt hl hbs hlt).2.2, hnext,
      ih _ _ (by omega) (by omega), List.range'_succ]
    simp

end Loop

/-! ### The file -/

/-- A record with the digest the options ask for. -/
def digested (opts : ZFileWriteOptions) (h : HeaderTrailer) : HeaderTrailer :=
  if opts.calcDigest then { h with digest := (crc32c { h with digest := 0 }.serialize).toNat } else h

theorem regionOf_eq (opts : ZFileWriteOptions) (h : HeaderTrailer) : regionOf opts h = (digested opts h).serialize := by
  unfold regionOf digested
  split_ifs
  · exact HeaderTrailer.setRegionDigest_serialize h
  · rfl

section File

variable (codec : BlockCodec) (opts : ZFileWriteOptions) (input : List UInt8)

/-- The compressed blocks. -/
def writtenBody : List UInt8 := (records codec opts input).flatten

def writtenHeader : HeaderTrailer :=
  digested opts (headerOf opts input (kSpace + (writtenBody codec opts input).length) (recordSizes codec opts input))

def writtenTrailer : HeaderTrailer :=
  digested opts (trailerOf opts input (kSpace + (writtenBody codec opts input).length) (recordSizes codec opts input))

/-- The file. -/
def written : File :=
  File.ofBytes (image (writtenHeader codec opts input) (writtenTrailer codec opts input)
    (writtenBody codec opts input) (encodeIndex (recordSizes codec opts input)))

end File

section Written

variable {codec : BlockCodec} {opts : ZFileWriteOptions} {available : ℕ → Bool} {input : List UInt8}

/-- **What is written.** -/
theorem writeZfile_eq (hl : Lossless codec) (hbs : ValidBlockSize opts.blockSize)
    (halgo : available opts.algo.toNat = true) :
    writeZfile codec opts input available = .ok (image (writtenHeader codec opts input)
      (writtenTrailer codec opts input) (writtenBody codec opts input) (encodeIndex (recordSizes codec opts input))) := by
  have hpos := Nat.pos_of_ne_zero hbs.1
  have hloop : compressLoop codec opts input input.length 0 [] []
      = .ok (writtenBody codec opts input, recordSizes codec opts input) := by
    have := compressLoop_spec hl hbs (blockCount opts.blockSize input) [] [] (Nat.zero_add _)
      (blockCount_le_length hpos)
    rw [Nat.zero_mul, Nat.min_zero, ← List.range_eq_range'] at this
    exact this
  rw [writeZfile, if_neg (not_not.mpr hbs), if_neg (by rw [halgo]; simp), hloop]
  dsimp only
  rw [regionOf_eq, regionOf_eq]
  rfl

theorem digested_flags (h : HeaderTrailer) : (digested opts h).flags = h.flags := by
  unfold digested
  split_ifs <;> rfl

/-- Only the digest of the record depends on it. -/
theorem digested_digested {h : HeaderTrailer} (he : h.stored.isDigestEnabled = opts.calcDigest) :
    (digested opts h).Digested := by
  intro hd
  have hflag : (digested opts h).stored.isDigestEnabled = h.stored.isDigestEnabled := by
    show decide ((digested opts h).flags % 2 ^ 64 / 2 ^ 4 % 2 = 1) = _
    rw [digested_flags]
    rfl
  rw [hflag, he] at hd
  rw [digested, if_pos hd]

theorem flagged_written : Flagged (writtenHeader codec opts input) (writtenTrailer codec opts input) := by
  have hdig : (writtenHeader codec opts input).Digested := by
    refine digested_digested ?_
    cases hc : opts.calcDigest <;>
      simp [HeaderTrailer.isDigestEnabled, HeaderTrailer.getFlagBit, HeaderTrailer.stored, headerOf, hc]
  refine ⟨hdig, ?_, ?_, ?_, ?_, ?_, ?_⟩ <;>
    cases hc : opts.calcDigest <;>
    simp [HeaderTrailer.isHeader, HeaderTrailer.isDataFile, HeaderTrailer.isHeaderOverwrite, HeaderTrailer.isSealed,
      HeaderTrailer.getFlagBit, HeaderTrailer.stored, writtenHeader, writtenTrailer, digested_flags, headerOf,
      trailerOf, hc]

@[simp] theorem length_recordSizes : (recordSizes codec opts input).length = blockCount opts.blockSize input := by
  simp [recordSizes, records]

/-- The other fields do not depend on the digest. -/
theorem digested_fields (h : HeaderTrailer) :
    (digested opts h).indexOffset = h.indexOffset ∧ (digested opts h).indexSize = h.indexSize ∧
      (digested opts h).indexCrc = h.indexCrc ∧ (digested opts h).originalFileSize = h.originalFileSize ∧
      (digested opts h).opt = h.opt := by
  unfold digested
  split_ifs <;> exact ⟨rfl, rfl, rfl, rfl, rfl⟩

@[simp] theorem writtenTrailer_indexOffset :
    (writtenTrailer codec opts input).indexOffset = kSpace + (writtenBody codec opts input).length :=
  (digested_fields _).1

@[simp] theorem writtenTrailer_indexSize :
    (writtenTrailer codec opts input).indexSize = blockCount opts.blockSize input :=
  (digested_fields _).2.1.trans length_recordSizes

@[simp] theorem writtenTrailer_indexCrc :
    (writtenTrailer codec opts input).indexCrc = (crc32c (encodeIndex (recordSizes codec opts input))).toNat :=
  (digested_fields _).2.2.1

@[simp] theorem writtenTrailer_originalFileSize :
    (writtenTrailer codec opts input).originalFileSize = input.length := (digested_fields _).2.2.2.1

@[simp] theorem writtenTrailer_opt :
    (writtenTrailer codec opts input).opt =
      { blockSize := opts.blockSize
        algo := opts.algo.toNat
        level := opts.level.toNat
        verify := if opts.verify then 1 else 0 } := (digested_fields _).2.2.2.2

/-- An index of too many entries is refused. -/
theorem openFile_written_of_large (verify : Bool) (hin : input.length < 2 ^ 64)
    (hpos : 0 < opts.blockSize) (hlarge : kMaxIndexSize < blockCount opts.blockSize input) :
    openFile available (written codec opts input) verify = .error einval := by
  have hsize : (writtenTrailer codec opts input).stored.indexSize = blockCount opts.blockSize input := by
    have hle : blockCount opts.blockSize input ≤ input.length := blockCount_le_length hpos
    show (writtenTrailer codec opts input).indexSize % 2 ^ 64 = _
    rw [writtenTrailer_indexSize, Nat.mod_eq_of_lt (by omega)]
  rw [written, openFile_image _ _ flagged_written, openIndex, if_pos (by omega)]

theorem mem_recordSizes_lt (hl : Lossless codec) (hbs : ValidBlockSize opts.blockSize) {e : ℕ}
    (he : e ∈ recordSizes codec opts input) : e < 2 ^ 32 := by
  simp only [recordSizes, records, List.mem_map, List.mem_range] at he
  obtain ⟨r, ⟨i, hi, rfl⟩, rfl⟩ := he
  exact (length_recordAt hl hbs hi).2.2

theorem length_writtenBody : (writtenBody codec opts input).length = (recordSizes codec opts input).sum := by
  rw [writtenBody, List.length_flatten]
  rfl

/-- The fields fit their widths, the digest because it is a checksum. -/
theorem stored_digested {h : HeaderTrailer} (hs : h.stored = h) : (digested opts h).stored = digested opts h := by
  have hset : ∀ d, d < 2 ^ 32 → { h with digest := d }.stored = { h with digest := d } := by
    intro d hd
    calc { h with digest := d }.stored = { h.stored with digest := d % 2 ^ 32 } := rfl
      _ = { h with digest := d } := by rw [hs, Nat.mod_eq_of_lt hd]
  unfold digested
  split_ifs
  · exact hset _ (UInt32.toNat_lt _)
  · exact hs

theorem stored_writtenTrailer (hl : Lossless codec) (hbs : ValidBlockSize opts.blockSize) (hin : input.length < 2 ^ 64)
    (hcount : blockCount opts.blockSize input ≤ kMaxIndexSize) :
    (writtenTrailer codec opts input).stored = writtenTrailer codec opts input := by
  have hbody : (writtenBody codec opts input).length ≤ kMaxIndexSize * 2 ^ 32 := by
    rw [length_writtenBody]
    refine (List.sum_le_card_nsmul _ (2 ^ 32) fun e he => (mem_recordSizes_lt hl hbs he).le).trans ?_
    rw [length_recordSizes]
    exact Nat.mul_le_mul_right _ hcount
  have hcrc := UInt32.toNat_lt (crc32c (encodeIndex (recordSizes codec opts input)))
  have hbs' := hbs.2.1
  have halgo := UInt8.toNat_lt opts.algo
  have hlevel := UInt8.toNat_lt opts.level
  unfold kMaxIndexSize at hbody hcount
  refine stored_digested ?_
  unfold trailerOf HeaderTrailer.stored
  simp only [length_recordSizes, HeaderTrailer.mk.injEq, CompressOptions.mk.injEq]
  refine ⟨rfl, rfl, ?_, ?_, ?_, ?_, ?_, rfl, ?_, ?_, ?_, rfl, rfl, rfl, ?_⟩
  · split_ifs <;> rfl
  · exact Nat.mod_eq_of_lt (by unfold kSpace; omega)
  · exact Nat.mod_eq_of_lt (by omega)
  · exact Nat.mod_eq_of_lt hin
  · exact Nat.mod_eq_of_lt hcrc
  · exact Nat.mod_eq_of_lt (by omega)
  · exact Nat.mod_eq_of_lt halgo
  · exact Nat.mod_eq_of_lt hlevel
  · split_ifs <;> rfl

/-- **Opening what was written** is building the table of the record sizes. -/
theorem openFile_written (hl : Lossless codec) (hbs : ValidBlockSize opts.blockSize)
    (halgo : available opts.algo.toNat = true) (hin : input.length < 2 ^ 64)
    (hcount : blockCount opts.blockSize input ≤ kMaxIndexSize) (verify : Bool) :
    openFile available (written codec opts input) verify
      = (build (recordSizes codec opts input) kSpace opts.blockSize opts.verify).map fun jump =>
          ⟨writtenTrailer codec opts input, jump, opts.verify && verify, opts.blockSize⟩ := by
  have hv : decide ((writtenTrailer codec opts input).opt.verify ≠ 0) = opts.verify := by
    rw [writtenTrailer_opt]
    cases hverify : opts.verify <;> rfl
  have hbs' : (writtenTrailer codec opts input).opt.blockSize = opts.blockSize := by rw [writtenTrailer_opt]
  rw [written, openFile_image _ _ flagged_written, stored_writtenTrailer hl hbs hin hcount,
    openIndex_image available verify (by simp) (by simpa using hcount) writtenTrailer_indexOffset
      (fun _ => mem_recordSizes_lt hl hbs) (by simp) (by simpa using halgo) fun _ => writtenTrailer_indexCrc, hv, hbs']

end Written

end OverlayBD.ZFile
