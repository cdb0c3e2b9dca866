import OverlayBD.Format.HeaderTrailer

/-!
# The trace blob (`format/trace.cpp`)

A prefetch trace is a header of 24 bytes — magic, size of the record stream, CRC-32C of it — and a stream of records of 24
bytes.  `TraceWriter` keeps the blob and a running checksum and patches the header in place; `parse` accepts a blob only if
size and checksum are exactly right.

## The model

* `TraceRecord`, `parse` — decoded records and the parser with its four errors.
* `TraceWriter` — the buffer, the running checksum and the count; `append` is `none` where the source returns `false`.

## What is proved

* `Wrote.append` — one append adds one record to what the buffer holds.
* `parse_finalize` — a finalised blob parses to the records that were appended.
-/

namespace OverlayBD.Tracing

open Bytes

/-! ### Records and parser -/

/-- `kMagic`. -/
def kMagic : ℕ := 3270449184

/-- `kHeaderSize`. -/
def kHeaderSize : ℕ := 24

/-- `kRecordSize`. -/
def kRecordSize : ℕ := 24

/-- `kMaxRecordCount`, 1 MiB. -/
def kMaxRecordCount : ℕ := 1048576

/-- `kOpRead`, the character R. -/
def kOpRead : UInt8 := 0x52

/-- `TraceRecord`. -/
structure TraceRecord where
  op : UInt8
  layerIndex : ℕ
  count : ℕ
  offset : ℤ
deriving DecidableEq, Repr

/-- `TraceError`. -/
inductive TraceError
  | truncated
  | badMagic
  | badSize
  | checksumMismatch
deriving DecidableEq, Repr

/-- `TraceParseError`. -/
structure TraceParseError where
  kind : TraceError
  message : String
deriving DecidableEq, Repr

/-- A 64-bit value as a signed one. -/
def toI64 (v : ℕ) : ℤ := if v < 2 ^ 63 then v else v - 2 ^ 64

/-- A signed value as 64 bits. -/
def toU64 (v : ℤ) : ℕ := (v % 2 ^ 64).toNat

/-- The record in 24 bytes. -/
def decodeRecord (p : List UInt8) : TraceRecord where
  op := (field p 0 1).headD 0
  layerIndex := leNat (field p 4 4)
  count := leNat (field p 8 8)
  offset := toI64 (leNat (field p 16 8))

/-- `parse`. -/
def parse (blob : List UInt8) : Except TraceParseError (List TraceRecord) :=
  if blob.length < kHeaderSize then
    .error ⟨.truncated, "blob of " ++ toString blob.length ++ " bytes is smaller than the 24-byte header"⟩
  else if leNat (field blob 0 4) ≠ kMagic then .error ⟨.badMagic, "magic mismatch"⟩
  else
    let dataSize := leNat (field blob 8 8)
    let checksum := leNat (field blob 16 4)
    if dataSize ≠ blob.length - kHeaderSize then
      .error ⟨.badSize, "blob size " ++ toString blob.length ++ " != 24 + data_size " ++ toString dataSize⟩
    else
      -- a tail that is no whole record is neither read nor checksummed
      let n := dataSize / kRecordSize
      let recs := blob.drop kHeaderSize
      if (crc32cExtend (recs.take (n * kRecordSize)) 0).toNat ≠ checksum then
        .error ⟨.checksumMismatch, "record stream checksum mismatch"⟩
      else .ok ((List.range n).map fun i => decodeRecord (field recs (i * kRecordSize) kRecordSize))

/-! ### Writer -/

/-- Bytes stored into a buffer. -/
def store (buf : List UInt8) (off : ℕ) (bs : List UInt8) : List UInt8 := buf.take off ++ (bs ++ buf.drop (off + bs.length))

/-- The fields of a record, with its padding. -/
def recordPieces (rec : TraceRecord) : List (List UInt8) :=
  [[rec.op], [0, 0, 0], leBytes 4 rec.layerIndex, leBytes 8 rec.count, leBytes 8 (toU64 rec.offset)]

/-- The 24 bytes of a record. -/
def encodeRecord (rec : TraceRecord) : List UInt8 := (recordPieces rec).flatten

/-- `TraceWriter`. -/
structure TraceWriter where
  buf : List UInt8 := store (List.replicate kHeaderSize 0) 0 (leBytes 4 kMagic)
  crc : UInt32 := 0
  records : ℕ := 0

/-- `TraceWriter::append`; `none` is a rejected record. -/
def TraceWriter.append (w : TraceWriter) (rec : TraceRecord) : Option TraceWriter :=
  if rec.op ≠ kOpRead then none
  else if rec.count < 1 ∨ kMaxRecordCount < rec.count then none
  else if rec.offset < 0 then none
  else
    let p := encodeRecord rec
    some
      { buf := store (w.buf ++ p) 8 (leBytes 8 ((w.records + 1) * kRecordSize))
        crc := crc32cExtend p w.crc
        records := w.records + 1 }

/-- `TraceWriter::finalize`. -/
def TraceWriter.finalize (w : TraceWriter) : List UInt8 := store w.buf 16 (leBytes 4 w.crc.toNat)

/-! ### What a buffer holds -/

/-- The fields of a header, with its padding. -/
def headerPieces (dataSize checksum : ℕ) : List (List UInt8) :=
  [leBytes 4 kMagic, [0, 0, 0, 0], leBytes 8 dataSize, leBytes 4 checksum, [0, 0, 0, 0]]

/-- A header. -/
def header (dataSize checksum : ℕ) : List UInt8 := (headerPieces dataSize checksum).flatten

variable {rec : TraceRecord} {recs : List TraceRecord} {w w' : TraceWriter} {dataSize checksum : ℕ}

/-- A store of the same length replaces a piece. -/
theorem store_piece {a b b' c : List UInt8} (h : b'.length = b.length) :
    store (a ++ (b ++ c)) a.length b' = a ++ (b' ++ c) := by
  rw [store, List.take_left, h, ← List.append_assoc a b c, ← List.length_append, List.drop_left]

theorem store_dataSize (n : ℕ) (rest : List UInt8) :
    store (header dataSize checksum ++ rest) 8 (leBytes 8 n) = header n checksum ++ rest := by
  have h := @store_piece (leBytes 4 kMagic ++ [0, 0, 0, 0]) (leBytes 8 dataSize) (leBytes 8 n)
    (leBytes 4 checksum ++ ([0, 0, 0, 0] ++ rest)) (by simp)
  simpa [header, headerPieces] using h

theorem store_checksum (n : ℕ) (rest : List UInt8) :
    store (header dataSize checksum ++ rest) 16 (leBytes 4 n) = header dataSize n ++ rest := by
  have h := @store_piece (leBytes 4 kMagic ++ ([0, 0, 0, 0] ++ leBytes 8 dataSize)) (leBytes 4 checksum) (leBytes 4 n)
    ([0, 0, 0, 0] ++ rest) (by simp)
  simpa [header, headerPieces] using h

/-- The buffer holds these records and the checksum runs over them. -/
structure Wrote (w : TraceWriter) (recs : List TraceRecord) : Prop where
  buf : w.buf = header (recs.length * kRecordSize) 0 ++ recs.flatMap encodeRecord
  crc : w.crc = crc32cExtend (recs.flatMap encodeRecord) 0
  records : w.records = recs.length

theorem wrote_new : Wrote {} [] := by
  constructor
  · rfl
  · rfl
  · rfl

/-- What the writer asks of a record. -/
def Conforming (rec : TraceRecord) : Prop :=
  rec.op = kOpRead ∧ 1 ≤ rec.count ∧ rec.count ≤ kMaxRecordCount ∧ 0 ≤ rec.offset

/-- **The writer rejects exactly what does not conform.** -/
theorem append_isSome : (w.append rec).isSome ↔ Conforming rec := by
  unfold TraceWriter.append Conforming
  split_ifs with h1 h2 h3
  · simp [h1]
  · simp only [Option.isSome_none, Bool.false_eq_true, false_iff]
    omega
  · simp only [Option.isSome_none, Bool.false_eq_true, false_iff]
    omega
  · simp only [Option.isSome_some, true_iff]
    exact ⟨not_not.mp h1, by omega, by omega, by omega⟩

/-- One append adds one record. -/
theorem Wrote.append (h : Wrote w recs) (ha : w.append rec = some w') : Wrote w' (recs ++ [rec]) := by
  unfold TraceWriter.append at ha
  split_ifs at ha
  obtain rfl := Option.some.inj ha
  constructor
  · simp only [h.buf, h.records, List.append_assoc]
    rw [store_dataSize]
    simp
  · simp only [h.crc, crc32cExtend, ← List.foldl_append]
    simp
  · simp [h.records]

/-! ### Reading back -/

/-- A field of a record fits its width. -/
structure TraceRecord.Fits (rec : TraceRecord) : Prop where
  layerIndex : rec.layerIndex < 2 ^ 32
  count : rec.count < 2 ^ 64
  offset : 0 ≤ rec.offset ∧ rec.offset < 2 ^ 63

@[simp] theorem length_encodeRecord (rec : TraceRecord) : (encodeRecord rec).length = kRecordSize := by
  simp [encodeRecord, recordPieces, kRecordSize]

@[simp] theorem length_header (dataSize checksum : ℕ) : (header dataSize checksum).length = kHeaderSize := by
  simp [header, headerPieces, kHeaderSize]

theorem length_flatMap_encodeRecord (recs : List TraceRecord) :
    (recs.flatMap encodeRecord).length = recs.length * kRecordSize := by
  simp [List.length_flatMap]

/-- **A record reads back.** -/
theorem decodeRecord_encodeRecord (h : rec.Fits) : decodeRecord (encodeRecord rec) = rec := by
  have hlayout : (recordPieces rec).map List.length = [1, 3, 4, 8, 8] := by simp [recordPieces]
  have hop : field (encodeRecord rec) 0 1 = [rec.op] := field_flatten hlayout 0 rfl rfl rfl
  have hlayer : field (encodeRecord rec) 4 4 = leBytes 4 rec.layerIndex := field_flatten hlayout 2 rfl rfl (by simp)
  have hcount : field (encodeRecord rec) 8 8 = leBytes 8 rec.count := field_flatten hlayout 3 rfl rfl (by simp)
  have hoffset : field (encodeRecord rec) 16 8 = leBytes 8 (toU64 rec.offset) := field_flatten hlayout 4 rfl rfl (by simp)
  have hu : (toU64 rec.offset : ℤ) = rec.offset := by
    have := h.offset
    unfold toU64
    omega
  have hsmall : toU64 rec.offset < 2 ^ 63 := by
    have := h.offset.2
    omega
  have hback : toI64 (toU64 rec.offset) = rec.offset := by
    rw [toI64, if_pos hsmall, hu]
  unfold decodeRecord
  rw [hop, hlayer, hcount, hoffset, leNat_leBytes_of_lt (show rec.layerIndex < 256 ^ 4 from h.layerIndex),
    leNat_leBytes_of_lt (show rec.count < 256 ^ 8 from h.count),
    leNat_leBytes_of_lt (show toU64 rec.offset < 256 ^ 8 by omega), hback]
  rfl

/-- The record at its place in the stream. -/
theorem field_stream {i : ℕ} (hi : i < recs.length) :
    field (recs.flatMap encodeRecord) (i * kRecordSize) kRecordSize = encodeRecord recs[i] := by
  have hlayout : (recs.map encodeRecord).map List.length = List.replicate recs.length kRecordSize := by
    rw [List.map_map]
    simp [Function.comp_def, List.map_const']
  rw [List.flatMap_def]
  refine field_flatten hlayout i ?_ ?_ (length_encodeRecord _)
  · simp [hi]
  · simp [Nat.min_eq_left hi.le]

/-- **A finalised blob parses to its records.** -/
theorem parse_finalize (h : Wrote w recs) (hf : ∀ rec ∈ recs, rec.Fits) (hsize : recs.length * kRecordSize < 2 ^ 64) :
    parse w.finalize = .ok recs := by
  have hblob : w.finalize = header (recs.length * kRecordSize) w.crc.toNat ++ recs.flatMap encodeRecord := by
    rw [TraceWriter.finalize, h.buf, store_checksum]
  have hlen : w.finalize.length = kHeaderSize + recs.length * kRecordSize := by
    rw [hblob, List.length_append, length_header, length_flatMap_encodeRecord]
  have hpieces : w.finalize =
      (headerPieces (recs.length * kRecordSize) w.crc.toNat ++ [recs.flatMap encodeRecord]).flatten := by
    rw [hblob, header, List.flatten_append, List.flatten_singleton]
  have hlayout : (headerPieces (recs.length * kRecordSize) w.crc.toNat ++ [recs.flatMap encodeRecord]).map List.length =
      [4, 4, 8, 4, 4, recs.length * kRecordSize] := by
    simp [headerPieces, length_flatMap_encodeRecord]
  have hmagic : field w.finalize 0 4 = leBytes 4 kMagic := by
    rw [hpieces]
    exact field_flatten hlayout 0 rfl rfl (length_leBytes _ _)
  have hdata : field w.finalize 8 8 = leBytes 8 (recs.length * kRecordSize) := by
    rw [hpieces]
    exact field_flatten hlayout 2 rfl rfl (length_leBytes _ _)
  have hsum : field w.finalize 16 4 = leBytes 4 w.crc.toNat := by
    rw [hpieces]
    exact field_flatten hlayout 3 rfl rfl (length_leBytes _ _)
  have hrecs : w.finalize.drop kHeaderSize = recs.flatMap encodeRecord := by
    rw [hblob, ← length_header (recs.length * kRecordSize) w.crc.toNat, List.drop_left]
  have hn : recs.length * kRecordSize / kRecordSize = recs.length := Nat.mul_div_cancel _ (by decide)
  have hcrc : w.crc.toNat < 256 ^ 4 := w.crc.toNat_lt
  have hmagic' : kMagic < 256 ^ 4 := by decide
  unfold parse
  rw [if_neg (by omega), hmagic, leNat_leBytes_of_lt hmagic', if_neg (by simp)]
  simp only [hdata, hsum, hrecs, leNat_leBytes_of_lt (show recs.length * kRecordSize < 256 ^ 8 from hsize),
    leNat_leBytes_of_lt hcrc, hn]
  rw [if_neg (by omega), ← length_flatMap_encodeRecord, List.take_length, ← h.crc, if_neg (by simp)]
  congr 1
  refine List.ext_getElem (by simp) fun i hi hi' => ?_
  simp only [List.getElem_map, List.getElem_range]
  rw [field_stream hi', decodeRecord_encodeRecord (hf _ (List.getElem_mem hi'))]

end OverlayBD.Tracing
