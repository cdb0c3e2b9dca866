import OverlayBD.Format.HeaderTrailer
import OverlayBD.Format.MergedRead
import OverlayBD.Lib.Effect

/-!
# The ZFile reader (`format/zfile.cpp`, `format/zfile_format.cpp`)

A ZFile is a header, compressed blocks, an index of their sizes and a trailer.  Opening one builds the jump table
from the index; reading maps a range of the original file to blocks, fetches runs of compressed blocks and decodes
them, with a small cache of decoded blocks for repeated partial reads.

## The model

* `HeaderTrailer`, `parse`, `serialize`, `regionDigestOk` — the 512-byte regions.
* `JumpTable` — group bases and 16-bit deltas; `get` is `operator[]`, `none` an access behind its vectors.
* `openFile` — `ZFileSource::open` over the bytes of a blob.
* `BlockCodec` — what a codec does to one block; LZ4 and ZSTD are not modelled.
* `Cache` — the decoded blocks and the recent misses.
* `pread` — the read, over any source.  `Ctx.log` records what it touches: the jump table, the blob, its window of
  compressed bytes, the decoded block and the caller's buffer.
-/

namespace OverlayBD.ZFile

open Bytes Errno Effect

/-- Size of a header or trailer region. -/
def kSpace : ℕ := 512

/-- `HeaderTrailer::size`. -/
def kHeaderSize : ℕ := 96

/-- Largest entry count of an index. -/
def kMaxIndexSize : ℕ := 1000000000

/-- Compressed bytes fetched at once. -/
def kReadWindow : ℕ := 512 * 1024

/-- Seed of the block checksum. -/
def kNoiWellKnownPrime : UInt32 := 100007

/-- Largest 16-bit delta. -/
def kUinttypeMax : ℕ := 65535

def kMagic0 : List UInt8 := [0x5A, 0x46, 0x69, 0x6C, 0x65, 0x00, 0x01, 0x00]

def kMagic1 : List UInt8 :=
  [0x74, 0x75, 0x6A, 0x69, 0x2E, 0x79, 0x79, 0x66, 0x40, 0x41, 0x6C, 0x69, 0x62, 0x61, 0x62, 0x61]

/-! ### Regions -/

/-- `CompressOptions`. -/
structure CompressOptions where
  blockSize : ℕ := 4096
  algo : ℕ := 1
  level : ℕ := 0
  useDict : ℕ := 0
  reserved : ℕ := 0
  dictSize : ℕ := 0
  verify : ℕ := 0
deriving DecidableEq

/-- `HeaderTrailer`. -/
structure HeaderTrailer where
  size : ℕ := 96
  digest : ℕ := 0
  flags : ℕ := 0
  /-- Byte offset of the index region. -/
  indexOffset : ℕ := 0
  /-- Entry count. -/
  indexSize : ℕ := 0
  originalFileSize : ℕ := 0
  indexCrc : ℕ := 0
  reserved0 : ℕ := 0
  opt : CompressOptions := {}
deriving DecidableEq

namespace HeaderTrailer

/-- `get_flag_bit`. -/
def getFlagBit (h : HeaderTrailer) (shift : ℕ) : Bool := decide (h.flags / 2 ^ shift % 2 = 1)

def isHeader (h : HeaderTrailer) : Bool := h.getFlagBit 0

def isDataFile (h : HeaderTrailer) : Bool := h.getFlagBit 1

def isSealed (h : HeaderTrailer) : Bool := h.getFlagBit 2

def isHeaderOverwrite (h : HeaderTrailer) : Bool := h.getFlagBit 3

def isDigestEnabled (h : HeaderTrailer) : Bool := h.getFlagBit 4

/-- `HeaderTrailer::parse`; `none` is the format error. -/
def parse (b : List UInt8) : Option HeaderTrailer :=
  if field b 0 8 ≠ kMagic0 ∨ field b 8 16 ≠ kMagic1 then none
  else if leNat (field b 24 4) ≠ kHeaderSize then none
  else some
    { size := leNat (field b 24 4)
      digest := leNat (field b 28 4)
      flags := leNat (field b 32 8)
      indexOffset := leNat (field b 40 8)
      indexSize := leNat (field b 48 8)
      originalFileSize := leNat (field b 56 8)
      indexCrc := leNat (field b 64 4)
      reserved0 := leNat (field b 68 4)
      opt :=
        { blockSize := leNat (field b 72 4)
          algo := leNat (field b 76 1)
          level := leNat (field b 77 1)
          useDict := leNat (field b 78 1)
          reserved := leNat (field b 80 4)
          dictSize := leNat (field b 84 4)
          verify := leNat (field b 88 1) } }

/-- The pieces of a region in order. -/
def pieces (h : HeaderTrailer) : List (List UInt8) :=
  [kMagic0, kMagic1, leBytes 4 kHeaderSize, leBytes 4 h.digest, leBytes 8 h.flags, leBytes 8 h.indexOffset,
    leBytes 8 h.indexSize, leBytes 8 h.originalFileSize, leBytes 4 h.indexCrc, leBytes 4 h.reserved0,
    leBytes 4 h.opt.blockSize, leBytes 1 h.opt.algo, leBytes 1 h.opt.level, leBytes 1 h.opt.useDict, [0],
    leBytes 4 h.opt.reserved, leBytes 4 h.opt.dictSize, leBytes 1 h.opt.verify, List.replicate 7 0,
    List.replicate (kSpace - kHeaderSize) 0]

/-- `HeaderTrailer::serialize`. -/
def serialize (h : HeaderTrailer) : List UInt8 := h.pieces.flatten

end HeaderTrailer

/-- The region with another digest field. -/
def withDigest (region : List UInt8) (digest : ℕ) : List UInt8 :=
  region.take 28 ++ (leBytes 4 digest ++ region.drop 32)

/-- `region_digest_ok`. -/
def HeaderTrailer.regionDigestOk (h : HeaderTrailer) (region : List UInt8) : Bool :=
  !h.isDigestEnabled || decide ((crc32c (withDigest region 0)).toNat = h.digest)

/-- `set_region_digest`. -/
def setRegionDigest (region : List UInt8) : List UInt8 :=
  withDigest region (crc32c (withDigest region 0)).toNat

/-! ### The jump table -/

/-- `JumpTable`. -/
structure JumpTable where
  groupSize : ℕ
  partialOffset : List ℕ
  deltas : List ℕ

namespace JumpTable

/-- `operator[]`; `none` is an access behind one of the vectors. -/
def get (t : JumpTable) (idx : ℕ) : Option ℕ :=
  (t.partialOffset[idx / t.groupSize]?).bind fun part =>
    if idx &&& (t.groupSize - 1) = 0 then some part else (t.deltas[idx]?).map fun delta => part + delta

/-- The loop of `build`: the entries left, the block number, the offset so far and the last delta. -/
def buildLoop (group minBlksize : ℕ) : List ℕ → ℕ → ℕ → ℕ → List ℕ → List ℕ → Except ℤ JumpTable
  | [], _, _, _, parts, deltas => .ok ⟨group, parts, deltas⟩
  | e :: rest, i, raw, last, parts, deltas =>
    if e ≤ minBlksize then .error eio
    else if i % group = 0 then buildLoop group minBlksize rest (i + 1) (raw + e) 0 (parts ++ [raw + e]) (deltas ++ [0])
    else if kUinttypeMax ≤ last + e then .error erange
    else buildLoop group minBlksize rest (i + 1) (raw + e) (last + e) parts (deltas ++ [last + e])

/-- `block_size` is a power of two up to `65536`, as the reader and the writer test it. -/
def ValidBlockSize (bs : ℕ) : Prop := bs ≠ 0 ∧ bs ≤ 65536 ∧ bs &&& (bs - 1) = 0

instance (bs : ℕ) : Decidable (ValidBlockSize bs) := inferInstanceAs (Decidable (_ ∧ _))

/-- `JumpTable::build`. -/
def build (ibuf : List ℕ) (offsetBegin blockSize : ℕ) (enableCrc : Bool) : Except ℤ JumpTable :=
  if ¬ ValidBlockSize blockSize then .error einval
  else buildLoop ((kUinttypeMax + 1) / blockSize) (if enableCrc then 4 else 0) ibuf 1 offsetBegin 0 [offsetBegin] [0]

end JumpTable

/-! ### Opening -/

/-- `ZFileSource`, without its cache. -/
structure ZFileSource where
  /-- The trailer, unless the header was overwritten. -/
  ht : HeaderTrailer
  jump : JumpTable
  verify : Bool
  blockSize : ℕ

/-- The authoritative region and its offset. -/
def effective (f : File) (ht : HeaderTrailer) : Option (HeaderTrailer × ℕ) :=
  if ht.isHeaderOverwrite then some (ht, 0)
  else if ht.isDataFile = false then none
  else (HeaderTrailer.parse (f.read (f.size - kSpace) kSpace)).bind fun tht =>
    if tht.isHeader = true ∨ tht.isDataFile = false ∨ tht.isSealed = false then none
    else some (tht, f.size - kSpace)

/-- The index region. -/
def rawIndex (f : File) (ht : HeaderTrailer) : List UInt8 := f.read ht.indexOffset (ht.indexSize * 4)

/-- The compressed sizes in the index region. -/
def indexEntries (f : File) (ht : HeaderTrailer) : List ℕ :=
  (List.range ht.indexSize).map fun i => leNat (f.read (ht.indexOffset + i * 4) 4)

/-- The index of the authoritative region `eff`, and the table from it. -/
def openIndex (available : ℕ → Bool) (f : File) (verify overwritten : Bool) (eff : HeaderTrailer) (trailerOffset : ℕ) :
    Except ℤ ZFileSource :=
  if kMaxIndexSize < eff.indexSize then .error einval
  -- the subtraction is unsigned: an index behind the trailer passes, and its read falls short
  else if overwritten = false ∧
      (trailerOffset + 2 ^ 64 - eff.indexOffset) % 2 ^ 64 < eff.indexSize * 4 then .error einval
  else if eff.opt.useDict ≠ 0 ∨ eff.opt.dictSize ≠ 0 then .error einval
  else if available eff.opt.algo = false then .error einval
  else if 0 < eff.indexSize * 4 ∧ f.size < eff.indexOffset + eff.indexSize * 4 then .error eio
  else if eff.isDigestEnabled = true ∧ (crc32c (rawIndex f eff)).toNat ≠ eff.indexCrc then .error einval
  else
    match JumpTable.build (indexEntries f eff) (kSpace + eff.opt.dictSize) eff.opt.blockSize
      (decide (eff.opt.verify ≠ 0)) with
    | .error e => .error e
    | .ok jump => .ok ⟨eff, jump, decide (eff.opt.verify ≠ 0) && verify, eff.opt.blockSize⟩

/-- `ZFileSource::open`; `available` is `block_codec_available`. -/
def openFile (available : ℕ → Bool) (f : File) (verify : Bool) : Except ℤ ZFileSource :=
  if f.size < kSpace * 2 then .error einval
  else
    match HeaderTrailer.parse (f.read 0 kSpace) with
    | none => .error einval
    | some ht =>
      if ht.isHeader = false ∨ ht.regionDigestOk (f.read 0 kSpace) = false then .error einval
      else
        match effective f ht with
        | none => .error einval
        | some (eff, trailerOffset) => openIndex available f verify ht.isHeaderOverwrite eff trailerOffset

/-! ### Codecs and the cache -/

/-- One codec: `decode` turns a compressed block into its `expected` bytes, `encode` answers the compressed bytes. -/
structure BlockCodec where
  decode : List UInt8 → (expected : ℕ) → Except ℤ Buf
  encode : List UInt8 → Except ℤ (List UInt8)
  compressBound : ℕ → ℕ

/-- `BlockCodec::decompress`. -/
def BlockCodec.decompress (codec : BlockCodec) (src : List UInt8) (capacity expected : ℕ) : Except ℤ Buf :=
  if capacity < expected then .error eoverflow else codec.decode src expected

/-- `BlockCodec::compress`. -/
def BlockCodec.compress (codec : BlockCodec) (src : List UInt8) (capacity : ℕ) : Except ℤ (List UInt8) :=
  if capacity < codec.compressBound src.length then .error eoverflow else codec.encode src

/-- The decoded blocks, eight slots, and the last sixteen misses. -/
structure Cache where
  decoded : List (Option (ℕ × Buf))
  replacement : ℕ
  seen : List ℕ
  seenCount : ℕ
  seenNext : ℕ

namespace Cache

def empty : Cache := ⟨List.replicate 8 none, 0, List.replicate 16 0, 0, 0⟩

/-- The bytes cached for a block. -/
def find (c : Cache) (index : ℕ) : Option Buf :=
  c.decoded.findSome? fun entry => entry.bind fun e => if e.1 = index then some e.2 else none

/-- `decoded_get`: the bytes, or whether the block may be admitted. -/
def get (c : Cache) (index : ℕ) : (Option Buf × Bool) × Cache :=
  match c.find index with
  | some bytes => ((some bytes, false), c)
  | none =>
    if index ∈ c.seen.take c.seenCount then ((none, true), c)
    else ((none, false),
      { c with
        seen := c.seen.set c.seenNext index
        seenNext := (c.seenNext + 1) % 16
        seenCount := min (c.seenCount + 1) 16 })

/-- `decoded_put`. -/
def put (c : Cache) (index : ℕ) (bytes : Buf) : Cache :=
  if (c.find index).isSome then c
  else
    { c with
      decoded := c.decoded.set c.replacement (some (index, bytes))
      replacement := (c.replacement + 1) % 8 }

end Cache

/-! ### Reading -/

/-- What a read touches. -/
inductive Event where
  /-- `jump_[idx]`. -/
  | jump (idx : ℕ)
  /-- A request to the blob. -/
  | read (off len : ℕ)
  /-- Bytes of the window, of `total`. -/
  | window (off len total : ℕ)
  /-- The codec fills the caller's buffer. -/
  | decode (dst len : ℕ)
  /-- `memcpy` from a decoded block of `block` bytes into the caller's buffer. -/
  | copy (dst start len block : ℕ)
deriving DecidableEq, Repr

/-- The state of a read. -/
structure Ctx where
  out : Buf
  log : List Event
  cache : Cache
  /-- Requests made to the blob. -/
  calls : ℕ

/-- Record an access. -/
def emit (e : Event) : Eff Ctx Unit := modify fun s => { s with log := s.log ++ [e] }

/-- `jump_[idx]`; what lies behind the vectors is not modelled. -/
def jumpAt (t : JumpTable) (idx : ℕ) : Eff Ctx ℕ := do
  emit (.jump idx)
  need efault (t.get idx)

/-- A full read of the blob. -/
def readAt (src : BlobSource) (len off : ℕ) : Eff Ctx Buf := do
  emit (.read off len)
  let calls ← gets Ctx.calls
  modify fun s => { s with calls := s.calls + 1 }
  let reply := src.pread calls len off
  refuse (reply.ret < 0) (-reply.ret)
  refuse (reply.ret ≠ len) eio
  return reply.bytes

section Read

variable (z : ZFileSource) (src : BlobSource) (codec : BlockCodec)

/-- The block checksum. -/
def checkBlock (win : Buf) (winLen offInWin compLen : ℕ) : Eff Ctx Unit := do
  emit (.window (offInWin + compLen) 4 winLen)
  emit (.window offInWin compLen winLen)
  refuse (leNat (win.slice (offInWin + compLen) 4) ≠
    (crc32cExtend (win.slice offInWin compLen) kNoiWellKnownPrime).toNat) eio

/-- The part of a block that the caller still needs, decoded in place or through a buffer of one block. -/
def decodeBlock (win : Buf) (winLen offInWin compLen pos off count : ℕ) (retain : Bool) (i done : ℕ) : Eff Ctx ℕ := do
  let blkStart := i * z.blockSize
  let blkUncomp := min z.blockSize (z.ht.originalFileSize - blkStart)
  let absFrom := max pos blkStart
  let absTo := min (off + count) (blkStart + blkUncomp)
  let inStart := absFrom - blkStart
  let inLen := absTo - absFrom
  emit (.window offInWin compLen winLen)
  if inStart = 0 ∧ inLen = blkUncomp then do
    emit (.decode done inLen)
    match codec.decompress (win.slice offInWin compLen) inLen blkUncomp with
    | .error e => fail e
    | .ok bytes =>
      modify fun s => { s with out := s.out.put done inLen bytes }
      return done + inLen
  else
    match codec.decompress (win.slice offInWin compLen) z.blockSize blkUncomp with
    | .error e => fail e
    | .ok bytes =>
      onlyIf (retain = true) (modify fun s => { s with cache := s.cache.put i bytes })
      emit (.copy done inStart inLen blkUncomp)
      modify fun s => { s with out := s.out.put done inLen fun k => bytes (inStart + k) }
      return done + inLen

/-- One block of a batch; the answer is the new `done`. -/
def block (win : Buf) (winLen base pos off count : ℕ) (retain : Bool) (i done : ℕ) : Eff Ctx ℕ := do
  let first ← jumpAt z.jump i
  let next ← jumpAt z.jump (i + 1)
  let offInWin := first - base
  let compLen := if z.verify then next - first - 4 else next - first
  onlyIf (z.verify = true) (checkBlock win winLen offInWin compLen)
  decodeBlock z codec win winLen offInWin compLen pos off count retain i done

/-- The blocks of a batch. -/
def blocks (win : Buf) (winLen base pos off count : ℕ) (retain : Bool) : ℕ → ℕ → ℕ → Eff Ctx ℕ
  | 0, _, done => pure done
  | n + 1, i, done => do
    let done ← block z codec win winLen base pos off count retain i done
    blocks win winLen base pos off count retain n (i + 1) done

/-- The end of a batch: as many further blocks as fit the window. -/
def batchEnd (t : JumpTable) (base last : ℕ) : ℕ → ℕ → Eff Ctx ℕ
  | 0, endIdx => pure endIdx
  | n + 1, endIdx => do
    let j ← jumpAt t endIdx
    if j - base ≤ kReadWindow then batchEnd t base last n (endIdx + 1) else pure endIdx

/-- The loop of `pread`, each turn one batch. -/
def readLoop (off count : ℕ) (retain : Bool) : ℕ → ℕ → Eff Ctx ℕ
  | 0, done => pure done
  | n + 1, done =>
    if count ≤ done then pure done
    else do
      let pos := off + done
      let beginIdx := pos / z.blockSize
      let lastIdx := (off + count - 1) / z.blockSize
      let base ← jumpAt z.jump beginIdx
      let endIdx ← batchEnd z.jump base lastIdx (lastIdx - beginIdx) (beginIdx + 1)
      let stop ← jumpAt z.jump endIdx
      let win ← readAt src (stop - base) base
      let done ← blocks z codec win (stop - base) base pos off count retain (endIdx - beginIdx) beginIdx done
      readLoop off count retain n done

/-- A read of bytes the file has; `alloc` is whether the shared buffer for a new cache entry can be had. -/
def preadInside (alloc : Bool) (count off : ℕ) : Eff Ctx ℕ := do
  let cacheIndex := off / z.blockSize
  let cacheOffset := off % z.blockSize
  let decodedSize := min z.blockSize (z.ht.originalFileSize - cacheIndex * z.blockSize)
  if count < decodedSize ∧ count ≤ decodedSize - cacheOffset then do
    let found ← gets fun s => (s.cache.get cacheIndex).1
    modify fun s => { s with cache := (s.cache.get cacheIndex).2 }
    match found.1 with
    | some bytes => do
      emit (.copy 0 cacheOffset count decodedSize)
      modify fun s => { s with out := s.out.put 0 count fun k => bytes (cacheOffset + k) }
      return count
    | none => readLoop z src codec off count (found.2 && alloc) count 0
  else readLoop z src codec off count false count 0

/-- `ZFileSource::pread`. -/
def pread (alloc : Bool) (count off : ℕ) : Eff Ctx ℕ :=
  if z.ht.originalFileSize ≤ off then pure 0
  else
    let count := if z.ht.originalFileSize - off < count then z.ht.originalFileSize - off else count
    if count = 0 then pure 0 else preadInside z src codec alloc count off

end Read

end OverlayBD.ZFile
