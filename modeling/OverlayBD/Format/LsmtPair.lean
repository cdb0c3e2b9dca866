import OverlayBD.Format.HeaderTrailer
import OverlayBD.Format.SegmentEdit
import OverlayBD.Lib.Effect

/-!
# The data/index pair of the LSMT writable layer

An unsealed LSMT layer is two files: the data file, a header and then payload, and the index file, a header and
then a log of 16-byte records.  Growing the layer rewrites both headers through an intent file.

## The model

* `Replay` — the reading of a log: one record after the other, older runs split, limits checked; `finish`
  refuses runs that share payload.
* `validatePair` — the checks on the two headers and sizes.
* `Disk` — the two files, the published grow intent, and the faults the system calls will meet: a call that
  meets one fails with its number, a write after part of the bytes.  Reads return what was written.
* `FilePair` — `lsmt_rw::FilePair`, with `openSync`, `createSync`, `append`, `flush`, `compactSync`,
  `recoverGrow`, `grow`.

Left out: file names, locks and the creation intent, which only matter to other processes and to a creation that
was interrupted.  A run of calls with one effect on failure is one call here.
-/

namespace OverlayBD

open Intervals SegmentMapping Bytes Errno Effect

/-! ### The log -/

/-- `lsmt_rw::kMaxLogRecords`. -/
def kMaxLogRecords : ℕ := 4 * kMaxRoIndexSize

/-- `isxdigit`. -/
def isXdigit (c : UInt8) : Bool :=
  (48 ≤ c && c ≤ 57) || (65 ≤ c && c ≤ 70) || (97 ≤ c && c ≤ 102)

/-- `valid_uuid`. -/
def validUuid (u : List UInt8) : Bool :=
  decide (u.length = 36) && u.zipIdx.all fun (c, i) =>
    if i = 8 ∨ i = 13 ∨ i = 18 ∨ i = 23 then c == 45 else isXdigit c

/-- `validate_pair`: the record count, or the format error. -/
def validatePair (data index : HeaderTrailer) (dataBytes indexBytes : ℕ) : Option ℕ :=
  if data.flags ≠ 3 ∨ index.flags ≠ 1 ∨ data.version ≠ 1 ∨ index.version ≠ 1 ∨ data.subVersion ≠ 1 ∨
      index.subVersion ≠ 1 ∨ data.reserved ≠ 0 ∨ index.reserved ≠ 0 then none
  else if validUuid data.uuid = false ∨ data.uuid ≠ index.uuid ∨ data.parentUuid ≠ index.parentUuid ∨
      (data.parentUuid ≠ [] ∧ validUuid data.parentUuid = false) ∨ data.virtualSize ≠ index.virtualSize then none
  else if data.virtualSize = 0 ∨ data.virtualSize % kAlignment ≠ 0 ∨ kMaxOffset < data.virtualSize / kAlignment ∨
      dataBytes < kSpace ∨ dataBytes % kAlignment ≠ 0 ∨ kMaxMoffset ≤ dataBytes / kAlignment then none
  else if data.indexOffset ≠ 0 ∨ data.indexSize ≠ 0 ∨ index.indexOffset ≠ kSpace ∨ index.indexSize ≠ 0 ∨
      indexBytes < kSpace ∨ (indexBytes - kSpace) % kEncodedSize ≠ 0 then none
  else if kMaxLogRecords < (indexBytes - kSpace) / kEncodedSize then none
  else some ((indexBytes - kSpace) / kEncodedSize)

/-- `Replay`. -/
structure Replay where
  sectors : ℕ
  dataSectors : ℕ
  /-- Records read, padding included. -/
  records : ℕ
  /-- The ordered map of live runs. -/
  live : List SegmentMapping

namespace Replay

/-- The constructor; `none` is its format error. -/
def start (virtualSize dataBytes : ℕ) : Option Replay :=
  if virtualSize = 0 ∨ virtualSize % kAlignment ≠ 0 ∨ kMaxOffset < virtualSize / kAlignment ∨
      dataBytes < kSpace ∨ dataBytes % kAlignment ≠ 0 ∨ kMaxMoffset ≤ dataBytes / kAlignment then none
  else some ⟨virtualSize / kAlignment, dataBytes / kAlignment, 0, []⟩

/-- A record as the map keeps it: a ZERO run without backing, the tag dropped. -/
def normalize (m : SegmentMapping) : SegmentMapping :=
  { m with moffset := if m.zeroed then kDataStartSector else m.moffset, tag := 0 }

/-- `Replay::append`, one record. -/
def append (r : Replay) (m : SegmentMapping) : Option Replay :=
  if kMaxLogRecords ≤ r.records then none
  else if m.offset = kInvalidOffset then some { r with records := r.records + 1 }
  else if m.length = 0 ∨ r.sectors ≤ m.offset ∨ r.sectors - m.offset < m.length then none
  else if m.zeroed = false ∧ (m.moffset < kDataStartSector ∨ r.dataSectors ≤ m.moffset ∨
      r.dataSectors - m.moffset < m.length) then none
  else
    let live := placeSorted (eraseRange m.offset m.stop r.live) (normalize m)
    if kMaxRoIndexSize < live.length then none else some { r with records := r.records + 1, live := live }

/-- The physical runs of the live DATA mappings. -/
def physical (r : Replay) : List (ℕ × ℕ) :=
  (r.live.filter fun m => !m.zeroed).map fun m => (m.moffset, m.mend)

/-- The order `std::sort` puts pairs in. -/
def pairLe (a b : ℕ × ℕ) : Bool := decide (a.1 < b.1 ∨ a.1 = b.1 ∧ a.2 ≤ b.2)

/-- Some run starts before the one sorted in front of it ends. -/
def overlaps : List (ℕ × ℕ) → Bool
  | a :: b :: l => decide (b.1 < a.2) || overlaps (b :: l)
  | _ => false

/-- `Replay::finish`; `none` is the aliasing error. -/
def finish (r : Replay) : Option (List SegmentMapping) :=
  if overlaps (r.physical.mergeSort pairLe) then none else some r.live

/-- A whole log, read from bytes of an index file behind its header. -/
def load (virtualSize dataBytes : ℕ) (index : File) (count : ℕ) : Option (List SegmentMapping) := do
  let r ← start virtualSize dataBytes
  let r ← (List.range count).foldlM (fun r i => r.append (loadSegmentLe (index.read (kSpace + 16 * i) 16))) r
  r.finish

end Replay

/-! ### The disk -/

/-- Files end here (`loff_t`). -/
def kMaxFileSize : ℕ := 2 ^ 63 - 1

/-- A failing system call. -/
structure Fault where
  /-- Bytes of a write that still reached the file. -/
  written : ℕ
  errno : ℤ
  pos : 0 < errno

/-- The two files of a pair. -/
inductive Artifact where
  | data
  | index
deriving DecidableEq

/-- The directory of a pair and what its calls will meet. -/
structure Disk where
  data : File
  index : File
  /-- `<index>.grow`. -/
  growIntent : Option (List UInt8)
  /-- The fault the `n`-th call meets. -/
  faults : ℕ → Option Fault
  tick : ℕ

namespace Disk

/-- The file of an artifact. -/
def file (d : Disk) : Artifact → File
  | .data => d.data
  | .index => d.index

/-- Replace the file of an artifact. -/
def setFile (d : Disk) (a : Artifact) (f : File) : Disk :=
  match a with
  | .data => { d with data := f }
  | .index => { d with index := f }

/-- The disk after one more call. -/
def passed (d : Disk) : Disk := { d with tick := d.tick + 1 }

/-- A call without effect on the files: open, lock, sync. -/
def call : Eff Disk Unit := fun d =>
  match d.faults d.tick with
  | some f => (.error f.errno, d.passed)
  | none => (.ok (), d.passed)

/-- Write `n` bytes of `src` at `off`, completely or not; no byte goes behind the largest size. -/
def write (a : Artifact) (off n : ℕ) (src : Buf) : Eff Disk Unit := fun d =>
  match d.faults d.tick with
  | some f =>
    (.error f.errno, (d.setFile a ((d.file a).write off (min (min f.written (kMaxFileSize - off)) n) src)).passed)
  | none =>
    if kMaxFileSize < off + n then (.error efbig, d.passed)
    else (.ok (), (d.setFile a ((d.file a).write off n src)).passed)

end Disk

/-! ### The pair -/

/-- `lsmt_rw::FilePair`. -/
structure FilePair where
  disk : Disk
  header : HeaderTrailer
  dataBytes : ℕ
  indexBytes : ℕ
  poisoned : Bool
  growthPending : Bool
  mappings : List SegmentMapping
  /-- `live_ranges_`: the exact intervals of a replay, by start. -/
  liveRanges : List (ℕ × ℕ)

namespace FilePair

/-- A system call of the pair. -/
def sys {α : Type} (m : Eff Disk α) : Eff FilePair α := zoom disk (fun p d => { p with disk := d }) m

/-- Write a byte string. -/
def writeBytes (a : Artifact) (off : ℕ) (bs : List UInt8) : Eff FilePair Unit :=
  sys (Disk.write a off bs.length fun i => bs.getD i 0)

/-! #### Recognising a sealed file -/

/-- The record loop of `sealed_trailer`. -/
def trailerRecords (data : File) (tail : HeaderTrailer) : ℕ → ℕ → ℕ → Bool
  | 0, _, _ => true
  | n + 1, i, previous =>
    let m := loadSegmentLe (data.read (tail.indexOffset + 16 * i) 16)
    if m.offset = kInvalidOffset then trailerRecords data tail n (i + 1) previous
    else if m.length = 0 ∨ m.offset < previous ∨ tail.virtualSize / kAlignment < m.stop then false
    else
      let fin := tail.indexOffset / kAlignment
      if m.moffset < kDataStartSector ∨ fin < m.moffset ∨
          (m.zeroed = false ∧ (m.moffset = fin ∨ fin - m.moffset < m.length)) then false
      else trailerRecords data tail n (i + 1) m.stop

/-- `sealed_trailer`: do the last 4096 bytes of the data file read as the trailer of a sealed layer? -/
def sealedTrailer (data : File) : Bool :=
  if data.size < 2 * kSpace then false
  else
    match HeaderTrailer.parse (data.read (data.size - kSpace) kSpace) with
    | none => false
    | some tail =>
      if tail.flags ≠ 6 ∨ tail.version ≠ 1 ∨ tail.subVersion ≠ 1 ∨ tail.indexOffset < kSpace ∨
          data.size - kSpace < tail.indexOffset ∨ kMaxRoIndexSize < tail.indexSize ∨
          data.size - kSpace - tail.indexOffset < tail.indexSize * 16 ∨ tail.virtualSize % kAlignment ≠ 0 then false
      else trailerRecords data tail tail.indexSize 0 0

/-! #### Growing -/

def kGrowMagic : ℕ := 0x31574f52474d534c

def kGrowBytes : ℕ := 16 + 2 * kSpace + 4

/-- A capacity that a short forward write of `target` over `old` can leave. -/
def capacityMatches (old target capacity : ℕ) : Bool :=
  (List.range 9).any fun k =>
    decide (capacity = target % 2 ^ (8 * k) + old / 2 ^ (8 * k) * 2 ^ (8 * k))

/-- The live header differs from the one wanted in its capacity only. -/
def growMatches (old capacity : ℕ) (wanted current : HeaderTrailer) : Bool :=
  capacityMatches old capacity current.virtualSize &&
    match { current with virtualSize := capacity }.serialize, wanted.serialize with
    | some normalized, some wanted => normalized == wanted
    | _, _ => false

/-- The size of an index without its incomplete last record. -/
def completeIndex (size : ℕ) : ℕ := kSpace + (size - kSpace) / 16 * 16

/-- Everything `recover_grow` checks before it rewrites a header; the target header, or the format error. -/
def checkGrow (d : Disk) (raw : List UInt8) : Option HeaderTrailer := do
  guard (raw.length = kGrowBytes)
  guard (leNat (field raw 0 8) = kGrowMagic)
  guard (leNat (field raw (kGrowBytes - 4) 4) = (crc32c (raw.take (kGrowBytes - 4))).toNat)
  let old := leNat (field raw 8 8)
  let target ← HeaderTrailer.parse (field raw 16 kSpace)
  let targetIndex ← HeaderTrailer.parse (field raw (16 + kSpace) kSpace)
  guard (old ≠ 0 ∧ old % kAlignment = 0 ∧ old < target.virtualSize)
  let dataSize := d.data.size / kAlignment * kAlignment
  guard (kSpace ≤ d.index.size)
  let count ← validatePair target targetIndex dataSize (completeIndex d.index.size)
  let header ← HeaderTrailer.parse (d.data.read 0 kSpace)
  guard (growMatches old target.virtualSize target header)
  let indexHeader ← HeaderTrailer.parse (d.index.read 0 kSpace)
  guard (growMatches old target.virtualSize targetIndex indexHeader)
  let _ ← Replay.load target.virtualSize dataSize d.index count
  return target

/-- The rewriting part of `recover_grow`: from here on the transaction rolls forward. -/
def rollForward (raw : List UInt8) (target : HeaderTrailer) : Eff FilePair Unit := do
  modify fun p => { p with growthPending := true, poisoned := true, header := target }
  writeBytes .data 0 (field raw 16 kSpace)
  writeBytes .index 0 (field raw (16 + kSpace) kSpace)
  sys Disk.call -- fdatasync of both files
  sys Disk.call -- unlinkat
  modify fun p => { p with disk := { p.disk with growIntent := none } }
  sys Disk.call -- fsync of the directory
  modify fun p => { p with growthPending := false, poisoned := false }

/-- `recover_grow`: finish a published grow, if there is one. -/
def recoverGrow : Eff FilePair Unit := do
  match ← gets fun p => p.disk.growIntent with
  | none => pure ()
  | some raw =>
    let target ← need einval (checkGrow (← gets disk) raw)
    rollForward raw target

/-- The intent `grow` publishes. -/
def growIntent (p : FilePair) (vsize : ℕ) : Option (List UInt8) := do
  let target ← ({ p.header with virtualSize := vsize } : HeaderTrailer).serialize
  let ih ← HeaderTrailer.parse (p.disk.index.read 0 kSpace)
  let _ ← validatePair p.header ih p.disk.data.size p.indexBytes
  let targetIndex ← ({ ih with virtualSize := vsize } : HeaderTrailer).serialize
  let body := leBytes 8 kGrowMagic ++ leBytes 8 p.header.virtualSize ++ target ++ targetIndex
  return body ++ leBytes 4 (crc32c body).toNat

/-- The second half of `grow`: publish an intent and carry it out. -/
def publishGrow (p : FilePair) (vsize : ℕ) : Eff FilePair Unit := do
  refuse (vsize = 0 ∨ vsize % kAlignment ≠ 0 ∨ kMaxOffset < vsize / kAlignment ∨ vsize < p.header.virtualSize) einval
  if vsize = p.header.virtualSize then pure ()
  else do
    let raw ← need einval (p.growIntent vsize)
    sys Disk.call -- the temporary file
    refuse (p.disk.growIntent.isSome = true) eexist
    sys Disk.call -- linkat
    modify fun p =>
      { p with disk := { p.disk with growIntent := some raw }, growthPending := true, poisoned := true }
    sys Disk.call -- fsync of the directory
    recoverGrow

/-- `FilePair::grow`. -/
def grow (vsize : ℕ) : Eff FilePair Unit := do
  let p ← gets id
  refuse (p.poisoned = true ∧ p.growthPending = false) eio
  onlyIf (p.growthPending = true) do
    recoverGrow
    sys Disk.call -- fsync of the directory
    modify fun p => { p with growthPending := false, poisoned := false }
  publishGrow (← gets id) vsize

/-! #### Opening and creating -/

/-- A pair about to be opened. -/
abbrev closed (d : Disk) : FilePair := ⟨d, {}, 0, 0, false, false, [], []⟩

/-- The body of `open_sync`. -/
def openBody : Eff FilePair Unit := do
  let d ← gets disk
  refuse (d.data.size < kSpace) einval
  let header ← need einval (HeaderTrailer.parse (d.data.read 0 kSpace))
  modify fun p => { p with header := header }
  refuse (header.isSealed = true ∨ sealedTrailer d.data = true) ealready
  refuse (d.index.size < kSpace) einval
  recoverGrow
  let p ← gets id
  let ih ← need einval (HeaderTrailer.parse (p.disk.index.read 0 kSpace))
  let indexBytes := completeIndex d.index.size
  let complete := d.data.size / kAlignment * kAlignment
  let count ← need einval (validatePair p.header ih complete indexBytes)
  let live ← need einval (Replay.load p.header.virtualSize complete p.disk.index count)
  let dataBytes := (d.data.size + kAlignment - 1) / kAlignment * kAlignment
  modify fun p =>
    { p with
      disk := { p.disk with data := p.disk.data.truncate dataBytes, index := p.disk.index.truncate indexBytes }
      dataBytes := dataBytes
      indexBytes := indexBytes
      mappings := live
      liveRanges := live.map fun m => (m.offset, m.stop) }

/-- `open_sync`. -/
def openSync (d : Disk) : Except ℤ FilePair :=
  match openBody (closed d) with
  | (.ok _, p) => .ok p
  | (.error e, _) => .error e

/-- The index header that belongs to a data header. -/
def indexHeader (header : HeaderTrailer) : HeaderTrailer :=
  { header with flags := 1, indexOffset := kSpace, indexSize := 0 }

/-- The data header of a new pair. -/
def dataHeader (virtualSize : ℕ) (uuid : List UInt8) : HeaderTrailer :=
  { flags := 3, virtualSize := virtualSize, uuid := uuid }

/-- The directory of a pair that was just created. -/
def newDisk (data index : List UInt8) (faults : ℕ → Option Fault) : Disk :=
  ⟨File.empty.writeBytes 0 data, File.empty.writeBytes 0 index, none, faults, 0⟩

/-- `create_sync`, into a directory that has neither artifact. -/
def createSync (virtualSize : ℕ) (uuid : List UInt8) (faults : ℕ → Option Fault) : Except ℤ FilePair :=
  let dh := dataHeader virtualSize uuid
  let ih := indexHeader dh
  match validatePair dh ih kSpace kSpace, dh.serialize, ih.serialize with
  | some _, some data, some index => openSync (newDisk data index faults)
  | _, _, _ => .error einval

/-! #### Publishing -/

/-- What is left of a range once `[lo, hi)` is replaced. -/
def trimRange (lo hi : ℕ) (r : ℕ × ℕ) : List (ℕ × ℕ) :=
  if r.2 ≤ lo ∨ hi ≤ r.1 then [r]
  else (if r.1 < lo then [(r.1, lo)] else []) ++ if hi < r.2 then [(hi, r.2)] else []

/-- `live_ranges_` after a record. -/
def replaceRange (ranges : List (ℕ × ℕ)) (m : SegmentMapping) : List (ℕ × ℕ) :=
  let rest := ranges.flatMap (trimRange m.offset m.stop)
  (rest.takeWhile fun r => decide (r.1 < m.offset)) ++
    (m.offset, m.stop) :: rest.dropWhile fun r => decide (r.1 < m.offset)

/-- `FilePair::append`. -/
def append (m : SegmentMapping) : Eff FilePair Unit := do
  let p ← gets id
  refuse (p.poisoned = true) eio
  refuse (kMaxLogRecords ≤ (p.indexBytes - kSpace) / 16) efbig
  refuse (kMaxRoIndexSize < (replaceRange p.liveRanges m).length) efbig
  onError (writeBytes .index p.indexBytes (storeSegmentLe m)) fun p => { p with poisoned := true }
  modify fun p => { p with liveRanges := replaceRange p.liveRanges m, indexBytes := p.indexBytes + 16 }

/-- `FilePair::flush`. -/
def flush : Eff FilePair Unit := do
  let p ← gets id
  refuse (p.poisoned = true) eio
  sys Disk.call -- data
  sys Disk.call -- index
  sys Disk.call -- directory

/-- The check `compact_sync` replays the new log through. -/
def replayLive (r : Replay) (live : List SegmentMapping) : Option Replay := do
  let (_, r) ← live.foldlM
    (fun ((previous, r) : ℕ × Replay) m => do
      guard (previous ≤ m.offset)
      return (m.stop, ← r.append (loadSegmentLe (storeSegmentLe m)))) (0, r)
  return r

/-- `FilePair::compact_sync`. -/
def compactSync (live : List SegmentMapping) : Eff FilePair Unit := do
  let p ← gets id
  refuse (p.poisoned = true) eio
  refuse (kMaxRoIndexSize < live.length) efbig
  sys Disk.call -- the temporary index
  let replay ← need einval (Replay.start p.header.virtualSize p.disk.data.size)
  let replayed ← need einval ((replayLive replay live).bind Replay.finish)
  sys Disk.call -- fdatasync of the data
  let region ← need einval (indexHeader p.header).serialize
  sys Disk.call -- writing and syncing the new log
  sys Disk.call -- renameat
  modify fun p =>
    { p with
      disk := { p.disk with index := File.empty.writeBytes 0 (region ++ live.flatMap storeSegmentLe) }
      indexBytes := kSpace + 16 * live.length
      liveRanges := replayed.map fun m => (m.offset, m.stop) }
  sys Disk.call -- fsync of the directory

/-! ### What the pair leaves alone -/

/-- Payload behind the header stays, the data file does not shrink, and the capacity stays in range. -/
def payload : Guarantee FilePair where
  rel p p' := p.disk.data.size ≤ p'.disk.data.size ∧
    (∀ i, kSpace ≤ i → p'.disk.data.byte i = p.disk.data.byte i) ∧
    (p.header.virtualSize ≤ kMaxOffset * kAlignment → p'.header.virtualSize ≤ kMaxOffset * kAlignment)
  refl _ := ⟨le_rfl, fun _ _ => rfl, id⟩
  trans h h' := ⟨h.1.trans h'.1, fun i hi => (h'.2.1 i hi).trans (h.2.1 i hi), fun hv => h'.2.2 (h.2.2 hv)⟩

/-- A change elsewhere. -/
theorem respects_elsewhere {f : FilePair → FilePair}
    (h : ∀ p, (f p).disk.data = p.disk.data ∧ (f p).header = p.header) : Respects payload (modify f) := by
  intro p
  obtain ⟨hd, hh⟩ := h p
  refine ⟨?_, fun _ _ => ?_, fun hv => ?_⟩
  · rw [hd]
  · rw [hd]
  · rw [hh]
    exact hv

theorem respects_call : Respects payload (sys Disk.call) := by
  intro p
  rw [sys, wp_zoom]
  unfold wp Disk.call
  cases p.disk.faults p.disk.tick with
  | none => exact payload.refl p
  | some f => exact ⟨f.pos, payload.refl p⟩

theorem respects_write_index (off n : ℕ) (src : Buf) : Respects payload (sys (Disk.write .index off n src)) := by
  intro p
  rw [sys, wp_zoom]
  unfold wp Disk.write
  cases p.disk.faults p.disk.tick with
  | none =>
    by_cases hk : kMaxFileSize < off + n
    · simp only [if_pos hk]
      exact ⟨by simp [efbig], payload.refl p⟩
    · simp only [if_neg hk]
      exact payload.refl p
  | some f => exact ⟨f.pos, payload.refl p⟩

/-- A write inside the header of the data file. -/
theorem respects_write_header {n : ℕ} (hn : n ≤ kSpace) (src : Buf) :
    Respects payload (sys (Disk.write .data 0 n src)) := by
  have hw : ∀ (p : FilePair) (k : ℕ), k ≤ n → payload.rel p
      { p with disk := (p.disk.setFile .data (p.disk.data.write 0 k src)).passed } := by
    intro p k hk
    refine ⟨File.size_le_size_write, fun i hi => File.byte_write_of_not (by omega), id⟩
  intro p
  rw [sys, wp_zoom]
  unfold wp Disk.write
  cases p.disk.faults p.disk.tick with
  | none =>
    by_cases hk : kMaxFileSize < 0 + n
    · simp only [if_pos hk]
      exact ⟨by simp [efbig], payload.refl p⟩
    · simp only [if_neg hk]
      exact hw p n le_rfl
  | some f => exact ⟨f.pos, hw p _ (min_le_right _ _)⟩

theorem respects_rollForward {raw : List UInt8} {target : HeaderTrailer}
    (ht : target.virtualSize ≤ kMaxOffset * kAlignment) : Respects payload (rollForward raw target) := by
  have hlen : ∀ off, (field raw off kSpace).length ≤ kSpace := fun off => by
    rw [field, List.length_take]
    exact min_le_left _ _
  refine Respects.bind (fun p => ⟨le_rfl, fun _ _ => rfl, fun _ => ht⟩) fun _ => ?_
  refine (respects_write_header (hlen _) _).bind fun _ => ?_
  refine (respects_write_index _ _ _).bind fun _ => ?_
  refine respects_call.bind fun _ => ?_
  refine respects_call.bind fun _ => ?_
  refine Respects.bind (respects_elsewhere fun _ => ⟨rfl, rfl⟩) fun _ => ?_
  exact respects_call.bind fun _ => respects_elsewhere fun _ => ⟨rfl, rfl⟩

theorem validatePair_capacity {data index : HeaderTrailer} {dataBytes indexBytes n : ℕ}
    (h : validatePair data index dataBytes indexBytes = some n) :
    data.virtualSize % kAlignment = 0 ∧ data.virtualSize ≤ kMaxOffset * kAlignment := by
  unfold validatePair at h
  split_ifs at h with h1 h2 h3 h4 h5
  simp only [kAlignment] at *
  omega

theorem checkGrow_capacity {d : Disk} {raw : List UInt8} {target : HeaderTrailer}
    (h : checkGrow d raw = some target) : target.virtualSize ≤ kMaxOffset * kAlignment := by
  simp only [checkGrow, Option.bind_eq_bind, Option.bind_eq_some_iff] at h
  obtain ⟨-, -, -, -, -, -, t, -, ti, -, -, -, -, -, n, hn, -, -, -, -, -, -, -, -, -, -, ht⟩ := h
  obtain rfl := Option.some.inj ht
  exact (validatePair_capacity hn).2

theorem respects_recoverGrow : Respects payload recoverGrow := by
  refine (respects_gets _).bind fun intent => ?_
  cases intent with
  | none => exact respects_pure ()
  | some raw =>
    refine (respects_gets _).bind fun d => ?_
    exact respects_need_bind (by simp [einval]) fun target ht => respects_rollForward (checkGrow_capacity ht)

/-- **Growing** leaves the payload alone. -/
theorem respects_grow (vsize : ℕ) : Respects payload (grow vsize) := by
  refine (respects_gets _).bind fun p => (respects_refuse (by simp [eio])).bind fun _ => ?_
  have hpublish : ∀ p : FilePair, Respects payload (publishGrow p vsize) := by
    intro p
    refine (respects_refuse (by simp [einval])).bind fun _ => Respects.ite (respects_pure ()) ?_
    refine respects_need_bind (by simp [einval]) fun raw _ => respects_call.bind fun _ => ?_
    refine (respects_refuse (by simp [eexist])).bind fun _ => respects_call.bind fun _ => ?_
    refine Respects.bind (respects_elsewhere fun _ => ⟨rfl, rfl⟩) fun _ => ?_
    exact respects_call.bind fun _ => respects_recoverGrow
  refine Respects.bind (Respects.onlyIf ?_) fun _ => (respects_gets _).bind fun p => hpublish p
  exact respects_recoverGrow.bind fun _ => respects_call.bind fun _ => respects_elsewhere fun _ => ⟨rfl, rfl⟩

/-- **Publishing a record** leaves the data file alone. -/
theorem respects_append (m : SegmentMapping) : Respects payload (append m) := by
  refine (respects_gets _).bind fun p => (respects_refuse (by simp [eio])).bind fun _ => ?_
  refine (respects_refuse (by simp [efbig])).bind fun _ => (respects_refuse (by simp [efbig])).bind fun _ => ?_
  refine Respects.bind (Respects.onError (respects_write_index _ _ _) fun p => payload.refl p) fun _ => ?_
  exact respects_elsewhere fun _ => ⟨rfl, rfl⟩

theorem respects_flush : Respects payload flush := by
  refine (respects_gets _).bind fun p => (respects_refuse (by simp [eio])).bind fun _ => ?_
  exact respects_call.bind fun _ => respects_call.bind fun _ => respects_call

/-- **Compaction** leaves the data file alone. -/
theorem respects_compactSync (live : List SegmentMapping) : Respects payload (compactSync live) := by
  refine (respects_gets _).bind fun p => (respects_refuse (by simp [eio])).bind fun _ => ?_
  refine (respects_refuse (by simp [efbig])).bind fun _ => respects_call.bind fun _ => ?_
  refine respects_need_bind (by simp [einval]) fun replay _ => ?_
  refine respects_need_bind (by simp [einval]) fun replayed _ => respects_call.bind fun _ => ?_
  refine respects_need_bind (by simp [einval]) fun region _ => ?_
  refine respects_call.bind fun _ => respects_call.bind fun _ => ?_
  exact Respects.bind (respects_elsewhere fun _ => ⟨rfl, rfl⟩) fun _ => respects_call

end FilePair

end OverlayBD
