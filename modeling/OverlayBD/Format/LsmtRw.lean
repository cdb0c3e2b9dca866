import OverlayBD.Format.LsmtPair
import OverlayBD.Format.MergedWritable

/-!
# The LSMT writable layer

`LsmtRwLayer` keeps its mappings in memory (`segments_`) and in the log of its pair.  A write overwrites the
payload of live DATA runs in place and appends payload for the rest; new ownership is published in the log before
it appears in memory.  A discard publishes ZERO runs.

## The model

* `LsmtRw` — the layer with its pair; sector counters are natural numbers.
* `chop` — the loop that cuts a range into runs a record can describe.
* `WriteOp`, `planOps` — the plan of one piece: which sectors go where.
* `pwrite`, `discard`, `flush`, `grow`, `View`-reads (`dataSource`), and the `WritableLayer` instance.

Operations come one at a time, as the merged view issues them; `sealed` and `checkpointed` are only read.
-/

namespace OverlayBD

open Intervals SegmentMapping Bytes Errno Effect

/-- `segments_revision_` once the counter is exhausted. -/
def kUnknownRevision : ℕ := 2 ^ 64 - 1

/-- `LsmtRwLayer`. -/
structure LsmtRw where
  pair : FilePair
  /-- Declared size in bytes. -/
  vsize : ℕ
  /-- `data_bytes_`, the bound of view reads. -/
  dataBytes : ℕ
  /-- `data_end_sector_`, the append position. -/
  dataEndSector : ℕ
  segments : List SegmentMapping
  journalFailed : Bool
  revision : ℕ
  sealed : Bool
  checkpointed : Bool

namespace LsmtRw

/-- `from_pair`. -/
def fromPair (p : FilePair) : LsmtRw where
  pair := p
  vsize := p.header.virtualSize
  dataBytes := p.dataBytes
  dataEndSector := p.dataBytes / kAlignment
  segments := p.mappings
  journalFailed := false
  revision := 0
  sealed := false
  checkpointed := false

/-- `create`. -/
def create (vsize : ℕ) (uuid : List UInt8) (faults : ℕ → Option Fault) : Except ℤ LsmtRw :=
  (FilePair.createSync vsize uuid faults).map fromPair

/-- The data file. -/
def data (s : LsmtRw) : File := s.pair.disk.data

/-- `View`: reads of the data file up to `data_bytes_`. -/
def dataSource (s : LsmtRw) : BlobSource where
  pread := fun _ count off =>
    ⟨((min (min count (s.dataBytes - off)) (s.data.size - off) : ℕ) : ℤ), fun i => s.data.byte (off + i),
      by omega⟩

/-- `mappings_changed`. -/
def mappingsChanged (s : LsmtRw) : LsmtRw :=
  { s with revision := if s.revision = kUnknownRevision then s.revision else s.revision + 1 }

/-- Run an operation of the pair. -/
def onPair {α : Type} (m : Eff FilePair α) : Eff LsmtRw α := zoom pair (fun s p => { s with pair := p }) m

/-- `prepare_mutation`. -/
def prepareMutation : Eff LsmtRw Unit := do
  let s ← gets id
  refuse (s.journalFailed = true) eio
  onlyIf (max 4096 (4 * s.segments.length) ≤ (s.pair.indexBytes - kSpace) / 16)
    (onPair (FilePair.compactSync s.segments))

/-- `[lo, hi)` in pieces of at most `kMaxLength` sectors; the first argument bounds their number. -/
def chopLoop : ℕ → ℕ → ℕ → List (ℕ × ℕ)
  | 0, _, _ => []
  | n + 1, lo, hi =>
    if hi ≤ lo then []
    else (lo, lo + min (hi - lo) kMaxLength) :: chopLoop n (lo + min (hi - lo) kMaxLength) hi

/-- The pieces the loops of `pwrite` and `discard` walk over. -/
def chop (lo hi : ℕ) : List (ℕ × ℕ) := chopLoop (hi - lo) lo hi

/-! ### Writing -/

/-- `Op`. -/
structure WriteOp where
  /-- First virtual sector. -/
  voff : ℕ
  /-- Target sector in the file. -/
  moff : ℕ
  nsector : ℕ
  inplace : Bool
deriving DecidableEq

/-- The mapping an operation publishes. -/
def WriteOp.mapping (op : WriteOp) : SegmentMapping := ⟨op.voff, op.nsector, op.moff, false, 0⟩

/-- The planning loop over the runs from the first that ends past `lo`; the append position comes with the
plan. -/
def planOps (lo hi : ℕ) : List SegmentMapping → ℕ → ℕ → List WriteOp × ℕ
  | [], cur, dataEnd =>
    if cur < hi then ([⟨cur, dataEnd, hi - cur, false⟩], dataEnd + (hi - cur)) else ([], dataEnd)
  | s :: rest, cur, dataEnd =>
    if hi ≤ s.offset then
      if cur < hi then ([⟨cur, dataEnd, hi - cur, false⟩], dataEnd + (hi - cur)) else ([], dataEnd)
    else if s.zeroed = true ∨ s.stop ≤ lo then planOps lo hi rest cur dataEnd
    else
      let gap : List WriteOp := if cur < s.offset then [⟨cur, dataEnd, s.offset - cur, false⟩] else []
      let dataEnd := if cur < s.offset then dataEnd + (s.offset - cur) else dataEnd
      let cs := max cur s.offset
      let ce := min s.stop hi
      if cs < ce then
        let tail := planOps lo hi rest ce dataEnd
        (gap ++ ⟨cs, s.moffset + (cs - s.offset), ce - cs, true⟩ :: tail.1, tail.2)
      else
        let tail := planOps lo hi rest cur dataEnd
        (gap ++ tail.1, tail.2)

/-- One payload write. -/
def writeOp (buf : Buf) (offset : ℕ) (op : WriteOp) : Eff LsmtRw Unit := do
  onPair (FilePair.sys (Disk.write .data (op.moff * kAlignment) (op.nsector * kAlignment)
    fun i => buf (op.voff * kAlignment - offset + i)))
  modify fun s => { s with dataBytes := max s.dataBytes ((op.moff + op.nsector) * kAlignment) }

/-- Publish the new ownership of one piece; the second component says whether a record went out before. -/
def publishOps : List WriteOp → Bool → Eff LsmtRw Unit
  | [], _ => pure ()
  | op :: ops, published => do
    if op.inplace = true then publishOps ops published
    else
      onError (onPair (FilePair.append op.mapping)) fun s =>
        { s with journalFailed := s.pair.poisoned || published }
      publishOps ops true

/-- One piece of a write, `[lo, hi)`. -/
def pwritePiece (buf : Buf) (offset lo hi : ℕ) : Eff LsmtRw Unit := do
  let s ← gets id
  let plan := planOps lo hi (s.segments.dropWhile fun m => decide (m.stop ≤ lo)) lo s.dataEndSector
  modify fun s => { s with dataEndSector := plan.2 }
  each plan.1 (writeOp buf offset)
  if plan.1.all WriteOp.inplace then pure ()
  else do
    publishOps plan.1 false
    modify fun s =>
      { s.mappingsChanged with
        segments := (plan.1.map WriteOp.mapping).foldl insertSorted (eraseRange lo hi s.segments) }

/-- `LsmtRwLayer::pwrite`. -/
def pwrite (buf : Buf) (count offset : ℕ) : Eff LsmtRw ℤ := do
  let s ← gets id
  refuse (s.sealed = true ∨ s.checkpointed = true) erofs
  refuse (offset % kAlignment ≠ 0 ∨ count % kAlignment ≠ 0 ∨ count = 0) einval
  refuse (s.vsize < offset ∨ s.vsize - offset < count) einval
  prepareMutation
  each (chop (offset / kAlignment) (offset / kAlignment + count / kAlignment)) fun (lo, hi) =>
    pwritePiece buf offset lo hi
  modify fun s => { s with dataBytes := s.dataEndSector * kAlignment }
  return count

/-! ### Discarding -/

/-- The ZERO run of one piece. -/
def zeroRun (piece : ℕ × ℕ) : SegmentMapping := ⟨piece.1, piece.2 - piece.1, kDataStartSector, true, 0⟩

/-- Publish the ZERO runs of a discard that starts at `lo`. -/
def publishZeros (lo : ℕ) (pieces : List (ℕ × ℕ)) : Eff LsmtRw Unit :=
  each pieces fun piece =>
    onError (onPair (FilePair.append (zeroRun piece))) fun s =>
      { s with journalFailed := s.pair.poisoned || decide (piece.1 ≠ lo) }

/-- `LsmtRwLayer::discard`. -/
def discard (offset len : ℕ) : Eff LsmtRw ℤ := do
  let s ← gets id
  refuse (s.sealed = true ∨ s.checkpointed = true) erofs
  refuse (offset % kAlignment ≠ 0 ∨ len % kAlignment ≠ 0 ∨ len = 0) einval
  refuse (s.vsize < offset ∨ s.vsize - offset < len) einval
  prepareMutation
  let lo := offset / kAlignment
  let hi := lo + len / kAlignment
  let pieces := chop lo hi
  let s ← gets id
  publishZeros lo pieces
  modify fun s' =>
    { s'.mappingsChanged with segments := (pieces.map zeroRun).foldl insertSorted (eraseRange lo hi s.segments) }
  return 0

/-! ### Flush and grow -/

/-- `LsmtRwLayer::flush`; a sealed layer only syncs its data file. -/
def flush : Eff LsmtRw ℤ := do
  let s ← gets id
  refuse (s.journalFailed = true) eio
  onPair (if s.sealed = false then FilePair.flush else FilePair.sys Disk.call)
  return 0

/-- What `grow` makes of the pair's state. -/
def adoptGrow (s : LsmtRw) : LsmtRw :=
  if s.pair.poisoned = false then { s with vsize := s.pair.header.virtualSize, journalFailed := false }
  else if s.pair.growthPending = true then { s with journalFailed := true }
  else s

/-- `LsmtRwLayer::grow`. -/
def grow (vsize : ℕ) : Eff LsmtRw ℤ := do
  let s ← gets id
  refuse (s.sealed = true ∨ s.checkpointed = true) erofs
  refuse (s.journalFailed = true ∧ s.pair.growthPending = false) eio
  onError (onPair (FilePair.grow vsize)) adoptGrow
  modify adoptGrow
  return 0

/-- The uuid of all zeroes. -/
def nilUuid : List UInt8 :=
  let zeroes := fun n => List.replicate n (48 : UInt8)
  zeroes 8 ++ 45 :: zeroes 4 ++ 45 :: zeroes 4 ++ 45 :: zeroes 4 ++ 45 :: zeroes 12

end LsmtRw

instance : WritableLayer LsmtRw where
  virtualSize := LsmtRw.vsize
  segmentsSnapshot s := .ok s.segments
  segmentsGeneration _ := 0
  segmentsRevision s := if s.revision = kUnknownRevision then none else some s.revision
  dataSource := LsmtRw.dataSource
  supportsLocalMappingUpdates _ := true
  requiresCurrentView _ := false
  pwrite s buf count off := run (LsmtRw.pwrite buf count off) s
  pwriteWithView s buf count off _ := run (LsmtRw.pwrite buf count off) s
  discard s off len := run (LsmtRw.discard off len) s
  discardWithView s off len _ := run (LsmtRw.discard off len) s
  flush s := run LsmtRw.flush s
  grow s vsize := run (LsmtRw.grow vsize) s

end OverlayBD
