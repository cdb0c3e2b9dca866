import OverlayBD.Lib.Bytes
import OverlayBD.Lib.Intervals

/-!
# Segment mappings (`common/bytes.hpp`)

A layer's index is a list of `segment_mapping`s: a run of logical sectors together with where its
payload lies in the layer's blob, or the fact that it reads as zeroes.  Everything the writable and
read-only layers do to an index is clipping, splitting, merging and re-sorting such runs, so what an
index *means* is fixed here once.

## The model

* `SegmentMapping` — the in-memory structure, `stop`/`mend` its `end()`/`mend()`.
* `Place` — what a mapped sector resolves to: zeroes, or a physical sector.
* `SegmentMapping.place`/`placed` — the reading of one mapping at a sector, without and with the tag;
  `resolve`/`resolveTagged` are the lookups of a whole index under these readings.
* `dropHead`/`takeHead` — the two clips every index operation is made of.
* `storeSegmentLe`/`loadSegmentLe` — the 16-byte on-disk record.

## What is proved

* `place_dropHead`, `place_takeHead` — clipping never moves a sector.
* `loadSegmentLe_storeSegmentLe` — a mapping whose fields fit their bit widths survives the disk.
-/

namespace OverlayBD

open Intervals Bytes

/-- Bytes in a sector (`lsmt::kAlignment`). -/
abbrev kAlignment : ℕ := 512

/-- Largest logical sector, 50 bits; also the invalid marker `kInvalidOffset`. -/
def kMaxOffset : ℕ := 2 ^ 50 - 1

/-- Largest run, 14 bits. -/
def kMaxLength : ℕ := 2 ^ 14 - 1

/-- Largest physical sector, 55 bits. -/
def kMaxMoffset : ℕ := 2 ^ 55 - 1

/-- Marks a dead record. -/
def kInvalidOffset : ℕ := kMaxOffset

/-- Size of an on-disk record. -/
def kEncodedSize : ℕ := 16

/-- One run of logical sectors and the place of its payload. -/
structure SegmentMapping where
  /-- Logical offset in sectors. -/
  offset : ℕ
  /-- Length in sectors. -/
  length : ℕ
  /-- Physical offset in sectors. -/
  moffset : ℕ
  /-- The run reads as zeroes. -/
  zeroed : Bool
  /-- Layer index, assigned at merge time. -/
  tag : ℕ
deriving DecidableEq, Repr

/-- What a mapped sector holds. -/
inductive Place where
  /-- Zeroes, without payload. -/
  | zero
  /-- The payload at a physical sector. -/
  | data (sector : ℕ)
deriving DecidableEq, Repr

namespace SegmentMapping

/-- `end()`. -/
def stop (s : SegmentMapping) : ℕ := s.offset + s.length

/-- `mend()`. -/
def mend (s : SegmentMapping) : ℕ := if s.zeroed then s.moffset else s.moffset + s.length

instance : Interval SegmentMapping := ⟨offset, stop⟩

/-- What the run says about sector `x`. -/
def place (s : SegmentMapping) (x : ℕ) : Place :=
  if s.zeroed then .zero else .data (s.moffset + (x - s.offset))

/-- As `place`, together with the layer the run came from. -/
def placed (s : SegmentMapping) (x : ℕ) : ℕ × Place := (s.tag, s.place x)

/-- The run without its first `k` sectors. -/
def dropHead (s : SegmentMapping) (k : ℕ) : SegmentMapping :=
  { s with
    offset := s.offset + k
    length := s.length - k
    moffset := if s.zeroed then s.moffset else s.moffset + k }

/-- The first `k` sectors of the run. -/
def takeHead (s : SegmentMapping) (k : ℕ) : SegmentMapping := { s with length := k }

variable {s : SegmentMapping} {k x : ℕ}

@[simp] theorem lo_eq : lo s = s.offset := rfl

@[simp] theorem hi_eq : hi s = s.offset + s.length := rfl

@[simp] theorem covers_iff : Covers s x ↔ s.offset ≤ x ∧ x < s.offset + s.length := Iff.rfl

/-- No entry of a proper list is empty. -/
theorem length_pos_of_proper {l : List SegmentMapping} (h : Proper l) (hs : s ∈ l) : 0 < s.length :=
  Nat.pos_of_lt_add_right (h s hs)

@[simp] theorem dropHead_offset : (s.dropHead k).offset = s.offset + k := rfl
@[simp] theorem dropHead_length : (s.dropHead k).length = s.length - k := rfl
@[simp] theorem dropHead_zeroed : (s.dropHead k).zeroed = s.zeroed := rfl
@[simp] theorem dropHead_tag : (s.dropHead k).tag = s.tag := rfl
@[simp] theorem takeHead_offset : (s.takeHead k).offset = s.offset := rfl
@[simp] theorem takeHead_length : (s.takeHead k).length = k := rfl
@[simp] theorem takeHead_zeroed : (s.takeHead k).zeroed = s.zeroed := rfl
@[simp] theorem takeHead_moffset : (s.takeHead k).moffset = s.moffset := rfl
@[simp] theorem takeHead_tag : (s.takeHead k).tag = s.tag := rfl

/-- Clipping the head leaves the remaining sectors where they were. -/
theorem place_dropHead (h : s.offset + k ≤ x) : (s.dropHead k).place x = s.place x := by
  unfold place
  rw [dropHead_zeroed, dropHead_offset, dropHead]
  cases s.zeroed with
  | true => rfl
  | false =>
    have : s.moffset + k + (x - (s.offset + k)) = s.moffset + (x - s.offset) := by omega
    simp [this]

/-- Clipping the tail leaves the remaining sectors where they were. -/
@[simp] theorem place_takeHead : (s.takeHead k).place x = s.place x := rfl

theorem placed_dropHead (h : s.offset + k ≤ x) : (s.dropHead k).placed x = s.placed x := by
  rw [placed, placed, place_dropHead h, dropHead_tag]

@[simp] theorem placed_takeHead : (s.takeHead k).placed x = s.placed x := rfl

/-- A run lengthened by one that continues it. -/
theorem joined_length {β : Type*} {v : SegmentMapping → ℕ → β} {t : SegmentMapping} (hstop : s.stop = t.offset)
    (hlen : v { s with length := s.length + t.length } = v s) (hv : ∀ x, t.offset ≤ x → v s x = v t x) :
    Joined v s t { s with length := s.length + t.length } where
  lo_eq := rfl
  meets := hstop
  hi_eq := by
    have : s.offset + s.length = t.offset := hstop
    simp only [hi_eq]
    omega
  first_le := Nat.le_add_right _ _
  second_le := Nat.le_add_right _ _
  first x _ := by rw [hlen]
  second x hx := by rw [hlen, hv x hx.1]

/-- Runs whose payload continues too give a sector the same place. -/
theorem place_of_continues {t : SegmentMapping} (hstop : s.stop = t.offset) (hzero : s.zeroed = t.zeroed)
    (hplace : s.zeroed = false → s.moffset + s.length = t.moffset) (hx : t.offset ≤ x) : s.place x = t.place x := by
  unfold place
  rw [← hzero]
  cases hz : s.zeroed with
  | true => rfl
  | false =>
    have := hplace hz
    simp only [Bool.false_eq_true, if_false, Place.data.injEq, stop] at hstop ⊢
    omega

end SegmentMapping

open SegmentMapping

/-- What an index says about a sector. -/
abbrev resolve (l : List SegmentMapping) (x : ℕ) : Option Place := lookup place l x

/-- What a merged index says about a sector, and from which layer. -/
abbrev resolveTagged (l : List SegmentMapping) (x : ℕ) : Option (ℕ × Place) := lookup placed l x

/-! ### The on-disk record -/

/-- `store_segment_le`: two little-endian words, `offset:50 length:14` and
`moffset:55 zeroed:1 tag:8`. -/
def storeSegmentLe (s : SegmentMapping) : List UInt8 :=
  leBytes 8 (s.offset % 2 ^ 50 + s.length % 2 ^ 14 * 2 ^ 50) ++
    leBytes 8 (s.moffset % 2 ^ 55 + (if s.zeroed then 1 else 0) * 2 ^ 55 + s.tag % 2 ^ 8 * 2 ^ 56)

/-- `load_segment_le` on the first sixteen bytes of its argument. -/
def loadSegmentLe (bs : List UInt8) : SegmentMapping :=
  let w0 := leNat (bs.take 8)
  let w1 := leNat ((bs.drop 8).take 8)
  { offset := w0 % 2 ^ 50
    length := w0 / 2 ^ 50 % 2 ^ 14
    moffset := w1 % 2 ^ 55
    zeroed := decide (w1 / 2 ^ 55 % 2 = 1)
    tag := w1 / 2 ^ 56 % 2 ^ 8 }

/-- Every field fits its bit width. -/
structure SegmentMapping.Fits (s : SegmentMapping) : Prop where
  offset_lt : s.offset < 2 ^ 50
  length_lt : s.length < 2 ^ 14
  moffset_lt : s.moffset < 2 ^ 55
  tag_lt : s.tag < 2 ^ 8

@[simp] theorem length_storeSegmentLe (s : SegmentMapping) : (storeSegmentLe s).length = 16 := by
  simp [storeSegmentLe]

/-- **Round trip of one record.** -/
theorem loadSegmentLe_storeSegmentLe {s : SegmentMapping} (h : s.Fits) (rest : List UInt8) :
    loadSegmentLe (storeSegmentLe s ++ rest) = s := by
  obtain ⟨ho, hl, hm, ht⟩ := h
  have hz : (if s.zeroed then 1 else 0) ≤ 1 := by split_ifs <;> omega
  have e0 : (storeSegmentLe s ++ rest).take 8 =
      leBytes 8 (s.offset % 2 ^ 50 + s.length % 2 ^ 14 * 2 ^ 50) := by
    simp [storeSegmentLe, List.append_assoc]
  have e1 : ((storeSegmentLe s ++ rest).drop 8).take 8 = leBytes 8
      (s.moffset % 2 ^ 55 + (if s.zeroed then 1 else 0) * 2 ^ 55 + s.tag % 2 ^ 8 * 2 ^ 56) := by
    simp [storeSegmentLe, List.append_assoc]
  have w0 := leNat_leBytes_of_lt (n := 8)
    (v := s.offset % 2 ^ 50 + s.length % 2 ^ 14 * 2 ^ 50) (by omega)
  have w1 := leNat_leBytes_of_lt (n := 8)
    (v := s.moffset % 2 ^ 55 + (if s.zeroed then 1 else 0) * 2 ^ 55 + s.tag % 2 ^ 8 * 2 ^ 56) (by omega)
  have hzero : decide ((s.moffset % 2 ^ 55 + (if s.zeroed then 1 else 0) * 2 ^ 55 +
      s.tag % 2 ^ 8 * 2 ^ 56) / 2 ^ 55 % 2 = 1) = s.zeroed := by
    cases s.zeroed
    · rw [decide_eq_false_iff_not, if_neg Bool.false_ne_true]
      omega
    · rw [decide_eq_true_iff, if_pos rfl]
      omega
  unfold loadSegmentLe
  rw [e0, e1, w0, w1]
  simp only [hzero]
  have f0 : (s.offset % 2 ^ 50 + s.length % 2 ^ 14 * 2 ^ 50) % 2 ^ 50 = s.offset := by omega
  have f1 : (s.offset % 2 ^ 50 + s.length % 2 ^ 14 * 2 ^ 50) / 2 ^ 50 % 2 ^ 14 = s.length := by omega
  have f2 : (s.moffset % 2 ^ 55 + (if s.zeroed then 1 else 0) * 2 ^ 55 + s.tag % 2 ^ 8 * 2 ^ 56) %
      2 ^ 55 = s.moffset := by omega
  have f3 : (s.moffset % 2 ^ 55 + (if s.zeroed then 1 else 0) * 2 ^ 55 + s.tag % 2 ^ 8 * 2 ^ 56) /
      2 ^ 56 % 2 ^ 8 = s.tag := by omega
  rw [f0, f1, f2, f3]

end OverlayBD
