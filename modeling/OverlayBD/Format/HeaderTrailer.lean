import OverlayBD.Format.Segment

/-!
# The LSMT header and trailer

A header or trailer region is 4096 bytes: 390 meaningful ones at fixed offsets, then zeroes.

## The model

* `HeaderTrailer` — the parsed record; strings are byte strings without their terminating NUL.
* `parse` — `none` is the format error (bad magic or size field).
* `serialize` — `none` is the format error of a string that does not fit its field.

## What is proved

* `parse_serialize` — parsing what was written gives the record back, for records whose numbers fit their
  widths and whose strings have no NUL byte.
* `length_serialize` — a region is always 4096 bytes.
-/

namespace OverlayBD

open Bytes

/-- Size of a header or trailer region. -/
def kSpace : ℕ := 4096

/-- `HeaderTrailer::size` of every region. -/
def kHeaderSize : ℕ := 390

/-- First sector of the data region. -/
def kDataStartSector : ℕ := kSpace / kAlignment

def kMagic0 : List UInt8 := [0x4C, 0x53, 0x4D, 0x54, 0x00, 0x01, 0x02, 0x00]

def kMagic1 : List UInt8 :=
  [0x65, 0x7E, 0x63, 0xD2, 0x94, 0x44, 0x08, 0x4C, 0xA2, 0xD2, 0xC8, 0xEC, 0x4F, 0xCF, 0xAE, 0x8A]

/-- `HeaderTrailer`. -/
structure HeaderTrailer where
  size : ℕ := 390
  flags : ℕ := 0
  /-- Byte offset of the index region. -/
  indexOffset : ℕ := 0
  /-- Entry count. -/
  indexSize : ℕ := 0
  /-- Virtual device size in bytes. -/
  virtualSize : ℕ := 0
  uuid : List UInt8 := []
  parentUuid : List UInt8 := []
  reserved : ℕ := 0
  version : ℕ := 1
  subVersion : ℕ := 1
  userTag : List UInt8 := []
deriving DecidableEq

namespace HeaderTrailer

/-- `get_flag_bit`. -/
def getFlagBit (h : HeaderTrailer) (shift : ℕ) : Bool := decide (h.flags / 2 ^ shift % 2 = 1)

/-- `is_sealed`. -/
def isSealed (h : HeaderTrailer) : Bool := h.getFlagBit 2

end HeaderTrailer

/-! ### Fields of a region -/

/-- Bytes `[off, off + n)` of a region. -/
def field (b : List UInt8) (off n : ℕ) : List UInt8 := (b.drop off).take n

/-- `read_cstr`, on the bytes of its field. -/
def readCstr (b : List UInt8) : List UInt8 := b.takeWhile fun c => decide (c ≠ 0)

/-- `write_cstr`; `none` is the overflow error. -/
def writeCstr (maxlen : ℕ) (s : List UInt8) : Option (List UInt8) :=
  if maxlen ≤ s.length then none else some (s ++ List.replicate (maxlen - s.length) 0)

namespace HeaderTrailer

/-- `HeaderTrailer::parse`. -/
def parse (b : List UInt8) : Option HeaderTrailer :=
  if field b 0 8 ≠ kMagic0 ∨ field b 8 16 ≠ kMagic1 then none
  else if leNat (field b 24 4) ≠ kHeaderSize then none
  else some
    { size := leNat (field b 24 4)
      flags := leNat (field b 28 4)
      indexOffset := leNat (field b 32 8)
      indexSize := leNat (field b 40 8)
      virtualSize := leNat (field b 48 8)
      uuid := readCstr (field b 56 37)
      parentUuid := readCstr (field b 93 37)
      reserved := leNat (field b 130 2)
      version := leNat (field b 132 1)
      subVersion := leNat (field b 133 1)
      userTag := readCstr (field b 134 256) }

/-- The pieces of a region in order, strings given as they fill their fields. -/
def pieces (h : HeaderTrailer) (uuid parentUuid userTag : List UInt8) : List (List UInt8) :=
  [kMagic0, kMagic1, leBytes 4 kHeaderSize, leBytes 4 h.flags, leBytes 8 h.indexOffset, leBytes 8 h.indexSize,
    leBytes 8 h.virtualSize, uuid, parentUuid, leBytes 2 h.reserved, leBytes 1 h.version,
    leBytes 1 h.subVersion, userTag, List.replicate (kSpace - kHeaderSize) 0]

/-- `HeaderTrailer::serialize`. -/
def serialize (h : HeaderTrailer) : Option (List UInt8) :=
  match writeCstr 37 h.uuid, writeCstr 37 h.parentUuid, writeCstr 256 h.userTag with
  | some uuid, some parentUuid, some userTag => some (h.pieces uuid parentUuid userTag).flatten
  | _, _, _ => none

/-- A string that fills a NUL-terminated field of `n` bytes. -/
def StringFits (n : ℕ) (s : List UInt8) : Prop := s.length < n ∧ 0 ∉ s

/-- Numbers fit their widths and strings their fields. -/
structure Fits (h : HeaderTrailer) : Prop where
  size : h.size = kHeaderSize
  flags : h.flags < 2 ^ 32
  indexOffset : h.indexOffset < 2 ^ 64
  indexSize : h.indexSize < 2 ^ 64
  virtualSize : h.virtualSize < 2 ^ 64
  uuid : StringFits 37 h.uuid
  parentUuid : StringFits 37 h.parentUuid
  reserved : h.reserved < 2 ^ 16
  version : h.version < 2 ^ 8
  subVersion : h.subVersion < 2 ^ 8
  userTag : StringFits 256 h.userTag

/-- Numbers fit their widths. -/
structure NumbersFit (h : HeaderTrailer) : Prop where
  size : h.size = kHeaderSize
  flags : h.flags < 2 ^ 32
  indexOffset : h.indexOffset < 2 ^ 64
  indexSize : h.indexSize < 2 ^ 64
  virtualSize : h.virtualSize < 2 ^ 64
  reserved : h.reserved < 2 ^ 16
  version : h.version < 2 ^ 8
  subVersion : h.subVersion < 2 ^ 8

end HeaderTrailer

/-! ### Round trip -/

/-- Pieces of known lengths: one of them is read at the offset those before it add up to. -/
theorem field_flatten {ps : List (List UInt8)} {layout : List ℕ} (hl : ps.map List.length = layout) (i : ℕ)
    {c : List UInt8} {off n : ℕ} (hc : ps[i]? = some c) (hoff : (layout.take i).sum = off) (hn : c.length = n) :
    field ps.flatten off n = c := by
  obtain ⟨hi, rfl⟩ := List.getElem?_eq_some_iff.mp hc
  have hsplit : ps.take i ++ ps[i] :: ps.drop (i + 1) = ps := by simp
  have hflat : ps.flatten = (ps.take i).flatten ++ (ps[i] ++ (ps.drop (i + 1)).flatten) := by
    rw [← List.flatten_cons, ← List.flatten_append, hsplit]
  rw [← hl, ← List.map_take, ← List.length_flatten] at hoff
  rw [field, hflat, ← hoff, List.drop_left, ← hn, List.take_left]

theorem writeCstr_of_fits {n : ℕ} {s : List UInt8} (h : HeaderTrailer.StringFits n s) :
    writeCstr n s = some (s ++ List.replicate (n - s.length) 0) :=
  if_neg (by have := h.1; omega)

theorem length_of_writeCstr {n : ℕ} {s b : List UInt8} (h : writeCstr n s = some b) : b.length = n := by
  unfold writeCstr at h
  split_ifs at h
  obtain rfl := Option.some.inj h
  rw [List.length_append, List.length_replicate]
  omega

theorem readCstr_of_fits {n : ℕ} {s : List UInt8} (h : HeaderTrailer.StringFits n s) :
    readCstr (s ++ List.replicate (n - s.length) 0) = s := by
  obtain ⟨k, hk⟩ := Nat.exists_eq_add_of_lt h.1
  rw [readCstr, List.takeWhile_append_of_pos]
  · rw [show n - s.length = k + 1 by omega, List.replicate_succ, List.takeWhile_cons_of_neg (by simp), List.append_nil]
  · intro c hc
    simp only [ne_eq, decide_not, Bool.not_eq_true', decide_eq_false_iff_not]
    rintro rfl
    exact h.2 hc

namespace HeaderTrailer

variable {h : HeaderTrailer} {uuid parentUuid userTag : List UInt8}

/-- The widths of the fields, in order. -/
def layout : List ℕ := [8, 16, 4, 4, 8, 8, 8, 37, 37, 2, 1, 1, 256, 3706]

theorem map_length_pieces (hu : uuid.length = 37) (hp : parentUuid.length = 37) (ht : userTag.length = 256) :
    (h.pieces uuid parentUuid userTag).map List.length = layout := by
  simp only [pieces, List.map_cons, List.map_nil, length_leBytes, List.length_replicate, hu, hp, ht]
  rfl

theorem length_flatten_pieces (hu : uuid.length = 37) (hp : parentUuid.length = 37) (ht : userTag.length = 256) :
    (h.pieces uuid parentUuid userTag).flatten.length = kSpace := by
  rw [List.length_flatten, map_length_pieces hu hp ht]
  rfl

theorem serialize_eq_some {b : List UInt8} (hb : h.serialize = some b) :
    ∃ uuid parentUuid userTag, writeCstr 37 h.uuid = some uuid ∧ writeCstr 37 h.parentUuid = some parentUuid ∧
      writeCstr 256 h.userTag = some userTag ∧ b = (h.pieces uuid parentUuid userTag).flatten := by
  unfold serialize at hb
  split at hb
  · next u p t hu hp ht => exact ⟨u, p, t, hu, hp, ht, (Option.some.inj hb).symm⟩
  · exact nomatch hb

/-- A region is always 4096 bytes. -/
theorem length_serialize {b : List UInt8} (hb : h.serialize = some b) : b.length = kSpace := by
  obtain ⟨u, p, t, hu, hp, ht, rfl⟩ := serialize_eq_some hb
  exact length_flatten_pieces (length_of_writeCstr hu) (length_of_writeCstr hp) (length_of_writeCstr ht)

theorem serialize_of_fits (hf : h.Fits) :
    h.serialize = some (h.pieces (h.uuid ++ List.replicate (37 - h.uuid.length) 0)
      (h.parentUuid ++ List.replicate (37 - h.parentUuid.length) 0)
      (h.userTag ++ List.replicate (256 - h.userTag.length) 0)).flatten := by
  unfold serialize
  rw [writeCstr_of_fits hf.uuid, writeCstr_of_fits hf.parentUuid, writeCstr_of_fits hf.userTag]

/-- What is read of a region: its numbers, and its strings up to the first NUL. -/
theorem parse_pieces (hf : h.NumbersFit) (hu : uuid.length = 37) (hp : parentUuid.length = 37) (ht : userTag.length = 256) :
    parse (h.pieces uuid parentUuid userTag).flatten =
      some { h with uuid := readCstr uuid, parentUuid := readCstr parentUuid, userTag := readCstr userTag } := by
  have hl := map_length_pieces (h := h) hu hp ht
  set region := (h.pieces uuid parentUuid userTag).flatten
  -- one field after the other, each at the offset the source reads it from
  have f0 : field region 0 8 = kMagic0 := field_flatten hl 0 rfl rfl rfl
  have f1 : field region 8 16 = kMagic1 := field_flatten hl 1 rfl rfl rfl
  have f2 : field region 24 4 = leBytes 4 kHeaderSize := field_flatten hl 2 rfl rfl (length_leBytes _ _)
  have f3 : field region 28 4 = leBytes 4 h.flags := field_flatten hl 3 rfl rfl (length_leBytes _ _)
  have f4 : field region 32 8 = leBytes 8 h.indexOffset := field_flatten hl 4 rfl rfl (length_leBytes _ _)
  have f5 : field region 40 8 = leBytes 8 h.indexSize := field_flatten hl 5 rfl rfl (length_leBytes _ _)
  have f6 : field region 48 8 = leBytes 8 h.virtualSize := field_flatten hl 6 rfl rfl (length_leBytes _ _)
  have f7 : field region 56 37 = uuid := field_flatten hl 7 rfl rfl hu
  have f8 : field region 93 37 = parentUuid := field_flatten hl 8 rfl rfl hp
  have f9 : field region 130 2 = leBytes 2 h.reserved := field_flatten hl 9 rfl rfl (length_leBytes _ _)
  have f10 : field region 132 1 = leBytes 1 h.version := field_flatten hl 10 rfl rfl (length_leBytes _ _)
  have f11 : field region 133 1 = leBytes 1 h.subVersion := field_flatten hl 11 rfl rfl (length_leBytes _ _)
  have f12 : field region 134 256 = userTag := field_flatten hl 12 rfl rfl ht
  have hsize : leNat (leBytes 4 kHeaderSize) = h.size := by
    rw [hf.size]
    rfl
  rw [parse, f0, f1, f2, f3, f4, f5, f6, f7, f8, f9, f10, f11, f12, hsize,
    leNat_leBytes_of_lt (hf.flags.trans_eq (by norm_num)),
    leNat_leBytes_of_lt (hf.indexOffset.trans_eq (by norm_num)),
    leNat_leBytes_of_lt (hf.indexSize.trans_eq (by norm_num)),
    leNat_leBytes_of_lt (hf.virtualSize.trans_eq (by norm_num)),
    leNat_leBytes_of_lt (hf.reserved.trans_eq (by norm_num)),
    leNat_leBytes_of_lt (hf.version.trans_eq (by norm_num)),
    leNat_leBytes_of_lt (hf.subVersion.trans_eq (by norm_num)), if_neg (by simp), if_neg (fun hn => hn hf.size)]

/-- A region that was written is parsed, whatever its strings are. -/
theorem exists_parse {b : List UInt8} (hf : h.NumbersFit) (hb : h.serialize = some b) :
    ∃ u p t, parse b = some { h with uuid := u, parentUuid := p, userTag := t } := by
  obtain ⟨u, p, t, hu, hp, ht, rfl⟩ := serialize_eq_some hb
  exact ⟨_, _, _, parse_pieces hf (length_of_writeCstr hu) (length_of_writeCstr hp) (length_of_writeCstr ht)⟩

/-- **Round trip** of a header. -/
theorem parse_serialize {b : List UInt8} (hf : h.Fits) (hb : h.serialize = some b) : parse b = some h := by
  obtain rfl := Option.some.inj ((serialize_of_fits hf).symm.trans hb)
  rw [parse_pieces ⟨hf.size, hf.flags, hf.indexOffset, hf.indexSize, hf.virtualSize, hf.reserved, hf.version, hf.subVersion⟩
    (length_of_writeCstr (writeCstr_of_fits hf.uuid)) (length_of_writeCstr (writeCstr_of_fits hf.parentUuid))
    (length_of_writeCstr (writeCstr_of_fits hf.userTag)), readCstr_of_fits hf.uuid, readCstr_of_fits hf.parentUuid,
    readCstr_of_fits hf.userTag]

end HeaderTrailer

end OverlayBD
