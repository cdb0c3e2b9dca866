import Mathlib.Data.List.Basic
import Mathlib.Data.List.GetD
import Mathlib.Tactic.Common
import Mathlib.Tactic.Ring
import Mathlib.Tactic.SplitIfs

/-!
# Bytes: buffers, files and little-endian integers

The three byte-level objects a storage program touches.

* `Buf` — memory the caller owns, addressed from `0`; `Buf.put` overwrites a range.
* `File` — a file with its size.  Reading past the end is a matter of the size; the bytes there are
  zero by construction (`File.tail`), so extending a file exposes a hole of zeroes.
* `leBytes`/`leNat` — fixed-width little-endian integers.
* `crc32c` — the raw CRC-32C of a byte string.

Functions report failure as the negated error numbers of `Errno`.

`leNat_leBytes` is the round trip; `File.read_writeBytes` says that what was written is read back, and
`File.read_write_of_disjoint` that nothing else moved.
-/

/-! ### Error numbers -/

namespace Errno

def eintr : ℤ := 4
def eio : ℤ := 5
def eagain : ℤ := 11
def enomem : ℤ := 12
def efault : ℤ := 14
def eexist : ℤ := 17
def enodev : ℤ := 19
def einval : ℤ := 22
def enotty : ℤ := 25
def efbig : ℤ := 27
def erofs : ℤ := 30
def erange : ℤ := 34
def eproto : ℤ := 71
def eoverflow : ℤ := 75
def eopnotsupp : ℤ := 95
def eshutdown : ℤ := 108
def ealready : ℤ := 114
def ecanceled : ℤ := 125

theorem eio_pos : 0 < eio := by decide

theorem neg_eio_nonpos : -eio ≤ 0 := by decide

theorem neg_einval_nonpos : -einval ≤ 0 := by decide

end Errno

namespace Bytes

/-! ### Buffers -/

/-- A caller-owned memory area. -/
abbrev Buf := ℕ → UInt8

/-- Overwrite `n` bytes from position `p` with the bytes of `src`. -/
def Buf.put (out : Buf) (p n : ℕ) (src : Buf) : Buf :=
  fun i => if p ≤ i ∧ i < p + n then src (i - p) else out i

/-- Fill `n` bytes from position `p` with zeroes. -/
def Buf.zero (out : Buf) (p n : ℕ) : Buf := out.put p n fun _ => 0

/-- The `n` bytes from position `p`. -/
def Buf.slice (b : Buf) (p n : ℕ) : List UInt8 := (List.range n).map fun i => b (p + i)

theorem Buf.slice_congr {b b' : Buf} {p p' n : ℕ} (h : ∀ i, i < n → b (p + i) = b' (p' + i)) :
    b.slice p n = b'.slice p' n :=
  List.map_congr_left fun i hi => h i (List.mem_range.mp hi)

theorem Buf.put_of_mem {out src : Buf} {p n i : ℕ} (h : p ≤ i ∧ i < p + n) :
    out.put p n src i = src (i - p) := if_pos h

theorem Buf.put_of_not {out src : Buf} {p n i : ℕ} (h : ¬ (p ≤ i ∧ i < p + n)) :
    out.put p n src i = out i := if_neg h

theorem Buf.zero_of_mem {out : Buf} {p n i : ℕ} (h : p ≤ i ∧ i < p + n) : out.zero p n i = 0 :=
  if_pos h

theorem Buf.zero_of_not {out : Buf} {p n i : ℕ} (h : ¬ (p ≤ i ∧ i < p + n)) :
    out.zero p n i = out i := if_neg h

/-! ### Files -/

/-- A regular file.  Bytes at and past the size are zero, so growing it exposes zeroes. -/
structure File where
  /-- Size in bytes. -/
  size : ℕ
  /-- Content. -/
  byte : ℕ → UInt8
  tail : ∀ i, size ≤ i → byte i = 0

namespace File

theorem ext {f g : File} (hs : f.size = g.size) (hb : ∀ i, f.byte i = g.byte i) : f = g := by
  cases f
  cases g
  obtain rfl : _ = _ := hs
  obtain rfl : _ = _ := funext hb
  rfl

/-- The file of no bytes. -/
def empty : File := ⟨0, fun _ => 0, fun _ _ => rfl⟩

/-- `pwrite(2)` of `n` bytes of `src` at `off`, all of them accepted. -/
def write (f : File) (off n : ℕ) (src : Buf) : File where
  size := if n = 0 then f.size else max f.size (off + n)
  byte := fun i => if off ≤ i ∧ i < off + n then src (i - off) else f.byte i
  tail := by
    intro i hi
    have hn : ¬ (off ≤ i ∧ i < off + n) := by split_ifs at hi <;> omega
    rw [if_neg hn]
    exact f.tail i (by split_ifs at hi <;> omega)

/-- `pwrite(2)` of a byte string. -/
def writeBytes (f : File) (off : ℕ) (bs : List UInt8) : File :=
  f.write off bs.length fun i => bs.getD i 0

/-- `ftruncate(2)`. -/
def truncate (f : File) (n : ℕ) : File where
  size := n
  byte := fun i => if i < n then f.byte i else 0
  tail := fun i hi => if_neg (by omega)

/-- The `n` bytes at `off`. -/
def read (f : File) (off n : ℕ) : List UInt8 := (List.range n).map fun i => f.byte (off + i)

variable {f : File} {off n p m i : ℕ} {src : Buf} {bs : List UInt8}

@[simp] theorem size_write :
    (f.write off n src).size = if n = 0 then f.size else max f.size (off + n) := rfl

theorem size_le_size_write : f.size ≤ (f.write off n src).size := by
  rw [size_write]
  split_ifs <;> omega

theorem byte_write :
    (f.write off n src).byte i = if off ≤ i ∧ i < off + n then src (i - off) else f.byte i := rfl

theorem byte_write_of_mem (h : off ≤ i ∧ i < off + n) :
    (f.write off n src).byte i = src (i - off) := if_pos h

theorem byte_write_of_not (h : ¬ (off ≤ i ∧ i < off + n)) :
    (f.write off n src).byte i = f.byte i := if_neg h

@[simp] theorem length_read : (f.read off n).length = n := by simp [read]

theorem getElem?_read (h : i < n) : (f.read off n)[i]? = some (f.byte (off + i)) := by
  simp [read, h]

theorem read_congr {g : File} {off' : ℕ} (h : ∀ i, i < n → f.byte (off + i) = g.byte (off' + i)) :
    f.read off n = g.read off' n := by
  unfold read
  exact List.map_congr_left fun i hi => h i (List.mem_range.mp hi)

theorem byte_of_read {g : File} (h : f.read off n = g.read off n) (hi : i < n) : f.byte (off + i) = g.byte (off + i) := by
  have h' : (f.read off n)[i]? = some (f.byte (off + i)) := getElem?_read hi
  rw [h, getElem?_read hi] at h'
  exact (Option.some.inj h').symm

theorem read_write_of_disjoint (h : p + m ≤ off ∨ off + n ≤ p) :
    (f.write off n src).read p m = f.read p m :=
  read_congr fun i hi => byte_write_of_not (by omega)

theorem read_writeBytes : (f.writeBytes off bs).read off bs.length = bs := by
  apply List.ext_getElem? 
  intro i
  by_cases hi : i < bs.length
  · rw [getElem?_read hi, writeBytes, byte_write_of_mem (by omega), List.getElem?_eq_getElem hi]
    simp [hi]
  · rw [List.getElem?_eq_none (by simpa using Nat.le_of_not_lt hi),
      List.getElem?_eq_none (Nat.le_of_not_lt hi)]

theorem read_writeBytes_of_length (h : bs.length = n) : (f.writeBytes off bs).read off n = bs := by
  rw [← h]
  exact read_writeBytes

/-- Truncating to the size a file has changes nothing. -/
theorem truncate_size : f.truncate f.size = f := by
  refine ext rfl fun i => ?_
  by_cases hi : i < f.size
  · exact if_pos hi
  · exact (if_neg hi).trans (f.tail i (by omega)).symm

/-- A file written in one piece. -/
theorem size_writeBytes_empty : (empty.writeBytes 0 bs).size = bs.length := by
  rw [writeBytes, size_write]
  split_ifs with h
  · exact h.symm
  · exact (Nat.max_eq_right (Nat.zero_le _)).trans (Nat.zero_add _)

/-- The file that holds a byte string. -/
def ofBytes (bs : List UInt8) : File := empty.writeBytes 0 bs

@[simp] theorem size_ofBytes (bs : List UInt8) : (ofBytes bs).size = bs.length := size_writeBytes_empty

theorem byte_ofBytes (bs : List UInt8) (i : ℕ) : (ofBytes bs).byte i = bs.getD i 0 := by
  by_cases hi : i < bs.length
  · have hin : 0 ≤ i ∧ i < 0 + bs.length := by omega
    rw [ofBytes, writeBytes, byte_write_of_mem hin, Nat.sub_zero]
  · rw [List.getD_eq_default _ _ (Nat.le_of_not_lt hi)]
    exact (ofBytes bs).tail i (by rw [size_ofBytes]; omega)

/-- A piece of a byte string. -/
theorem read_ofBytes_append (a b c : List UInt8) : (ofBytes (a ++ (b ++ c))).read a.length b.length = b := by
  refine List.ext_getElem (by simp) fun i hi _ => ?_
  have hi' : i < b.length := by simpa using hi
  simp only [read, List.getElem_map, List.getElem_range, byte_ofBytes]
  rw [List.getD_append_right _ _ _ _ (Nat.le_add_right _ _), Nat.add_sub_cancel_left, List.getD_append _ _ _ _ hi',
    List.getD_eq_getElem _ _ hi']

/-- The length of pieces of the same width. -/
theorem length_pieces {α : Type} {f : α → List UInt8} {w : ℕ} (hw : ∀ a, (f a).length = w) (l : List α) :
    (l.flatMap f).length = w * l.length := by
  rw [List.length_flatMap, List.map_congr_left fun a _ => hw a, List.map_const', List.sum_replicate_nat, Nat.mul_comm]

/-- One of several pieces of the same width. -/
theorem read_ofBytes_piece {α : Type} (head : List UInt8) (f : α → List UInt8) {w : ℕ} (hw : ∀ a, (f a).length = w)
    (l : List α) (tail : List UInt8) {i : ℕ} (hi : i < l.length) :
    (ofBytes (head ++ (l.flatMap f ++ tail))).read (head.length + w * i) w = f l[i] := by
  have hwidth : ((l.take i).flatMap f).length = w * i := by
    rw [length_pieces hw, List.length_take_of_le (Nat.le_of_lt hi)]
  have hsplit : l.flatMap f = (l.take i).flatMap f ++ (f l[i] ++ (l.drop (i + 1)).flatMap f) := by
    rw [← List.flatMap_cons, ← List.flatMap_append, ← List.drop_eq_getElem_cons hi, List.take_append_drop]
  have hread := read_ofBytes_append (head ++ (l.take i).flatMap f) (f l[i]) ((l.drop (i + 1)).flatMap f ++ tail)
  rw [List.length_append, hwidth, hw] at hread
  simpa only [hsplit, List.append_assoc] using hread

/-- One piece of a file of pieces of the same width. -/
theorem read_ofBytes_flatMap {α : Type} (head : List UInt8) (f : α → List UInt8) {w : ℕ} (hw : ∀ a, (f a).length = w)
    (l : List α) {i : ℕ} (hi : i < l.length) :
    (ofBytes (head ++ l.flatMap f)).read (head.length + w * i) w = f l[i] := by
  have hread := read_ofBytes_piece head f hw l [] hi
  rwa [List.append_nil] at hread

/-- The front of a file after a write of part of a byte string there. -/
theorem read_write_front {n m : ℕ} (hn : n ≤ m) (hm : m ≤ bs.length) :
    (f.write 0 n fun i => bs.getD i 0).read 0 m = bs.take n ++ (f.read 0 m).drop n := by
  refine List.ext_getElem (by simp; omega) fun i hi _ => ?_
  have hi' : i < m := by simpa using hi
  by_cases hin : i < n
  · rw [List.getElem_append_left (by simp; omega)]
    simp only [read, List.getElem_map, List.getElem_range, List.getElem_take]
    rw [byte_write_of_mem (by omega), List.getD_eq_getElem _ _ (by omega)]
    simp
  · rw [List.getElem_append_right (by simp; omega)]
    simp only [read, List.getElem_map, List.getElem_range, List.getElem_drop, List.length_take]
    rw [byte_write_of_not (by omega)]
    congr 1
    omega

theorem read_truncate (h : off + m ≤ n) : (f.truncate n).read off m = f.read off m :=
  read_congr fun i hi => if_pos (by omega)

end File

/-! ### Torn writes -/

/-- A write cut short, where old and new differ only in the middle. -/
theorem take_append_drop_middle {α : Type} {front m m' back : List α} {w : ℕ} (hm : m.length = w) (hm' : m'.length = w)
    (n : ℕ) :
    (front ++ (m ++ back)).take n ++ (front ++ (m' ++ back)).drop n
      = front ++ ((m.take (min (n - front.length) w) ++ m'.drop (min (n - front.length) w)) ++ back) := by
  rcases Nat.le_total n front.length with hn | hn
  · -- the cut is in front of the difference
    have h0 : min (n - front.length) w = 0 := by omega
    rw [h0, List.take_zero, List.drop_zero, List.nil_append, List.take_append_of_le_length hn,
      List.drop_append_of_le_length hn, ← List.append_assoc (List.take n front), List.take_append_drop]
  · have hfront : front.take n = front := List.take_of_length_le hn
    have hfront' : front.drop n = [] := List.drop_of_length_le hn
    rw [List.take_append, List.drop_append, hfront, hfront', List.nil_append, List.append_assoc]
    congr 1
    rcases Nat.le_total (n - front.length) w with hw | hw
    · rw [min_eq_left hw, List.take_append_of_le_length (hm.symm ▸ hw), List.drop_append_of_le_length (hm'.symm ▸ hw),
        List.append_assoc]
    · have htake : m.take (n - front.length) = m := List.take_of_length_le (hm.symm ▸ hw)
      have hdrop : m'.drop (n - front.length) = [] := List.drop_of_length_le (hm'.symm ▸ hw)
      have htake' : m.take w = m := List.take_of_length_le hm.le
      have hdrop' : m'.drop w = [] := List.drop_of_length_le hm'.le
      rw [min_eq_right hw, List.take_append, List.drop_append, htake, hdrop, htake', hdrop', hm, hm', List.nil_append,
        List.append_nil, List.append_assoc, List.take_append_drop]

/-! ### Little-endian integers -/

/-- The low `n` bytes of `v`, least significant first. -/
def leBytes : ℕ → ℕ → List UInt8
  | 0, _ => []
  | n + 1, v => UInt8.ofNat (v % 256) :: leBytes n (v / 256)

/-- The integer a little-endian byte string denotes. -/
def leNat : List UInt8 → ℕ
  | [] => 0
  | b :: bs => b.toNat + 256 * leNat bs

@[simp] theorem length_leBytes (n v : ℕ) : (leBytes n v).length = n := by
  induction n generalizing v with
  | zero => rfl
  | succ n ih => simp [leBytes, ih]

theorem leNat_leBytes (n v : ℕ) : leNat (leBytes n v) = v % 256 ^ n := by
  induction n generalizing v with
  | zero => simp [leBytes, leNat, Nat.mod_one]
  | succ n ih =>
    have hb : (UInt8.ofNat (v % 256)).toNat = v % 256 := by simp
    rw [leBytes, leNat, ih, hb, Nat.pow_succ, Nat.mul_comm (256 ^ n), Nat.mod_mul]

theorem leNat_leBytes_of_lt {n v : ℕ} (h : v < 256 ^ n) : leNat (leBytes n v) = v := by
  rw [leNat_leBytes, Nat.mod_eq_of_lt h]

/-- The low `j` bytes of one integer in front of the high bytes of another. -/
theorem take_append_drop_leBytes (n a b j : ℕ) :
    (leBytes n a).take j ++ (leBytes n b).drop j = leBytes n (a % 256 ^ j + b / 256 ^ j * 256 ^ j) := by
  induction n generalizing a b j with
  | zero => simp [leBytes]
  | succ n ih =>
    cases j with
    | zero => simp [Nat.mod_one]
    | succ j =>
      have hpos : 0 < 256 ^ j := Nat.pow_pos (by decide)
      have hlow : (a % 256 ^ (j + 1) + b / 256 ^ (j + 1) * 256 ^ (j + 1)) % 256 = a % 256 := by
        rw [Nat.pow_succ, ← Nat.mul_assoc, Nat.add_mul_mod_self_right, Nat.mod_mul_left_mod]
      have hhigh : (a % 256 ^ (j + 1) + b / 256 ^ (j + 1) * 256 ^ (j + 1)) / 256
          = a / 256 % 256 ^ j + b / 256 / 256 ^ j * 256 ^ j := by
        rw [Nat.pow_succ, ← Nat.mul_assoc, Nat.add_mul_div_right _ _ (by decide : 0 < 256), Nat.mod_mul_left_div_self,
          Nat.div_div_eq_div_mul, Nat.mul_comm 256]
      simp only [leBytes, List.take_succ_cons, List.drop_succ_cons, List.cons_append, ih]
      rw [hlow, hhigh]

theorem leNat_lt (bs : List UInt8) : leNat bs < 256 ^ bs.length := by
  induction bs with
  | nil => simp [leNat]
  | cons b bs ih =>
    have hb : b.toNat < 256 := b.toNat_lt
    rw [leNat, List.length_cons, Nat.pow_succ]
    omega

/-! ### Checksums -/

/-- One bit of the reflected CRC-32C register. -/
def crcShift (c : UInt32) : UInt32 := if c &&& 1 = 1 then (c >>> 1) ^^^ 0x82F63B78 else c >>> 1

/-- CRC-32C continued from `seed`, without pre- or post-inversion. -/
def crc32cExtend (bs : List UInt8) (seed : UInt32) : UInt32 :=
  bs.foldl (fun c b => crcShift^[8] (c ^^^ b.toUInt32)) seed

/-- CRC-32C from seed `0`. -/
def crc32c (bs : List UInt8) : UInt32 := crc32cExtend bs 0

end Bytes
