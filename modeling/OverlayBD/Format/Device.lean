import OverlayBD.Format.MergedSnapshot

/-!
# The device a stack of layers presents

What a stack is for, as a map from bytes to values, and how the merged view reads it.

## The model

* `Lower` — a read-only layer together with the payload its source serves.
* `lowerByte`, `deviceByte` — the byte of the topmost layer that maps the sector, else zero.
* `DevOp` — the operations of the device; `DevOp.apply` runs one on the merged view.
* `Trace` — a run with what the device is expected to hold: the last value a successful operation put there, nothing
  known where an operation failed, else what it held before.

## What is proved

* `pread_deviceByte` — a view whose snapshot is right reads the device.
-/

namespace OverlayBD

open Intervals SegmentMapping Bytes Errno MergedWritable

/-! ### The bytes of a stack -/

/-- The byte at position `j` of a mapped sector. -/
def Place.byte (payload : Buf) (j : ℕ) : Place → UInt8
  | .zero => 0
  | .data p => payload (p * kAlignment + j)

/-- A read-only layer and the payload behind it. -/
structure Lower where
  layer : LsmtLayer
  payload : Buf
  /-- Bytes of payload. -/
  size : ℕ
  index : IndexWf layer.segments
  aligned : layer.virtualSize % kAlignment = 0
  backs : Backs layer.dataSource payload size
  inside : ∀ x p, resolve layer.segments x = some (.data p) → (p + 1) * kAlignment ≤ size

/-- The byte of the topmost layer that maps sector `x`, topmost first; zero if none does. -/
def lowerByte : List Lower → ℕ → ℕ → UInt8
  | [], _, _ => 0
  | l :: rest, x, j =>
    match resolve l.layer.segments x with
    | some p => p.byte l.payload j
    | none => lowerByte rest x j

/-- The same with a writable layer on top. -/
def deviceByte (lowers : List Lower) (segs : List SegmentMapping) (payload : Buf) (x j : ℕ) : UInt8 :=
  match resolve segs x with
  | some p => p.byte payload j
  | none => lowerByte lowers x j

/-- The payload a tag names. -/
def payloadOf (lowers : List Lower) (top : Buf) (tag : ℕ) : Buf :=
  if tag = 0 then top else (lowers[tag - 1]?).elim (fun _ => 0) Lower.payload

/-- The size of the payload a tag names. -/
def payloadSize (lowers : List Lower) (top tag : ℕ) : ℕ :=
  if tag = 0 then top else (lowers[tag - 1]?).elim 0 Lower.size

/-- What the merge says about the lower layers, with tags small enough to tell them apart. -/
theorem topmost_lowers {lowers : List Lower} (hlen : lowers.length ≤ 255) : ∀ (pre rest : List Lower),
    pre ++ rest = lowers → ∀ x,
      match topmost (rest.map fun l => l.layer.segments) (pre.length + 1) x with
      | some (t, p) => t ≠ 0 ∧ (∃ l, lowers[t - 1]? = some l ∧ resolve l.layer.segments x = some p ∧
          ∀ j, lowerByte rest x j = p.byte l.payload j)
      | none => ∀ j, lowerByte rest x j = 0
  | pre, [], _, x => fun _ => rfl
  | pre, l :: rest, hsplit, x => by
    have ih := topmost_lowers hlen (pre ++ [l]) rest (by simpa using hsplit) x
    rw [List.length_append, List.length_singleton] at ih
    rw [List.map_cons, topmost]
    cases hr : resolve l.layer.segments x with
    | none =>
      have hskip : ∀ j, lowerByte (l :: rest) x j = lowerByte rest x j := fun j => by rw [lowerByte, hr]
      simp only [Option.map_none, Option.none_or, hskip]
      exact ih
    | some p =>
      have hk : pre.length + 1 ≤ 255 := by
        rw [← hsplit, List.length_append, List.length_cons] at hlen
        omega
      have hmod : (pre.length + 1) % 256 = pre.length + 1 := Nat.mod_eq_of_lt (by omega)
      simp only [Option.map_some, Option.some_or, hmod]
      refine ⟨by omega, l, ?_, hr, fun j => by rw [lowerByte, hr]⟩
      rw [← hsplit, Nat.add_sub_cancel, List.getElem?_append_right le_rfl, Nat.sub_self]
      rfl

section Read

variable {T : Type} [WritableLayer T] {lowers : List Lower} {segs : List SegmentMapping} {payload : Buf}

theorem placeByte_stack (hlen : lowers.length ≤ 255) (x j : ℕ) :
    placeByte (payloadOf lowers payload) (topmost (stack (lowers.map Lower.layer) segs) 0 x) j =
      deviceByte lowers segs payload x j := by
  have hmap : (lowers.map Lower.layer).map LsmtLayer.segments = lowers.map fun l => l.layer.segments := by
    rw [List.map_map]
    rfl
  rw [stack, topmost, deviceByte, hmap]
  cases hr : resolve segs x with
  | some p => cases p <;> rfl
  | none =>
    have h := topmost_lowers hlen [] lowers rfl x
    simp only [Option.map_none, Option.none_or, List.length_nil, Nat.zero_add] at h ⊢
    cases ht : topmost (lowers.map fun l => l.layer.segments) 1 x with
    | none =>
      rw [ht] at h
      exact (h j).symm
    | some q =>
      obtain ⟨t, p⟩ := q
      rw [ht] at h
      obtain ⟨h0, l, hl, -, hb⟩ := h
      rw [hb j]
      cases p with
      | zero => rfl
      | data p =>
        change payloadOf lowers payload t _ = l.payload _
        rw [payloadOf, if_neg h0, hl]
        rfl

/-- **Reading the device** from a view with a right snapshot. -/
theorem pread_deviceByte {w : MergedWritable T} {size : ℕ} (hlen : lowers.length ≤ 255)
    (hlayers : w.layers = lowers.map Lower.layer) (hcur : w.Current segs) (hidx : w.index.isSome = true)
    (hback : Backs (WritableLayer.dataSource w.top) payload size)
    (hin : ∀ x p, resolve segs x = some (.data p) → (p + 1) * kAlignment ≤ size) (hv : w.vsize % kAlignment = 0)
    {count off : ℕ} (hoff : off % kAlignment = 0) (hcount : count % kAlignment = 0)
    (hend : off + count ≤ kMaxOffset * kAlignment) (out : Buf) :
    (w.pread out count off).ret = ((min count (w.vsize - off) : ℕ) : ℤ) ∧
      ∀ i < min count (w.vsize - off), (w.pread out count off).out i =
        deviceByte lowers segs payload ((off + i) / kAlignment) ((off + i) % kAlignment) := by
  obtain ⟨index, hindex⟩ := Option.isSome_iff_exists.mp hidx
  have hsnap := hcur index hindex
  rw [hlayers] at hsnap
  have hsrc : ∀ x t p, x < kMaxOffset → topmost (stack (lowers.map Lower.layer) segs) 0 x = some (t, .data p) →
      (p + 1) * kAlignment ≤ payloadSize lowers size t ∧
        Backs (sourceOf w.layers w.top t) (payloadOf lowers payload t) (payloadSize lowers size t) := by
    intro x t p _ ht
    rw [stack, topmost, List.map_map] at ht
    cases hr : resolve segs x with
    | some q =>
      rw [hr] at ht
      obtain ⟨rfl, rfl⟩ : 0 = t ∧ q = .data p := by simpa using ht
      exact ⟨hin x p hr, hback⟩
    | none =>
      have h := topmost_lowers hlen [] lowers rfl x
      rw [hr] at ht
      rw [show topmost (lowers.map fun l => l.layer.segments) (List.length [] + 1) x = some (t, .data p) from ht] at h
      obtain ⟨h0, l, hl, hrl, -⟩ := h
      rw [hlayers, payloadSize, payloadOf, sourceOf, if_neg h0, if_neg h0, if_neg h0, List.getElem?_map, hl]
      exact ⟨l.inside x p hrl, l.backs⟩
  obtain ⟨hret, hbytes⟩ := MergedWritable.pread_spec hindex hsnap hsrc hv hoff hcount hend out
  exact ⟨hret, fun i hi => (hbytes i hi).trans (placeByte_stack hlen _ _)⟩

end Read

/-- A stack whose first merge succeeds. -/
theorem openStack_of_merge {T : Type} [WritableLayer T] {layersBottomUp : List LsmtLayer} {top : T} {allocs : ℕ → Bool}
    {segs index : List SegmentMapping} (hsegs : WritableLayer.segmentsSnapshot top = .ok segs) (ha : allocs 0 = true)
    (hm : mergeIndexes (stack layersBottomUp.reverse segs) = some index) :
    openStack layersBottomUp top allocs = some ⟨layersBottomUp.reverse, top, some index,
      layersBottomUp.reverse.foldl (fun v l => max v l.virtualSize) (WritableLayer.virtualSize top), allocs, 1⟩ := by
  simp [openStack, rebuildIndex, hsegs, ha, hm]

/-! ### Operations and expectations -/

/-- An operation of the device. -/
inductive DevOp where
  | pwrite (buf : Buf) (count off : ℕ)
  | discard (off len : ℕ)
  | flush
  | grow (vsize : ℕ)

namespace DevOp

/-- Run an operation on the merged view. -/
def apply {T : Type} [WritableLayer T] (w : MergedWritable T) : DevOp → ℤ × MergedWritable T
  | pwrite buf count off => w.pwrite buf count off
  | discard off len => w.discard off len
  | flush => w.flush
  | grow vsize => w.grow vsize

/-- The requested range contains byte `i`. -/
def Touches (i : ℕ) : DevOp → Prop
  | pwrite _ count off => off ≤ i ∧ i < off + count
  | discard off len => off ≤ i ∧ i < off + len
  | flush => False
  | grow _ => False

instance (i : ℕ) : (op : DevOp) → Decidable (op.Touches i)
  | pwrite _ _ _ => inferInstanceAs (Decidable (_ ∧ _))
  | discard _ _ => inferInstanceAs (Decidable (_ ∧ _))
  | flush => inferInstanceAs (Decidable False)
  | grow _ => inferInstanceAs (Decidable False)

/-- What a successful operation leaves at a byte of its range. -/
def value (i : ℕ) : DevOp → UInt8
  | pwrite buf _ off => buf (i - off)
  | _ => 0

end DevOp

/-- A run of the device: the view, what each byte is expected to hold, and whether every operation succeeded. -/
structure Trace (T : Type) where
  view : MergedWritable T
  expected : ℕ → Option UInt8
  clean : Bool

/-- One more operation. -/
def Trace.step {T : Type} [WritableLayer T] (t : Trace T) (op : DevOp) : Trace T where
  view := (op.apply t.view).2
  expected := fun i =>
    if op.Touches i then (if 0 ≤ (op.apply t.view).1 then some (op.value i) else none) else t.expected i
  clean := t.clean && decide (0 ≤ (op.apply t.view).1)

/-- A stack that was just opened: every byte is expected to hold what the topmost layer that maps it holds. -/
def Trace.start {T : Type} (lowers : List Lower) (segs : List SegmentMapping) (payload : Buf) (w : MergedWritable T) :
    Trace T where
  view := w
  expected := fun i => some (deviceByte lowers segs payload (i / kAlignment) (i % kAlignment))
  clean := true

/-- A whole run. -/
def Trace.run {T : Type} [WritableLayer T] (t : Trace T) (ops : List DevOp) : Trace T := ops.foldl Trace.step t

end OverlayBD
