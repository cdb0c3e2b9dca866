import OverlayBD.Format.SparseScan
import Mathlib.Tactic.IntervalCases

/-!
# The coverage pages of a sparse layer (`format/sparse_rw.cpp`)

Where the filesystem cannot tell ownership, a sparse layer keeps it in a file of its own: two bits a sector, four sectors a
byte, 4096 bytes a page.  The encoder fills whole bytes where it can, and the decoder steps over runs of equal bytes in one
stride and checks only their far end.

## The model

* `CoverageState` — the four values of two bits; `invalid` is the one nothing writes.
* `Payload` — the bytes of a page.  `getCoverageState`/`setCoverageState` are the accesses to one sector.
* `coveragePayloadFromSegments` — the encoder: a head up to a whole byte, whole bytes, a tail.
* `decodeCoveragePayload` — the decoder with its strides, runs and three errors; `decodeCoverage` decodes the pages of a
  layer in order.

## What is proved

* `get_coveragePayload` — a page gives every sector the state its segment has.
* `decodeLoop_spec` — the loop stops at the first stride with a bad sector, and otherwise has the runs of all sectors behind
  it.
* `coverage_codec` — decoding what was encoded gives back the owners; and a page is rejected exactly if one of its sectors is
  bad, whichever path the decoder takes.
-/

namespace OverlayBD

open Intervals SegmentMapping Errno

/-- `kCoveragePayloadSize`. -/
abbrev kCoveragePayloadSize : ℕ := 4096

/-- `kCoverageSectorsPerPage`. -/
abbrev kCoverageSectorsPerPage : ℕ := kCoveragePayloadSize * 4

/-! ### Sector states -/

/-- The state of a sector, two bits of its page. -/
inductive CoverageState where
  /-- `kInherit`: the sector is that of the layers below. -/
  | inherit
  /-- `kData`. -/
  | data
  /-- `kZero`. -/
  | zero
  /-- The fourth value, which no sector has. -/
  | invalid
deriving DecidableEq, Repr

namespace CoverageState

/-- The value of the enumeration. -/
def code : CoverageState → BitVec 8
  | inherit => 0
  | data => 1
  | zero => 2
  | invalid => 3

/-- The state with a value. -/
def ofCode (b : BitVec 8) : CoverageState :=
  if b = 0 then inherit else if b = 1 then data else if b = 2 then zero else invalid

/-- Four sectors of this state. -/
def packed (s : CoverageState) : BitVec 8 := s.code * 0x55

/-- The owner of a sector with this state. -/
def owner : CoverageState → Option Bool
  | data => some false
  | zero => some true
  | _ => none

/-- The state of a sector with this owner. -/
def ofOwner : Option Bool → CoverageState
  | some false => data
  | some true => zero
  | none => inherit

@[simp] theorem owner_ofOwner (o : Option Bool) : (ofOwner o).owner = o := by
  rcases o with _ | _ | _ <;> rfl

@[simp] theorem ofOwner_ne_invalid (o : Option Bool) : ofOwner o ≠ invalid := by
  rcases o with _ | _ | _ <;> simp [ofOwner]

end CoverageState

open CoverageState

/-- The bytes of a page. -/
abbrev Payload := ℕ → BitVec 8

/-- Sector `j` of a byte. -/
def slot (b : BitVec 8) (j : ℕ) : CoverageState := ofCode (b >>> (j * 2) &&& 3)

/-- A byte with a new state for sector `j`. -/
def putSlot (b : BitVec 8) (j : ℕ) (s : CoverageState) : BitVec 8 := b &&& ~~~((3 : BitVec 8) <<< (j * 2)) ||| s.code <<< (j * 2)

/-- `set_coverage_state`. -/
def setCoverageState (payload : Payload) (sector : ℕ) (s : CoverageState) : Payload :=
  fun i => if i = sector / 4 then putSlot (payload i) (sector % 4) s else payload i

/-- `get_coverage_state`. -/
def getCoverageState (payload : Payload) (sector : ℕ) : CoverageState := slot (payload (sector / 4)) (sector % 4)

/-- Two bits as a state. -/
def ofBits : Bool → Bool → CoverageState
  | false, false => .inherit
  | true, false => .data
  | false, true => .zero
  | true, true => .invalid

theorem ofCode_and (c : BitVec 8) : ofCode (c &&& 3) = ofBits (c.getLsbD 0) (c.getLsbD 1) := by
  revert c
  decide

theorem slot_eq (b : BitVec 8) (j : ℕ) : slot b j = ofBits (b.getLsbD (j * 2)) (b.getLsbD (j * 2 + 1)) := by
  rw [slot, ofCode_and, BitVec.getLsbD_ushiftRight, BitVec.getLsbD_ushiftRight]
  rfl

/-- Putting a state changes one sector of the byte. -/
theorem slot_putSlot (b : BitVec 8) (s : CoverageState) {j i : ℕ} (hj : j < 4) (hi : i < 4) :
    slot (putSlot b j s) i = if i = j then s else slot b i := by
  rw [slot_eq, slot_eq]
  unfold putSlot
  simp only [BitVec.getLsbD_or, BitVec.getLsbD_and, BitVec.getLsbD_not, BitVec.getLsbD_shiftLeft]
  interval_cases j <;> interval_cases i <;> cases s <;> simp [CoverageState.code, ofBits] 

/-- A byte is uniform if all its sectors are. -/
theorem eq_packed_iff (b : BitVec 8) (s : CoverageState) : b = s.packed ↔ ∀ j < 4, slot b j = s := by
  cases s with
  | inherit =>
    revert b
    decide
  | data =>
    revert b
    decide
  | zero =>
    revert b
    decide
  | invalid =>
    revert b
    decide

theorem getCoverageState_set (payload : Payload) (s : CoverageState) (sector i : ℕ) :
    getCoverageState (setCoverageState payload sector s) i = if i = sector then s else getCoverageState payload i := by
  unfold getCoverageState setCoverageState
  by_cases hb : i / 4 = sector / 4
  · rw [if_pos hb, slot_putSlot _ _ (Nat.mod_lt _ (by decide)) (Nat.mod_lt _ (by decide))]
    have : i % 4 = sector % 4 ↔ i = sector := by omega
    simp only [this]
  · rw [if_neg hb, if_neg fun h => hb (by rw [h])]

/-! ### The encoder -/

/-- The sectors up to a whole byte. -/
def setHead (s : CoverageState) (payload : Payload) (first stop : ℕ) : Payload × ℕ :=
  if first < stop ∧ first % 4 ≠ 0 then setHead s (setCoverageState payload first s) (first + 1) stop else (payload, first)
termination_by stop - first

/-- `std::fill_n`. -/
def fillBytes (payload : Payload) (byte count : ℕ) (value : BitVec 8) : Payload :=
  fun i => if byte ≤ i ∧ i < byte + count then value else payload i

/-- The sectors behind the last whole byte. -/
def setTail (s : CoverageState) (payload : Payload) (first stop : ℕ) : Payload :=
  if first < stop then setTail s (setCoverageState payload first s) (first + 1) stop else payload
termination_by stop - first

/-- The sectors of one segment. -/
def fillRun (s : CoverageState) (payload : Payload) (first stop : ℕ) : Payload :=
  let (payload, first) := setHead s payload first stop
  let wholeBytes := (stop - first) / 4
  setTail s (fillBytes payload (first / 4) wholeBytes s.packed) (first + wholeBytes * 4) stop

/-- The loop over the segments. -/
def coverLoop (pageLo pageHi : ℕ) : List SegmentMapping → Payload → Payload
  | [], payload => payload
  | s :: segments, payload =>
    if s.stop ≤ pageLo then coverLoop pageLo pageHi segments payload
    else if pageHi ≤ s.offset then payload
    else
      coverLoop pageLo pageHi segments
        (fillRun (if s.zeroed then .zero else .data) payload (max s.offset pageLo - pageLo) (min s.stop pageHi - pageLo))

/-- `coverage_payload_from_segments`. -/
def coveragePayloadFromSegments (segments : List SegmentMapping) (page : ℕ) : Payload :=
  coverLoop (page * kCoverageSectorsPerPage) (page * kCoverageSectorsPerPage + kCoverageSectorsPerPage) segments fun _ => 0

variable {payload : Payload} {s : CoverageState} {first stop i : ℕ}

theorem setHead_spec (hle : first ≤ stop) :
    first ≤ (setHead s payload first stop).2 ∧ (setHead s payload first stop).2 ≤ stop ∧
      ((setHead s payload first stop).2 < stop → (setHead s payload first stop).2 % 4 = 0) ∧
      ∀ i, getCoverageState (setHead s payload first stop).1 i =
        if first ≤ i ∧ i < (setHead s payload first stop).2 then s else getCoverageState payload i := by
  fun_induction setHead s payload first stop with
  | case1 payload first h ih =>
    obtain ⟨h1, h2, h3, h4⟩ := ih h.1
    refine ⟨by omega, h2, h3, fun i => ?_⟩
    rw [h4 i, getCoverageState_set]
    split_ifs <;> first | rfl | omega
  | case2 payload first h =>
    refine ⟨le_rfl, hle, fun hlt => by by_contra h'; exact h ⟨hlt, h'⟩, fun i => ?_⟩
    rw [if_neg (by omega)]

theorem setTail_spec : ∀ i, getCoverageState (setTail s payload first stop) i =
    if first ≤ i ∧ i < stop then s else getCoverageState payload i := by
  fun_induction setTail s payload first stop with
  | case1 payload first h ih =>
    intro i
    rw [ih i, getCoverageState_set]
    split_ifs <;> first | rfl | omega
  | case2 payload first h =>
    intro i
    rw [if_neg (by omega)]

theorem get_fillBytes (byte count : ℕ) : getCoverageState (fillBytes payload byte count s.packed) i =
    if byte * 4 ≤ i ∧ i < (byte + count) * 4 then s else getCoverageState payload i := by
  unfold getCoverageState fillBytes
  by_cases h : byte ≤ i / 4 ∧ i / 4 < byte + count
  · rw [if_pos h, if_pos (by omega)]
    exact (eq_packed_iff s.packed s).mp rfl _ (Nat.mod_lt _ (by decide))
  · rw [if_neg h, if_neg (by omega)]

/-- **The three parts together** set the sectors of the run. -/
theorem get_fillRun (hle : first ≤ stop) : getCoverageState (fillRun s payload first stop) i =
    if first ≤ i ∧ i < stop then s else getCoverageState payload i := by
  obtain ⟨h1, h2, h3, h4⟩ := @setHead_spec payload s first stop hle
  unfold fillRun
  generalize setHead s payload first stop = r at h1 h2 h3 h4
  obtain ⟨p, f⟩ := r
  dsimp only at h1 h2 h3 h4 ⊢
  rw [setTail_spec, get_fillBytes, h4]
  split_ifs <;> first | rfl | omega

/-- **A page has the state of every sector**: that of the segment that covers it, or what was there before. -/
theorem get_coverLoop {pageLo : ℕ} {segments : List SegmentMapping} (hord : Ordered segments)
    (hi : i < kCoverageSectorsPerPage) :
    getCoverageState (coverLoop pageLo (pageLo + kCoverageSectorsPerPage) segments payload) i =
      ((owner segments (pageLo + i)).map fun zero => if zero then .zero else .data).getD (getCoverageState payload i) := by
  induction segments generalizing payload with
  | nil => rfl
  | cons s segments ih =>
    rw [coverLoop]
    by_cases hbefore : s.stop ≤ pageLo
    · rw [if_pos hbefore, ih hord.tail, owner, owner, lookup_cons_of_not fun hc => absurd hc.2 (by simp only [hi_eq]; unfold stop at hbefore; omega)]
    rw [if_neg hbefore]
    by_cases hbehind : pageLo + kCoverageSectorsPerPage ≤ s.offset
    · -- the segments from here on begin behind the page
      have hnone : owner (s :: segments) (pageLo + i) = none :=
        hord.lookup_lt_head (Nat.le_add_right _ _) (by simp only [lo_eq]; omega)
      rw [if_pos hbehind, hnone]
      rfl
    · have hstop : s.stop = s.offset + s.length := rfl
      rw [if_neg hbehind, ih hord.tail, get_fillRun (by omega)]
      by_cases hc : Covers s (pageLo + i)
      · have hrest : owner segments (pageLo + i) = none := hord.lookup_tail hc
        simp only [covers_iff] at hc
        rw [hrest, owner, lookup_cons_of_covers (by simpa using hc), if_pos (by omega)]
        rfl
      · rw [owner, owner, lookup_cons_of_not hc]
        simp only [covers_iff, not_and, Nat.not_lt] at hc
        rw [if_neg (by omega)]

/-- The encoder's page, sector by sector. -/
theorem get_coveragePayload {segments : List SegmentMapping} {page : ℕ} (hord : Ordered segments)
    (hi : i < kCoverageSectorsPerPage) :
    getCoverageState (coveragePayloadFromSegments segments page) i =
      ofOwner (owner segments (page * kCoverageSectorsPerPage + i)) := by
  rw [coveragePayloadFromSegments, get_coverLoop hord hi]
  have hblank : getCoverageState (fun _ => 0) i = .inherit :=
    (eq_packed_iff 0 .inherit).mp rfl _ (Nat.mod_lt _ (by decide))
  rw [hblank]
  rcases owner segments (page * kCoverageSectorsPerPage + i) with _ | _ | _ <;> rfl

/-! ### Runs at the end of the segments -/

/-- `can_coalesce`. -/
def canCoalesce (a b : SegmentMapping) : Bool :=
  if a.zeroed ≠ b.zeroed ∨ a.stop < b.offset then false
  else if kMaxLength < max a.stop b.stop - a.offset then false
  else if a.zeroed then true
  else decide (a.moffset + (b.offset - a.offset) = b.moffset)

/-- `push_coalesced`. -/
def pushCoalesced (v : List SegmentMapping) (m : SegmentMapping) : List SegmentMapping :=
  if m.length = 0 then v
  else
    match v.getLast? with
    | some back =>
      if canCoalesce back m then v.dropLast ++ [{ back with length := max back.stop m.stop - back.offset }] else v ++ [m]
    | none => v ++ [m]

/-- `append_coverage_run`. -/
def appendCoverageRun (segments : List SegmentMapping) (lo hi : ℕ) (state : CoverageState) : List SegmentMapping :=
  if lo < hi then
    let n := min (hi - lo) kMaxLength
    appendCoverageRun
      (pushCoalesced segments ⟨lo, n, if state = .data then lo else 0, decide (state = .zero), 0⟩) (lo + n) hi state
  else segments
termination_by hi - lo
decreasing_by
  have : 0 < kMaxLength := by decide
  omega

/-- **The coalescer on a run behind the others**: it follows the last one, or lengthens it where it continues it. -/
theorem pushCoalesced_cases {out : List SegmentMapping} {m : SegmentMapping} (hbehind : ∀ t ∈ out, t.stop ≤ m.offset)
    (hpos : 0 < m.length) :
    pushCoalesced out m = out ++ [m] ∨
      ∃ init back, out = init ++ [back] ∧ back.stop = m.offset ∧ back.zeroed = m.zeroed ∧
        (back.zeroed = false → back.moffset + back.length = m.moffset) ∧ back.length + m.length ≤ kMaxLength ∧
        pushCoalesced out m = init ++ [{ back with length := back.length + m.length }] := by
  unfold pushCoalesced
  rw [if_neg (by omega)]
  cases hl : out.getLast? with
  | none => exact .inl rfl
  | some back =>
    dsimp only
    by_cases hjoin : canCoalesce back m = true
    · have hback := hbehind back (List.mem_of_getLast? hl)
      have hbstop : back.stop = back.offset + back.length := rfl
      have hmstop : m.stop = m.offset + m.length := rfl
      rw [if_pos hjoin]
      unfold canCoalesce at hjoin
      split_ifs at hjoin with h1 h2 h3
      all_goals
        simp only [not_or, not_not, Nat.not_lt] at h1 h2
        refine .inr ⟨_, back, (List.dropLast_append_getLast? _ hl).symm, by omega, h1.1, fun hz => ?_, by omega, ?_⟩
      · exact absurd h3 (by rw [hz]; decide)
      · rw [show max back.stop m.stop - back.offset = back.length + m.length by omega]
      · have := of_decide_eq_true hjoin
        omega
      · rw [show max back.stop m.stop - back.offset = back.length + m.length by omega]
    · rw [if_neg hjoin]
      exact .inl rfl

/-- A run behind the others is merged with the last one, or follows it. -/
theorem pushCoalesced_spec {out : List SegmentMapping} {lo n : ℕ} (h : Owned out lo) (hn : 0 < n) (hcap : n ≤ kMaxLength)
    (zero : Bool) :
    Owned (pushCoalesced out ⟨lo, n, if zero then 0 else lo, zero, 0⟩) (lo + n) ∧
      ∀ x, owner (pushCoalesced out ⟨lo, n, if zero then 0 else lo, zero, 0⟩) x =
        if lo ≤ x ∧ x < lo + n then some zero else owner out x := by
  rcases pushCoalesced_cases (m := ⟨lo, n, if zero then 0 else lo, zero, 0⟩) h.below hn with
    heq | ⟨init, back, rfl, hstop, hz, -, hcap', heq⟩
  · rw [heq]
    exact h.push hn hcap zero
  · rw [heq]
    obtain rfl : back.zeroed = zero := hz
    exact h.stretch hstop hn hcap'

/-- **A run of any length.** -/
theorem appendCoverageRun_spec {out : List SegmentMapping} {lo hi : ℕ} {state : CoverageState} {zero : Bool}
    (hstate : state.owner = some zero) (h : Owned out lo) (hle : lo ≤ hi) :
    Owned (appendCoverageRun out lo hi state) hi ∧
      ∀ x, owner (appendCoverageRun out lo hi state) x = if lo ≤ x ∧ x < hi then some zero else owner out x := by
  fun_induction appendCoverageRun out lo hi state with
  | case1 out lo hlt n ih =>
    have hpos : 0 < kMaxLength := by decide
    have hn : 0 < n := by omega
    have hrun : (⟨lo, n, if state = .data then lo else 0, decide (state = .zero), 0⟩ : SegmentMapping) =
        ⟨lo, n, if zero then 0 else lo, zero, 0⟩ := by
      cases state with
      | data =>
        obtain rfl : false = zero := Option.some.inj hstate
        rfl
      | zero =>
        obtain rfl : true = zero := Option.some.inj hstate
        rfl
      | inherit => exact nomatch hstate
      | invalid => exact nomatch hstate
    simp only [dite_eq_ite] at ih
    rw [hrun] at ih ⊢
    obtain ⟨hpush, hown⟩ := pushCoalesced_spec h hn (Nat.min_le_right _ _) zero
    obtain ⟨hrest, hown'⟩ := ih hpush (by omega)
    refine ⟨hrest, fun x => ?_⟩
    rw [hown' x, hown x]
    split_ifs <;> first | rfl | omega
  | case2 out lo hlt =>
    refine ⟨h.mono hle, fun x => ?_⟩
    rw [if_neg (by omega)]

/-! ### The decoder -/

/-- The end of the run of bytes with this value. -/
def uniformEnd (payload : Payload) (value : BitVec 8) (byte : ℕ) : ℕ :=
  if byte + 1 < kCoveragePayloadSize ∧ payload (byte + 1) = value then uniformEnd payload value (byte + 1) else byte + 1
termination_by kCoveragePayloadSize - byte

/-- The sector behind the stride. -/
def nextSector (payload : Payload) (pageLo sector : ℕ) (state : CoverageState) : ℕ :=
  if (sector - pageLo) % 4 = 0 ∧ payload ((sector - pageLo) / 4) = state.packed then
    pageLo + uniformEnd payload state.packed ((sector - pageLo) / 4) * 4
  else sector + 1

theorem lt_uniformEnd (payload : Payload) (value : BitVec 8) (byte : ℕ) : byte < uniformEnd payload value byte := by
  fun_induction uniformEnd payload value byte with
  | case1 byte h ih => omega
  | case2 byte h => omega

/-- Every stride moves on. -/
theorem lt_nextSector (payload : Payload) (pageLo sector : ℕ) (state : CoverageState) :
    sector < nextSector payload pageLo sector state := by
  unfold nextSector
  split_ifs with h
  · have := lt_uniformEnd payload state.packed ((sector - pageLo) / 4)
    omega
  · omega

/-- The run that ends at `sector`, appended unless it is inherited. -/
def flushRun (pageHi : ℕ) (runState : CoverageState) (runLo sector : ℕ) (segments : List SegmentMapping) :
    List SegmentMapping :=
  if runState ≠ .inherit ∧ runLo < pageHi then appendCoverageRun segments runLo (min sector pageHi) runState else segments

/-- The loop of the decoder: the open run and the segments behind it. -/
def decodeLoop (payload : Payload) (pageLo pageHi dataLimit : ℕ) (path : String) (sector : ℕ) (runState : CoverageState)
    (runLo : ℕ) (segments : List SegmentMapping) : Except Thrown (CoverageState × ℕ × List SegmentMapping) :=
  if sector < pageLo + kCoverageSectorsPerPage then
    let state := getCoverageState payload (sector - pageLo)
    if state = .invalid then .error (formatError ("sparse coverage has invalid sector state: " ++ path))
    else
      let next := nextSector payload pageLo sector state
      if pageHi < next ∧ state ≠ .inherit then .error (formatError ("sparse coverage extends past vsize: " ++ path))
      else if state = .data ∧ dataLimit < next then
        .error (formatError ("sparse coverage DATA extends past data EOF: " ++ path))
      else if state ≠ runState then
        decodeLoop payload pageLo pageHi dataLimit path next state sector (flushRun pageHi runState runLo sector segments)
      else decodeLoop payload pageLo pageHi dataLimit path next runState runLo segments
  else .ok (runState, runLo, segments)
termination_by pageLo + kCoverageSectorsPerPage - sector
decreasing_by
  all_goals
    have := lt_nextSector payload pageLo sector (getCoverageState payload (sector - pageLo))
    omega

/-- `decode_coverage_payload`. -/
def decodeCoveragePayload (payload : Payload) (page maxSector dataLimit : ℕ) (segments : List SegmentMapping)
    (path : String) : Except Thrown (List SegmentMapping) :=
  let pageLo := page * kCoverageSectorsPerPage
  let pageHi := min (pageLo + kCoverageSectorsPerPage) maxSector
  match decodeLoop payload pageLo pageHi dataLimit path pageLo .inherit pageLo segments with
  | .error t => .error t
  | .ok (runState, runLo, segments) =>
    .ok (flushRun pageHi runState runLo (pageLo + kCoverageSectorsPerPage) segments)

/-- The pages of a layer, decoded in order. -/
def decodeCoverage (payloads : ℕ → Payload) (count maxSector dataLimit : ℕ) (path : String) :
    Except Thrown (List SegmentMapping) :=
  (List.range count).foldlM
    (fun segments page => decodeCoveragePayload (payloads page) page maxSector dataLimit segments path) []

/-- `coverage_page_count`. -/
def coveragePageCount (vsize : ℕ) : ℕ := (vsize / kSector + kCoverageSectorsPerPage - 1) / kCoverageSectorsPerPage

section Decoder

variable {pageLo pageHi maxSector dataLimit sector runLo : ℕ} {path : String} {runState state : CoverageState}
  {segments segs segs₀ : List SegmentMapping}

theorem uniformEnd_spec {value : BitVec 8} {byte : ℕ} (hb : byte < kCoveragePayloadSize) (hv : payload byte = value) :
    uniformEnd payload value byte ≤ kCoveragePayloadSize ∧
      ∀ i, byte ≤ i → i < uniformEnd payload value byte → payload i = value := by
  fun_induction uniformEnd payload value byte with
  | case1 byte h ih =>
    obtain ⟨hle, hall⟩ := ih h.1 h.2
    refine ⟨hle, fun i hi hi' => ?_⟩
    rcases hi.eq_or_lt with rfl | hlt
    · exact hv
    · exact hall i hlt hi'
  | case2 byte h =>
    refine ⟨hb, fun i hi hi' => ?_⟩
    obtain rfl : i = byte := by omega
    exact hv

/-- **A stride is uniform**: all its sectors have the state of the first. -/
theorem nextSector_spec (hlo : pageLo ≤ sector) (hhi : sector < pageLo + kCoverageSectorsPerPage)
    (hstate : getCoverageState payload (sector - pageLo) = state) :
    nextSector payload pageLo sector state ≤ pageLo + kCoverageSectorsPerPage ∧
      ∀ x, sector ≤ x → x < nextSector payload pageLo sector state → getCoverageState payload (x - pageLo) = state := by
  have hpage : kCoverageSectorsPerPage = kCoveragePayloadSize * 4 := rfl
  unfold nextSector
  split_ifs with h
  · have hbyte : (sector - pageLo) / 4 < kCoveragePayloadSize := by omega
    obtain ⟨hle, hall⟩ := uniformEnd_spec hbyte h.2
    refine ⟨by omega, fun x hx hx' => ?_⟩
    have hbyte := hall ((x - pageLo) / 4) (by omega) (by omega)
    exact (eq_packed_iff _ _).mp hbyte _ (Nat.mod_lt _ (by decide))
  · refine ⟨hhi, fun x hx hx' => ?_⟩
    obtain rfl : x = sector := by omega
    exact hstate

/-- **A sector the decoder must refuse.** -/
def BadSector (payload : Payload) (pageLo maxSector dataLimit x : ℕ) : Prop :=
  getCoverageState payload (x - pageLo) = .invalid ∨
    (getCoverageState payload (x - pageLo) ≠ .inherit ∧ maxSector ≤ x) ∨
    (getCoverageState payload (x - pageLo) = .data ∧ dataLimit ≤ x)

/-- A stride is refused exactly if one of its sectors is bad. -/
theorem stride_bad_iff {next : ℕ} (hlt : sector < next) (hnext : next ≤ pageLo + kCoverageSectorsPerPage)
    (hall : ∀ x, sector ≤ x → x < next → getCoverageState payload (x - pageLo) = state) :
    (∃ x, sector ≤ x ∧ x < next ∧ BadSector payload pageLo maxSector dataLimit x) ↔
      state = .invalid ∨ (min (pageLo + kCoverageSectorsPerPage) maxSector < next ∧ state ≠ .inherit) ∨
        (state = .data ∧ dataLimit < next) := by
  constructor
  · rintro ⟨x, hx, hx', hbad⟩
    unfold BadSector at hbad
    rw [hall x hx hx'] at hbad
    rcases hbad with h | ⟨h, hle⟩ | ⟨h, hle⟩
    · exact .inl h
    · exact .inr (.inl ⟨by omega, h⟩)
    · exact .inr (.inr ⟨h, by omega⟩)
  · have hlast := hall (next - 1) (by omega) (by omega)
    rintro (h | ⟨hle, h⟩ | ⟨h, hle⟩)
    · exact ⟨sector, le_rfl, hlt, .inl ((hall sector le_rfl hlt).trans h)⟩
    · exact ⟨next - 1, by omega, by omega, .inr (.inl ⟨hlast ▸ h, by omega⟩)⟩
    · exact ⟨next - 1, by omega, by omega, .inr (.inr ⟨hlast.trans h, by omega⟩)⟩

/-- Bad sectors lie in the stride or behind it. -/
theorem exists_bad_iff {next stop : ℕ} (hlt : sector < next)
    (hstride : ¬ ∃ x, sector ≤ x ∧ x < next ∧ BadSector payload pageLo maxSector dataLimit x) :
    (∃ x, next ≤ x ∧ x < stop ∧ BadSector payload pageLo maxSector dataLimit x) ↔
      ∃ x, sector ≤ x ∧ x < stop ∧ BadSector payload pageLo maxSector dataLimit x := by
  constructor
  · rintro ⟨x, hx, hx', hbad⟩
    exact ⟨x, hlt.le.trans hx, hx', hbad⟩
  · rintro ⟨x, hx, hx', hbad⟩
    refine ⟨x, ?_, hx', hbad⟩
    by_contra hxn
    exact hstride ⟨x, hx, Nat.not_le.mp hxn, hbad⟩

/-- **The loop refuses exactly the bad sectors.** -/
theorem decodeLoop_error_iff (hlo : pageLo ≤ sector) :
    (∃ t, decodeLoop payload pageLo (min (pageLo + kCoverageSectorsPerPage) maxSector) dataLimit path sector runState runLo
        segments = .error t) ↔
      ∃ x, sector ≤ x ∧ x < pageLo + kCoverageSectorsPerPage ∧ BadSector payload pageLo maxSector dataLimit x := by
  have hstride : ∀ {sector : ℕ}, pageLo ≤ sector → sector < pageLo + kCoverageSectorsPerPage →
      ((∃ x, sector ≤ x ∧ x < nextSector payload pageLo sector (getCoverageState payload (sector - pageLo)) ∧
          BadSector payload pageLo maxSector dataLimit x) ↔ _) := fun hlo hlt =>
    stride_bad_iff (lt_nextSector ..) (nextSector_spec hlo hlt rfl).1 (nextSector_spec hlo hlt rfl).2
  fun_induction decodeLoop payload pageLo (min (pageLo + kCoverageSectorsPerPage) maxSector) dataLimit path sector runState
    runLo segments with
  | case1 sector runState runLo segments hlt state hinvalid =>
    obtain ⟨x, hx, hx', hbad⟩ := (hstride hlo hlt).mpr (.inl hinvalid)
    exact ⟨fun _ => ⟨x, hx, hx'.trans_le (nextSector_spec hlo hlt rfl).1, hbad⟩, fun _ => ⟨_, rfl⟩⟩
  | case2 sector runState runLo segments hlt state _ next hpast =>
    obtain ⟨x, hx, hx', hbad⟩ := (hstride hlo hlt).mpr (.inr (.inl hpast))
    exact ⟨fun _ => ⟨x, hx, hx'.trans_le (nextSector_spec hlo hlt rfl).1, hbad⟩, fun _ => ⟨_, rfl⟩⟩
  | case3 sector runState runLo segments hlt state _ next _ hpast =>
    obtain ⟨x, hx, hx', hbad⟩ := (hstride hlo hlt).mpr (.inr (.inr hpast))
    exact ⟨fun _ => ⟨x, hx, hx'.trans_le (nextSector_spec hlo hlt rfl).1, hbad⟩, fun _ => ⟨_, rfl⟩⟩
  | case4 sector runState runLo segments hlt state h1 next h2 h3 _ ih =>
    have hnext : sector < next := lt_nextSector ..
    have hgood := (hstride hlo hlt).not.mpr (by rintro (h | h | h); exacts [h1 h, h2 h, h3 h])
    exact (ih (hlo.trans hnext.le)).trans (exists_bad_iff hnext hgood)
  | case5 sector runState runLo segments hlt state h1 next h2 h3 _ ih =>
    have hnext : sector < next := lt_nextSector ..
    have hgood := (hstride hlo hlt).not.mpr (by rintro (h | h | h); exacts [h1 h, h2 h, h3 h])
    exact (ih (hlo.trans hnext.le)).trans (exists_bad_iff hnext hgood)
  | case6 sector runState runLo segments hge =>
    refine ⟨fun ⟨t, ht⟩ => (nomatch ht), ?_⟩
    rintro ⟨x, hx, hx', -⟩
    omega

/-- **What the loop has behind it**: the open run is uniform and inside the layer, and the segments give the sectors in
front of it their owners. -/
structure Decoding (payload : Payload) (pageLo pageHi : ℕ) (segs₀ : List SegmentMapping) (sector : ℕ)
    (runState : CoverageState) (runLo : ℕ) (segs : List SegmentMapping) : Prop where
  owned : Owned segs runLo
  low : pageLo ≤ runLo
  upTo : runLo ≤ sector
  uniform : ∀ x, runLo ≤ x → x < sector → getCoverageState payload (x - pageLo) = runState
  valid : runState ≠ .invalid
  inside : runState ≠ .inherit → sector ≤ pageHi
  own : ∀ x, x < runLo → owner segs x = if x < pageLo then owner segs₀ x else (getCoverageState payload (x - pageLo)).owner

/-- A run that ends is appended. -/
theorem Decoding.flush (h : Decoding payload pageLo pageHi segs₀ sector runState runLo segs) :
    Owned (flushRun pageHi runState runLo sector segs) sector ∧
      ∀ x, x < sector → owner (flushRun pageHi runState runLo sector segs) x =
        if x < pageLo then owner segs₀ x else (getCoverageState payload (x - pageLo)).owner := by
  have hlow := h.low
  have hupTo := h.upTo
  unfold flushRun
  by_cases hrun : runState ≠ .inherit ∧ runLo < pageHi
  · obtain ⟨zero, hzero⟩ : ∃ zero, runState.owner = some zero := by
      cases hr : runState with
      | inherit => exact absurd hr hrun.1
      | invalid => exact absurd hr h.valid
      | data => exact ⟨false, rfl⟩
      | zero => exact ⟨true, rfl⟩
    obtain ⟨hown, happ⟩ := appendCoverageRun_spec hzero h.owned h.upTo
    rw [if_pos hrun, Nat.min_eq_left (h.inside hrun.1)]
    refine ⟨hown, fun x hx => ?_⟩
    rw [happ x]
    by_cases hxr : runLo ≤ x
    · rw [if_pos ⟨hxr, hx⟩, if_neg (by omega), h.uniform x hxr hx, hzero]
    · rw [if_neg (by omega), h.own x (by omega)]
  · rw [if_neg hrun]
    refine ⟨h.owned.mono h.upTo, fun x hx => ?_⟩
    by_cases hxr : runLo ≤ x
    · -- an inherited run, or no sector of the run is inside the layer
      have hinherit : runState = .inherit := by
        by_contra hne
        have := h.inside hne
        exact hrun ⟨hne, by omega⟩
      rw [h.owned.owner_none hxr, if_neg (by omega), h.uniform x hxr hx, hinherit]
      rfl
    · exact h.own x (by omega)

/-- **The loop gives every sector its owner.** -/
theorem decodeLoop_spec {rs : CoverageState} {rl : ℕ} {segs' : List SegmentMapping}
    (h : Decoding payload pageLo pageHi segs₀ sector runState runLo segs) (hle : sector ≤ pageLo + kCoverageSectorsPerPage) :
    decodeLoop payload pageLo pageHi dataLimit path sector runState runLo segs = .ok (rs, rl, segs') →
      Decoding payload pageLo pageHi segs₀ (pageLo + kCoverageSectorsPerPage) rs rl segs' := by
  fun_induction decodeLoop payload pageLo pageHi dataLimit path sector runState runLo segs with
  | case1 => exact nofun
  | case2 => exact nofun
  | case3 => exact nofun
  | case4 sector runState runLo segs hlt state hinvalid next hpast _ hne ih =>
    have hlo : pageLo ≤ sector := h.low.trans h.upTo
    obtain ⟨hnext, hall⟩ := nextSector_spec hlo hlt rfl
    obtain ⟨hown, hflush⟩ := h.flush
    refine ih ⟨hown, hlo, (lt_nextSector ..).le, hall, hinvalid, fun hs => ?_, hflush⟩ hnext
    by_contra hgt
    exact hpast ⟨Nat.not_le.mp hgt, hs⟩
  | case5 sector runState runLo segs hlt state hinvalid next hpast _ heq ih =>
    have hlo : pageLo ≤ sector := h.low.trans h.upTo
    obtain ⟨hnext, hall⟩ := nextSector_spec hlo hlt rfl
    have hsame : state = runState := not_not.mp heq
    refine ih ⟨h.owned, h.low, h.upTo.trans (lt_nextSector ..).le, fun x hx hx' => ?_, h.valid, fun hs => ?_, h.own⟩ hnext
    · by_cases hxs : x < sector
      · exact h.uniform x hx hxs
      · exact (hall x (Nat.not_lt.mp hxs) hx').trans hsame
    · by_contra hgt
      exact hpast ⟨Nat.not_le.mp hgt, hsame ▸ hs⟩
  | case6 sector runState runLo segs hge =>
    intro hok
    obtain ⟨rfl, rfl, rfl⟩ : runState = rs ∧ runLo = rl ∧ segs = segs' := by simpa using hok
    obtain rfl : sector = pageLo + kCoverageSectorsPerPage := le_antisymm hle (Nat.not_lt.mp hge)
    exact h

end Decoder

/-! ### Pages -/

section Pages

variable {page maxSector dataLimit : ℕ} {path : String} {segments segs segs' : List SegmentMapping}

/-- A page is refused exactly if one of its sectors is bad. -/
theorem decodeCoveragePayload_error_iff :
    (∃ t, decodeCoveragePayload payload page maxSector dataLimit segs path = .error t) ↔
      ∃ x, page * kCoverageSectorsPerPage ≤ x ∧ x < page * kCoverageSectorsPerPage + kCoverageSectorsPerPage ∧
        BadSector payload (page * kCoverageSectorsPerPage) maxSector dataLimit x := by
  rw [← decodeLoop_error_iff le_rfl]
  unfold decodeCoveragePayload
  dsimp only
  generalize decodeLoop payload _ _ _ _ _ _ _ _ = r
  cases r with
  | error t => simp
  | ok r => simp

/-- A page that is taken gives its sectors their owners, and leaves the sectors in front. -/
theorem decodeCoveragePayload_spec (h : Owned segs (page * kCoverageSectorsPerPage))
    (hok : decodeCoveragePayload payload page maxSector dataLimit segs path = .ok segs') :
    Owned segs' ((page + 1) * kCoverageSectorsPerPage) ∧
      ∀ x, x < (page + 1) * kCoverageSectorsPerPage → owner segs' x =
        if x < page * kCoverageSectorsPerPage then owner segs x
        else (getCoverageState payload (x - page * kCoverageSectorsPerPage)).owner := by
  unfold decodeCoveragePayload at hok
  dsimp only at hok
  split at hok
  · exact nomatch hok
  · rename_i rs rl out hloop
    obtain rfl := Except.ok.inj hok
    have hstart : Decoding payload (page * kCoverageSectorsPerPage)
        (min (page * kCoverageSectorsPerPage + kCoverageSectorsPerPage) maxSector) segs (page * kCoverageSectorsPerPage)
        .inherit (page * kCoverageSectorsPerPage) segs :=
      ⟨h, le_rfl, le_rfl, fun x hx hx' => by omega, nofun, fun hne => absurd rfl hne, fun x hx => by rw [if_pos hx]⟩
    have hend := (decodeLoop_spec hstart (Nat.le_add_right _ _) hloop).flush
    rwa [Nat.succ_mul]

theorem decodeCoverage_succ (payloads : ℕ → Payload) (count : ℕ) :
    decodeCoverage payloads (count + 1) maxSector dataLimit path =
      decodeCoverage payloads count maxSector dataLimit path >>= fun segs =>
        decodeCoveragePayload (payloads count) count maxSector dataLimit segs path := by
  unfold decodeCoverage
  rw [List.range_succ, List.foldlM_append]
  simp

/-- A sector of an encoded page is bad only if it is DATA past the end of the data. -/
theorem badSector_encoded_iff (hord : Ordered segments) (hin : Within 0 maxSector segments) {x : ℕ}
    (hlo : page * kCoverageSectorsPerPage ≤ x) (hhi : x < page * kCoverageSectorsPerPage + kCoverageSectorsPerPage) :
    BadSector (coveragePayloadFromSegments segments page) (page * kCoverageSectorsPerPage) maxSector dataLimit x ↔
      owner segments x = some false ∧ dataLimit ≤ x := by
  unfold BadSector
  rw [get_coveragePayload hord (by omega), Nat.add_sub_cancel' hlo]
  constructor
  · rintro (h | ⟨h, hle⟩ | ⟨h, hle⟩)
    · exact absurd h (ofOwner_ne_invalid _)
    · have hnone : owner segments x = none := lookup_none_of_within hin (by omega)
      rw [hnone] at h
      exact absurd rfl h
    · refine ⟨?_, hle⟩
      rw [← owner_ofOwner (owner segments x), h]
      rfl
  · rintro ⟨h, hle⟩
    rw [h]
    exact .inr (.inr ⟨rfl, hle⟩)

/-- **The first pages of an encoded layer**: refused only if DATA lies past the end of the data, and otherwise every sector
has its owner. -/
theorem decodePages_spec (hord : Ordered segments) (hin : Within 0 maxSector segments) (count : ℕ) :
    ((∃ t, decodeCoverage (coveragePayloadFromSegments segments) count maxSector dataLimit path = .error t) ∧
        ∃ x, owner segments x = some false ∧ dataLimit ≤ x) ∨
      ∃ out, decodeCoverage (coveragePayloadFromSegments segments) count maxSector dataLimit path = .ok out ∧
        Owned out (count * kCoverageSectorsPerPage) ∧
        ∀ x, x < count * kCoverageSectorsPerPage → owner out x = owner segments x ∧
          ¬ (owner segments x = some false ∧ dataLimit ≤ x) := by
  induction count with
  | zero => exact .inr ⟨[], rfl, owned_nil, fun x hx => by omega⟩
  | succ count ih =>
    rw [decodeCoverage_succ]
    rcases ih with ⟨⟨t, ht⟩, hbad⟩ | ⟨out, hout, howned, hall⟩
    · exact .inl ⟨⟨t, by rw [ht]; rfl⟩, hbad⟩
    · rw [hout]
      show (_ ∧ _) ∨ ∃ r, decodeCoveragePayload _ count maxSector dataLimit out path = .ok r ∧ _
      have herr := @decodeCoveragePayload_error_iff (coveragePayloadFromSegments segments count) count maxSector
        dataLimit path out
      cases hpage : decodeCoveragePayload (coveragePayloadFromSegments segments count) count maxSector dataLimit out path with
      | error t =>
        obtain ⟨x, hx, hx', hbad⟩ := herr.mp ⟨t, hpage⟩
        exact .inl ⟨⟨t, hpage⟩, x, (badSector_encoded_iff hord hin hx hx').mp hbad⟩
      | ok out' =>
        obtain ⟨howned', hown'⟩ := decodeCoveragePayload_spec howned hpage
        refine .inr ⟨out', rfl, howned', fun x hx => ?_⟩
        rw [hown' x hx]
        by_cases hlt : x < count * kCoverageSectorsPerPage
        · rw [if_pos hlt]
          exact hall x hlt
        · have hlo := Nat.not_lt.mp hlt
          have hhi : x < count * kCoverageSectorsPerPage + kCoverageSectorsPerPage := by rwa [Nat.succ_mul] at hx
          rw [if_neg hlt, get_coveragePayload hord (by omega), Nat.add_sub_cancel' hlo, owner_ofOwner]
          refine ⟨rfl, fun hbad => ?_⟩
          have := herr.mpr ⟨x, hlo, hhi, (badSector_encoded_iff hord hin hlo hhi).mpr hbad⟩
          rw [hpage] at this
          exact nomatch this

/-- **The codec.**  Pages that encode an ordered list inside the layer are decoded to a list with the same owners, DATA at its
own place, unless some DATA lies past the end of the data, when they are refused.  And a page, whatever its bytes, is refused
exactly if one of its sectors has the fourth state, is owned at or past the end of the layer, or is DATA at or past the end of
the data. -/
theorem coverage_codec (path : String) :
    (∀ (segments : List SegmentMapping) (vsize dataLimit : ℕ), Ordered segments → Within 0 (vsize / kSector) segments →
      ((∃ x, owner segments x = some false ∧ dataLimit ≤ x) ∧
        ∃ t, decodeCoverage (coveragePayloadFromSegments segments) (coveragePageCount vsize) (vsize / kSector) dataLimit path =
          .error t) ∨
      ((∀ x, owner segments x = some false → x < dataLimit) ∧
        ∃ out, decodeCoverage (coveragePayloadFromSegments segments) (coveragePageCount vsize) (vsize / kSector) dataLimit
            path = .ok out ∧
          Ordered out ∧ ∀ x, owner out x = owner segments x ∧
            resolve out x = (owner segments x).map fun zero => if zero then .zero else .data x)) ∧
    ∀ (payload : Payload) (page maxSector dataLimit : ℕ) (segs : List SegmentMapping),
      (∃ t, decodeCoveragePayload payload page maxSector dataLimit segs path = .error t) ↔
        ∃ i, i < kCoverageSectorsPerPage ∧
          (getCoverageState payload i = .invalid ∨
            (getCoverageState payload i ≠ .inherit ∧ maxSector ≤ page * kCoverageSectorsPerPage + i) ∨
            (getCoverageState payload i = .data ∧ dataLimit ≤ page * kCoverageSectorsPerPage + i)) := by
  refine ⟨fun segments vsize dataLimit hord hin => ?_, fun payload page maxSector dataLimit segs => ?_⟩
  · have hpages : vsize / kSector ≤ coveragePageCount vsize * kCoverageSectorsPerPage := by
      unfold coveragePageCount
      show vsize / 512 ≤ (vsize / 512 + 16384 - 1) / 16384 * 16384
      omega
    have hbehind : ∀ x, coveragePageCount vsize * kCoverageSectorsPerPage ≤ x → owner segments x = none :=
      fun x hx => lookup_none_of_within hin (by omega)
    rcases @decodePages_spec (vsize / kSector) dataLimit path segments hord hin (coveragePageCount vsize) with
      ⟨herr, hbad⟩ | ⟨out, hout, howned, hall⟩
    · exact .inl ⟨hbad, herr⟩
    · have hown : ∀ x, owner out x = owner segments x := by
        intro x
        by_cases hx : x < coveragePageCount vsize * kCoverageSectorsPerPage
        · exact (hall x hx).1
        · rw [howned.owner_none (Nat.not_lt.mp hx), hbehind x (Nat.not_lt.mp hx)]
      refine .inr ⟨fun x hdata => ?_, out, hout, howned.ordered, fun x => ⟨hown x, by rw [howned.resolve_eq, hown x]⟩⟩
      by_cases hx : x < coveragePageCount vsize * kCoverageSectorsPerPage
      · by_contra hge
        exact (hall x hx).2 ⟨hdata, Nat.not_lt.mp hge⟩
      · rw [hbehind x (Nat.not_lt.mp hx)] at hdata
        exact nomatch hdata
  · rw [decodeCoveragePayload_error_iff]
    unfold BadSector
    constructor
    · rintro ⟨x, hlo, hhi, hbad⟩
      refine ⟨x - page * kCoverageSectorsPerPage, by omega, ?_⟩
      rwa [Nat.add_sub_cancel' hlo]
    · rintro ⟨i, hi, hbad⟩
      refine ⟨page * kCoverageSectorsPerPage + i, Nat.le_add_right _ _, by omega, ?_⟩
      rwa [Nat.add_sub_cancel_left]

/-- Two sectors of data and three of zeroes on a layer of 64. -/
theorem coverage_codec_small : ∃ out,
    decodeCoverage (coveragePayloadFromSegments [⟨1, 2, 1, false, 0⟩, ⟨4, 3, 0, true, 0⟩]) 1 64 64 "packed.sparse" = .ok out ∧
      resolve out 2 = some (.data 2) ∧ resolve out 4 = some .zero ∧ resolve out 3 = none := by
  rcases (coverage_codec "packed.sparse").1 [⟨1, 2, 1, false, 0⟩, ⟨4, 3, 0, true, 0⟩] 32768 64
    (by simp [ordered_cons, ordered_nil]) (by simp [Within, kSector]) with ⟨⟨x, hx, hle⟩, -⟩ | ⟨-, out, hout, -, hown⟩
  · obtain ⟨s, hs, hc, -⟩ := exists_of_lookup_some hx
    simp only [List.mem_cons, List.not_mem_nil, or_false] at hs
    rcases hs with rfl | rfl <;> simp only [covers_iff] at hc <;> omega
  · refine ⟨out, hout, ?_, ?_, ?_⟩
    · rw [(hown 2).2]
      decide
    · rw [(hown 4).2]
      decide
    · rw [(hown 3).2]
      decide

end Pages

end OverlayBD
