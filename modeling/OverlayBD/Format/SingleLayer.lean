import OverlayBD.Format.LayerFile

/-!
# The single-layer writer (`format/writer.cpp`)

`write_lsmt_single_layer` makes a sealed layer of a whole image.  Ranges of sectors may be asked to lie at the tail of the
payload: the index stays in logical order, while the payload has the ordinary sectors first and the ranges behind, each in
logical order.

## The model

* `LsmtPayloadRange`, `LsmtWriteOptions` — the options.
* `mergeTail` — the ranges checked and adjacent ones joined.
* `appendRun`, `placeRanges` — the index, in runs of at most 16383 sectors, with one physical position for ordinary sectors
  and one for the tail.
* `writeLsmtSingleLayer` — the file.  Writes succeed; a read past the end of the input throws, as does a string that does not
  fit the header.

## What is proved

* `placeRanges_spec` — the index tiles the image, its payload runs lie in the data region and do not meet.
* `single_layer_roundtrip` — what was written opens, and reads as the image.
-/

namespace OverlayBD

open Intervals SegmentMapping Bytes Errno

/-- `LsmtPayloadRange`, in sectors. -/
structure LsmtPayloadRange where
  offset : ℕ
  length : ℕ
deriving DecidableEq, Repr

/-- The first sector behind the range. -/
def LsmtPayloadRange.stop (r : LsmtPayloadRange) : ℕ := r.offset + r.length

instance : Intervals.Interval LsmtPayloadRange := ⟨LsmtPayloadRange.offset, LsmtPayloadRange.stop⟩

/-- `LsmtWriteOptions`. -/
structure LsmtWriteOptions where
  uuid : List UInt8 := []
  parentUuid : List UInt8 := []
  userTag : List UInt8 := []
  tailRanges : List LsmtPayloadRange := []

/-! ### The writer -/

/-- A range behind the others, joined to the last one where it can be. -/
def pushRange (tail : List LsmtPayloadRange) (r : LsmtPayloadRange) : List LsmtPayloadRange :=
  match tail.getLast? with
  | some back => if r.offset = back.stop then tail.dropLast ++ [{ back with length := back.length + r.length }] else tail ++ [r]
  | none => tail ++ [r]

/-- The loop over the ranges: those kept, and their sectors. -/
def mergeTail (nSectors : ℕ) : List LsmtPayloadRange → List LsmtPayloadRange → ℕ → Except Thrown (List LsmtPayloadRange × ℕ)
  | [], tail, tailSectors => .ok (tail, tailSectors)
  | r :: rest, tail, tailSectors =>
    if r.length = 0 ∨ nSectors ≤ r.offset ∨ nSectors - r.offset < r.length ∨
        tail.getLast?.any (fun back => decide (r.offset < back.stop)) = true then
      .error ⟨einval, "lsmt placement ranges must be sorted, disjoint and in bounds"⟩
    else mergeTail nSectors rest (pushRange tail r) (tailSectors + r.length)

/-- The lambda `append`: the index with a run, and the physical position behind it. -/
def appendRun (segs : List SegmentMapping) (first length physical : ℕ) : Except Thrown (List SegmentMapping × ℕ) :=
  if length ≠ 0 then
    if segs.length = kMaxRoIndexSize then .error ⟨efbig, "lsmt placement exceeds index limit"⟩
    else
      let count := min kMaxLength length
      appendRun (segs ++ [⟨first, count, physical, false, 0⟩]) (first + count) (length - count) (physical + count)
  else .ok (segs, physical)
termination_by length
decreasing_by
  have : 0 < kMaxLength := by decide
  omega

/-- The state of the placement. -/
structure Placing where
  segs : List SegmentMapping
  logical : ℕ
  dataPhysical : ℕ
  tailPhysical : ℕ

/-- The loop over the tail: the ordinary sectors in front of a range, then the range. -/
def placeRanges : List LsmtPayloadRange → Placing → Except Thrown Placing
  | [], p => .ok p
  | r :: rest, p => do
    let (segs, dataPhysical) ← appendRun p.segs p.logical (r.offset - p.logical) p.dataPhysical
    let (segs, tailPhysical) ← appendRun segs r.offset r.length p.tailPhysical
    placeRanges rest ⟨segs, r.offset + r.length, dataPhysical, tailPhysical⟩

/-- The whole index, for the ranges and their number of sectors. -/
def placeAll (nSectors : ℕ) (tail : List LsmtPayloadRange) (tailSectors : ℕ) : Except Thrown (List SegmentMapping) := do
  let tailStart := kDataStartSector + nSectors - tailSectors
  let p ← placeRanges tail ⟨[], 0, kDataStartSector, tailStart⟩
  let (segs, _) ← appendRun p.segs p.logical (nSectors - p.logical) p.dataPhysical
  return segs

/-- The payload of an index, in bytes of input and output. -/
def Copy.ofSegment (s : SegmentMapping) : Copy := ⟨s.offset * kAlignment, s.moffset * kAlignment, s.length * kAlignment⟩

/-- The payload in the order it is copied: ordinary runs, then the tail. -/
def payloadCopies (tailStart : ℕ) (segs : List SegmentMapping) : List Copy :=
  [false, true].flatMap fun atTail =>
    (segs.filter fun s => decide (tailStart ≤ s.moffset) == atTail).map Copy.ofSegment

/-- The region of a header or trailer. -/
def regionOf (ht : HeaderTrailer) : Except Thrown (List UInt8) :=
  match ht.serialize with
  | some region => .ok region
  | none => .error (formatError "lsmt string field overflow")

/-- `write_lsmt_single_layer`: the file at `out_path`. -/
def writeLsmtSingleLayer (generated : List UInt8) (input : File) (inSize : ℕ) (opts : LsmtWriteOptions) :
    Except Thrown File := do
  if inSize = 0 ∨ inSize % kAlignment ≠ 0 then throw ⟨einval, "lsmt input size must be a non-zero multiple of 512"⟩
  let nSectors := inSize / kAlignment
  if kMaxOffset < nSectors then throw ⟨efbig, "lsmt input exceeds logical sector range"⟩
  if kMaxRoIndexSize < opts.tailRanges.length then throw ⟨efbig, "lsmt placement has too many ranges"⟩
  let (tail, tailSectors) ← mergeTail nSectors opts.tailRanges [] 0
  let segs ← placeAll nSectors tail tailSectors
  let indexOffset := kSpace + inSize
  let total := indexOffset + segs.length * kEncodedSize + kSpace
  let ht : HeaderTrailer :=
    { flags := 6
      indexOffset := indexOffset
      indexSize := segs.length
      virtualSize := inSize
      uuid := if opts.uuid = [] then generated else opts.uuid
      parentUuid := opts.parentUuid
      userTag := opts.userTag }
  let out := File.empty.write 0 kSpace fun _ => 0
  let out ← copyAll ⟨eio, "unexpected EOF while reading input"⟩ input
    (payloadCopies (kDataStartSector + nSectors - tailSectors) segs) out
  let out := out.writeBytes indexOffset (segs.flatMap storeSegmentLe)
  let header ← regionOf { ht with flags := 7 }
  let out := out.writeBytes 0 header
  let trailer ← regionOf ht
  let out := out.writeBytes (total - kSpace) trailer
  return out.truncate total

/-! ### The ranges -/

/-- The sectors of some ranges. -/
def sectorsOf (l : List LsmtPayloadRange) : ℕ := (l.map LsmtPayloadRange.length).sum

variable {tail rest : List LsmtPayloadRange} {r : LsmtPayloadRange} {nSectors a : ℕ}

/-- Ranges that are apart have no more sectors than there are. -/
theorem sectorsOf_le {l : List LsmtPayloadRange} (ho : Ordered l) (hw : Within a nSectors l) (ha : a ≤ nSectors) :
    sectorsOf l ≤ nSectors - a := by
  induction l generalizing a with
  | nil => simp [sectorsOf]
  | cons r l ih =>
    obtain ⟨hlo, hhi⟩ := hw r List.mem_cons_self
    have hhi' : r.offset + r.length ≤ nSectors := hhi
    have hlo' : a ≤ r.offset := hlo
    have hrest := ih (a := r.offset + r.length) ho.tail
      (fun t ht => ⟨ho.head_le ht, (hw t (List.mem_cons_of_mem _ ht)).2⟩) hhi'
    simp only [sectorsOf, List.map_cons, List.sum_cons] at hrest ⊢
    omega

/-- The ranges kept so far. -/
structure Tail (nSectors : ℕ) (tail : List LsmtPayloadRange) (tailSectors : ℕ) : Prop where
  ordered : Ordered tail
  within : Within 0 nSectors tail
  sectors : sectorsOf tail = tailSectors

theorem Tail.push {tailSectors : ℕ} (h : Tail nSectors tail tailSectors) (hin : r.offset + r.length ≤ nSectors)
    (hlast : ∀ back ∈ tail.getLast?, back.stop ≤ r.offset) : Tail nSectors (pushRange tail r) (tailSectors + r.length) := by
  have hsectors : ∀ l m : List LsmtPayloadRange, sectorsOf (l ++ m) = sectorsOf l + sectorsOf m := by
    intro l m
    simp [sectorsOf]
  have hbehind : ∀ t ∈ tail, t.stop ≤ r.offset := by
    intro t ht
    cases hl : tail.getLast? with
    | none =>
      rw [List.getLast?_eq_none_iff.mp hl] at ht
      exact absurd ht List.not_mem_nil
    | some back =>
      have hout := (List.dropLast_append_getLast? _ hl)
      rw [← hout] at ht
      rcases List.mem_append.mp ht with ht | ht
      · have hord := h.ordered
        rw [← hout] at hord
        have hle : t.stop ≤ back.offset := (ordered_append.mp hord).2.2 t ht back (List.mem_singleton_self _)
        have := hlast back hl
        unfold LsmtPayloadRange.stop at this
        omega
      · rw [List.mem_singleton.mp ht]
        exact hlast back hl
  have happend : Tail nSectors (tail ++ [r]) (tailSectors + r.length) := by
    refine ⟨h.ordered.concat hbehind, forall_mem_concat.mpr ⟨h.within, Nat.zero_le _, hin⟩, ?_⟩
    rw [hsectors, h.sectors]
    simp [sectorsOf]
  unfold pushRange
  cases hl : tail.getLast? with
  | none => exact happend
  | some back =>
    dsimp only
    by_cases hjoin : r.offset = back.stop
    · rw [if_pos hjoin]
      obtain ⟨init, rfl⟩ : ∃ init, tail = init ++ [back] := ⟨_, (List.dropLast_append_getLast? _ hl).symm⟩
      have hstop : back.stop = back.offset + back.length := rfl
      have hj : Joined (fun _ _ => ()) back r { back with length := back.length + r.length } :=
        ⟨rfl, hjoin.symm, by show back.offset + (back.length + r.length) = r.offset + r.length; omega,
          Nat.le_add_right _ _, Nat.le_add_right _ _, fun _ _ => rfl, fun _ _ => rfl⟩
      obtain ⟨hord, hwithin, hsum⟩ := happend
      rw [List.append_assoc] at hord hwithin hsum
      rw [List.dropLast_concat]
      refine ⟨hord.join hj, forall_mem_join hwithin ⟨Nat.zero_le _, ?_⟩, ?_⟩
      · show back.offset + (back.length + r.length) ≤ nSectors
        omega
      · rw [← hsum, hsectors, hsectors]
        simp [sectorsOf]
    · rw [if_neg hjoin]
      exact happend

/-- **The ranges that are kept** are in order, inside the image, and count the sectors. -/
theorem mergeTail_spec {l tail tail' : List LsmtPayloadRange} {n n' : ℕ} (h : Tail nSectors tail n)
    (hok : mergeTail nSectors l tail n = .ok (tail', n')) : Tail nSectors tail' n' := by
  induction l generalizing tail n with
  | nil =>
    obtain ⟨rfl, rfl⟩ : tail = tail' ∧ n = n' := by simpa [mergeTail] using hok
    exact h
  | cons r l ih =>
    rw [mergeTail] at hok
    split_ifs at hok with hbad
    simp only [not_or, Nat.not_le, Nat.not_lt] at hbad
    obtain ⟨h0, h1, h2, h3⟩ := hbad
    refine ih (h.push (by omega) fun back hback => ?_) hok
    have hback' : tail.getLast? = some back := hback
    rw [hback'] at h3
    simpa using h3

/-! ### The index -/

/-- **An index of DATA runs that tiles `[0, logical)`**, its payload runs apart. -/
structure Tiles (segs : List SegmentMapping) (logical : ℕ) : Prop where
  ordered : Ordered segs
  proper : Proper segs
  plain : ∀ s ∈ segs, s.length ≤ kMaxLength ∧ s.zeroed = false ∧ s.tag = 0 ∧ s.stop ≤ logical
  covers : ∀ x, x < logical → ∃ s ∈ segs, Covers s x
  apart : segs.Pairwise fun s t => s.mend ≤ t.moffset ∨ t.mend ≤ s.moffset
  few : segs.length ≤ kMaxRoIndexSize

variable {segs segs' : List SegmentMapping} {first length physical physical' : ℕ}

theorem tiles_nil : Tiles [] 0 :=
  ⟨ordered_nil, by simp [Proper], by simp, fun x hx => absurd hx (Nat.not_lt_zero x), .nil, Nat.zero_le _⟩

theorem Tiles.push {count : ℕ} (h : Tiles segs first) (hpos : 0 < count) (hcap : count ≤ kMaxLength)
    (hfew : segs.length < kMaxRoIndexSize) (hfree : ∀ s ∈ segs, s.mend ≤ physical ∨ physical + count ≤ s.moffset) :
    Tiles (segs ++ [⟨first, count, physical, false, 0⟩]) (first + count) := by
  refine ⟨h.ordered.concat fun s hs => (h.plain s hs).2.2.2, forall_mem_concat.mpr ⟨h.proper, Nat.lt_add_of_pos_right hpos⟩,
    forall_mem_concat.mpr ⟨fun s hs => ?_, hcap, rfl, rfl, le_rfl⟩, fun x hx => ?_,
    List.pairwise_append.mpr ⟨h.apart, List.pairwise_singleton _ _, ?_⟩, by rw [List.length_append]; exact hfew⟩
  · obtain ⟨h1, h2, h3, h4⟩ := h.plain s hs
    exact ⟨h1, h2, h3, h4.trans (Nat.le_add_right _ _)⟩
  · by_cases hlt : x < first
    · obtain ⟨s, hs, hc⟩ := h.covers x hlt
      exact ⟨s, List.mem_append_left _ hs, hc⟩
    · refine ⟨_, List.mem_append_right _ (List.mem_singleton_self _), ?_⟩
      simp only [covers_iff]
      omega
  · intro s hs t ht
    rw [List.mem_singleton.mp ht]
    exact hfree s hs

/-- **A run appended**, into a physical place no run is in. -/
theorem appendRun_spec (h : Tiles segs first) (hfree : ∀ s ∈ segs, s.mend ≤ physical ∨ physical + length ≤ s.moffset)
    (hok : appendRun segs first length physical = .ok (segs', physical')) :
    Tiles segs' (first + length) ∧ physical' = physical + length ∧
      ∀ s ∈ segs', s ∈ segs ∨ (physical ≤ s.moffset ∧ s.mend ≤ physical + length) := by
  fun_induction appendRun segs first length physical with
  | case1 => exact nomatch hok
  | case2 segs first length physical hne hfew count ih =>
    have hcap : 0 < kMaxLength := by decide
    have hmend : (⟨first, count, physical, false, 0⟩ : SegmentMapping).mend = physical + count := rfl
    have hfree' : ∀ s ∈ segs, s.mend ≤ physical ∨ physical + count ≤ s.moffset := fun s hs =>
      (hfree s hs).imp_right fun hle => by omega
    have hcount : 0 < count := by omega
    have hpush := h.push hcount (Nat.min_le_left _ _) (lt_of_le_of_ne h.few hfew) hfree'
    have hnext : ∀ s ∈ segs ++ [⟨first, count, physical, false, 0⟩],
        s.mend ≤ physical + count ∨ physical + count + (length - count) ≤ s.moffset := by
      refine forall_mem_concat.mpr ⟨fun s hs => ?_, .inl le_rfl⟩
      rcases hfree s hs with hle | hle
      · exact .inl (by omega)
      · exact .inr (by omega)
    obtain ⟨htiles, hphys, hin⟩ := ih hpush hnext hok
    have hsum : first + count + (length - count) = first + length := by omega
    rw [hsum] at htiles
    refine ⟨htiles, by omega, fun s hs => ?_⟩
    rcases hin s hs with hs | ⟨h1, h2⟩
    · rcases List.mem_append.mp hs with hs | hs
      · exact .inl hs
      · rw [List.mem_singleton.mp hs, hmend]
        exact .inr ⟨le_rfl, by omega⟩
    · exact .inr ⟨by omega, by omega⟩
  | case3 segs first length physical hzero =>
    obtain rfl : length = 0 := not_not.mp hzero
    obtain ⟨rfl, rfl⟩ : segs = segs' ∧ physical = physical' := by simpa using hok
    exact ⟨h, rfl, fun s hs => .inl hs⟩

/-- **The state of the placement**: `used` sectors of the tail are placed, ordinary runs lie in front of `tailStart`. -/
structure Placed (tailStart used : ℕ) (p : Placing) : Prop where
  tiles : Tiles p.segs p.logical
  used_le : used ≤ p.logical
  dataPhysical : p.dataPhysical = kDataStartSector + (p.logical - used)
  tailPhysical : p.tailPhysical = tailStart + used
  regions : ∀ s ∈ p.segs, (kDataStartSector ≤ s.moffset ∧ s.mend ≤ p.dataPhysical) ∨
    (tailStart ≤ s.moffset ∧ s.mend ≤ p.tailPhysical)

/-- **The placement of the ranges.** -/
theorem placeRanges_spec {tailStart used : ℕ} {p p' : Placing} (h : Placed tailStart used p) (ho : Ordered tail)
    (hw : Within p.logical nSectors tail) (hle : p.logical ≤ nSectors)
    (hstart : tailStart = kDataStartSector + nSectors - (used + sectorsOf tail))
    (hok : placeRanges tail p = .ok p') : Placed tailStart (used + sectorsOf tail) p' ∧ p'.logical ≤ nSectors := by
  induction tail generalizing p used with
  | nil =>
    obtain rfl : p = p' := by simpa [placeRanges] using hok
    exact ⟨h, hle⟩
  | cons r rest ih =>
    obtain ⟨hlo, hhi⟩ : p.logical ≤ r.offset ∧ r.offset + r.length ≤ nSectors := hw r List.mem_cons_self
    have hsum : sectorsOf (r :: rest) = r.length + sectorsOf rest := by simp [sectorsOf]
    have hroom : sectorsOf (r :: rest) ≤ nSectors - r.offset :=
      sectorsOf_le ho (fun t ht => ⟨by
        rcases List.mem_cons.mp ht with rfl | ht
        · exact le_rfl
        · exact (Nat.le_add_right _ _).trans (ho.head_le ht), (hw t ht).2⟩) (by omega)
    have hused := h.used_le
    have hdata := h.dataPhysical
    have htail := h.tailPhysical
    rw [placeRanges] at hok
    obtain ⟨⟨segs₁, d₁⟩, happ₁, hok⟩ := bind_eq_ok.mp hok
    obtain ⟨⟨segs₂, t₂⟩, happ₂, hok⟩ := bind_eq_ok.mp hok
    -- the ordinary sectors in front of the range
    obtain ⟨htiles₁, rfl, hin₁⟩ := appendRun_spec h.tiles (fun s hs => by
      rcases h.regions s hs with ⟨-, hle⟩ | ⟨hge, -⟩
      · exact .inl hle
      · exact .inr (by omega)) happ₁
    rw [Nat.add_sub_cancel' hlo] at htiles₁
    have hreg₁ : ∀ s ∈ segs₁, (kDataStartSector ≤ s.moffset ∧ s.mend ≤ p.dataPhysical + (r.offset - p.logical)) ∨
        (tailStart ≤ s.moffset ∧ s.mend ≤ p.tailPhysical) := by
      intro s hs
      rcases hin₁ s hs with hs | ⟨h1, h2⟩
      · rcases h.regions s hs with ⟨h1, h2⟩ | h2
        · exact .inl ⟨h1, by omega⟩
        · exact .inr h2
      · exact .inl ⟨by omega, h2⟩
    -- the range
    obtain ⟨htiles₂, rfl, hin₂⟩ := appendRun_spec htiles₁ (fun s hs => by
      rcases hreg₁ s hs with ⟨-, hle⟩ | ⟨-, hle⟩
      · exact .inl (by omega)
      · exact .inl hle) happ₂
    have hplaced : Placed tailStart (used + r.length)
        ⟨segs₂, r.offset + r.length, p.dataPhysical + (r.offset - p.logical), p.tailPhysical + r.length⟩ := by
      refine ⟨htiles₂, ?_, ?_, ?_, fun s hs => ?_⟩
      · show used + r.length ≤ r.offset + r.length
        omega
      · show p.dataPhysical + (r.offset - p.logical) = kDataStartSector + (r.offset + r.length - (used + r.length))
        omega
      · show p.tailPhysical + r.length = tailStart + (used + r.length)
        omega
      · rcases hin₂ s hs with hs | ⟨h1, h2⟩
        · rcases hreg₁ s hs with h1 | ⟨h1, h2⟩
          · exact .inl h1
          · exact .inr ⟨h1, by show s.mend ≤ p.tailPhysical + r.length; omega⟩
        · exact .inr ⟨by omega, h2⟩
    have hrest := ih hplaced ho.tail (fun t ht => ⟨ho.head_le ht, (hw t (List.mem_cons_of_mem _ ht)).2⟩) hhi
      (by rw [hstart, hsum]; omega) hok
    rwa [hsum, ← Nat.add_assoc]

/-- **The index of the whole image**: it tiles the image, and its payload lies in the data region. -/
theorem placeAll_spec {tailSectors : ℕ} (ht : Tail nSectors tail tailSectors)
    (hok : placeAll nSectors tail tailSectors = .ok segs) :
    Tiles segs nSectors ∧ ∀ s ∈ segs, kDataStartSector ≤ s.moffset ∧ s.mend ≤ kDataStartSector + nSectors := by
  have hroom := sectorsOf_le ht.ordered ht.within (Nat.zero_le _)
  rw [ht.sectors] at hroom
  unfold placeAll at hok
  obtain ⟨p, hp, hok⟩ := bind_eq_ok.mp hok
  obtain ⟨⟨segs₁, d⟩, happ, hok⟩ := bind_eq_ok.mp hok
  obtain rfl : segs₁ = segs := Except.ok.inj hok
  have hstart : Placed (kDataStartSector + nSectors - tailSectors) 0
      ⟨[], 0, kDataStartSector, kDataStartSector + nSectors - tailSectors⟩ :=
    ⟨tiles_nil, le_rfl, rfl, rfl, by simp⟩
  obtain ⟨hplaced, hle⟩ := placeRanges_spec hstart ht.ordered ht.within (Nat.zero_le _)
    (by rw [Nat.zero_add, ht.sectors]) hp
  rw [Nat.zero_add, ht.sectors] at hplaced
  have hused := hplaced.used_le
  have hdata := hplaced.dataPhysical
  have htail := hplaced.tailPhysical
  obtain ⟨htiles, -, hin⟩ := appendRun_spec hplaced.tiles (fun s hs => by
    rcases hplaced.regions s hs with ⟨-, h2⟩ | ⟨h1, -⟩
    · exact .inl h2
    · exact .inr (by omega)) happ
  rw [Nat.add_sub_cancel' hle] at htiles
  refine ⟨htiles, fun s hs => ?_⟩
  rcases hin s hs with hs | ⟨h1, h2⟩
  · rcases hplaced.regions s hs with ⟨h1, h2⟩ | ⟨h1, h2⟩
    · exact ⟨h1, by omega⟩
    · exact ⟨by omega, by omega⟩
  · exact ⟨by omega, by omega⟩

/-! ### The payload -/

theorem perm_payloadCopies (tailStart : ℕ) (segs : List SegmentMapping) :
    (payloadCopies tailStart segs).Perm (segs.map Copy.ofSegment) := by
  have hperm := List.filter_append_perm (fun s : SegmentMapping => !decide (tailStart ≤ s.moffset)) segs
  have hmap := hperm.map Copy.ofSegment
  rw [List.map_append] at hmap
  simpa [payloadCopies] using hmap

/-- Runs of payload that are apart are copied apart. -/
theorem apart_payloadCopies {tailStart logical : ℕ} (h : Tiles segs logical) :
    (payloadCopies tailStart segs).Pairwise Copy.Apart := by
  have hsymm : ∀ {c d : Copy}, Copy.Apart c d → Copy.Apart d c := fun h => Or.symm h
  refine ((perm_payloadCopies tailStart segs).pairwise_iff hsymm).mpr (List.pairwise_map.mpr ?_)
  refine h.apart.imp_of_mem fun {s t} hs ht hst => ?_
  have hmend : ∀ r ∈ segs, r.mend = r.moffset + r.length := fun r hr => by
    rw [mend, (h.plain r hr).2.1]
    rfl
  rw [hmend s hs, hmend t ht] at hst
  unfold Copy.Apart Copy.ofSegment
  simp only [← Nat.add_mul]
  exact hst.imp (Nat.mul_le_mul_right _) (Nat.mul_le_mul_right _)

theorem mem_payloadCopies {tailStart : ℕ} {c : Copy} :
    c ∈ payloadCopies tailStart segs ↔ ∃ s ∈ segs, Copy.ofSegment s = c :=
  (perm_payloadCopies tailStart segs).mem_iff.trans List.mem_map

/-! ### The file -/

/-- Writing index, header and trailer around a payload. -/
theorem regions_of_writes {o : File} {header trailer : List UInt8} {off : ℕ} (hlow : kSpace ≤ off)
    (hh : header.length = kSpace) (ht : trailer.length = kSpace) :
    let f := (((o.writeBytes off (segs.flatMap storeSegmentLe)).writeBytes 0 header).writeBytes (off + 16 * segs.length)
      trailer).truncate (off + 16 * segs.length + kSpace)
    Regions f header trailer off segs ∧ ∀ j, kSpace ≤ j → j < off → f.byte j = o.byte j := by
  intro f
  have hilen : (segs.flatMap storeSegmentLe).length = 16 * segs.length := File.length_pieces length_storeSegmentLe segs
  have hsize : f.size = off + 16 * segs.length + kSpace := rfl
  refine ⟨⟨hsize.ge, hlow, ?_, ?_, ?_⟩, fun j hj hj' => ?_⟩
  · rw [File.read_truncate (by omega), File.writeBytes, File.read_write_of_disjoint (.inl (by omega))]
    exact File.read_writeBytes_of_length hh
  · rw [hsize, Nat.add_sub_cancel, File.read_truncate (by omega)]
    exact File.read_writeBytes_of_length ht
  · rw [File.read_truncate (by omega), File.writeBytes, File.read_write_of_disjoint (.inl le_rfl), File.writeBytes,
      File.read_write_of_disjoint (.inr (by omega))]
    exact File.read_writeBytes_of_length hilen
  · show (if j < off + 16 * segs.length + kSpace then _ else _) = _
    rw [if_pos (by omega), File.writeBytes, File.byte_write_of_not (by omega), File.writeBytes,
      File.byte_write_of_not (by omega), File.writeBytes, File.byte_write_of_not (by omega)]

/-- What the writer has made when it returns. -/
theorem writeLsmtSingleLayer_eq_ok {generated : List UInt8} {input out : File} {inSize : ℕ} {opts : LsmtWriteOptions}
    (h : writeLsmtSingleLayer generated input inSize opts = .ok out) :
    inSize ≠ 0 ∧ inSize % kAlignment = 0 ∧ inSize / kAlignment ≤ kMaxOffset ∧
      ∃ segs ht header trailer tailStart o, Tiles segs (inSize / kAlignment) ∧
        (∀ s ∈ segs, kDataStartSector ≤ s.moffset ∧ s.mend ≤ kDataStartSector + inSize / kAlignment) ∧
        ht.flags = 6 ∧ Numbers ht (kSpace + inSize) segs.length inSize ∧ ht.size = kHeaderSize ∧ ht.reserved = 0 ∧
        ht.version = 1 ∧ ht.subVersion = 1 ∧ HeaderTrailer.serialize { ht with flags := 7 } = some header ∧
        ht.serialize = some trailer ∧
        copyAll ⟨eio, "unexpected EOF while reading input"⟩ input (payloadCopies tailStart segs)
          (File.empty.write 0 kSpace fun _ => 0) = .ok o ∧
        out = (((o.writeBytes (kSpace + inSize) (segs.flatMap storeSegmentLe)).writeBytes 0 header).writeBytes
          (kSpace + inSize + 16 * segs.length) trailer).truncate (kSpace + inSize + 16 * segs.length + kSpace) := by
  have hregion : ∀ {ht : HeaderTrailer} {r : List UInt8}, regionOf ht = .ok r → ht.serialize = some r := by
    intro ht r hr
    unfold regionOf at hr
    split at hr
    · rename_i b hser
      rw [hser, Except.ok.inj hr]
    · exact nomatch hr
  unfold writeLsmtSingleLayer at h
  by_cases h1 : inSize = 0 ∨ inSize % kAlignment ≠ 0
  · rw [if_pos h1] at h
    exact nomatch h
  rw [if_neg h1] at h
  by_cases h2 : kMaxOffset < inSize / kAlignment
  · dsimp only at h
    rw [if_pos h2] at h
    exact nomatch h
  dsimp only at h
  rw [if_neg h2] at h
  by_cases h3 : kMaxRoIndexSize < opts.tailRanges.length
  · rw [if_pos h3] at h
    exact nomatch h
  rw [if_neg h3] at h
  simp only [not_or, not_not, Nat.not_lt] at h1 h2
  obtain ⟨⟨tail, tailSectors⟩, htail, h⟩ := bind_eq_ok.mp h
  obtain ⟨segs, hsegs, h⟩ := bind_eq_ok.mp h
  obtain ⟨o, hcopy, h⟩ := bind_eq_ok.mp h
  obtain ⟨header, hheader, h⟩ := bind_eq_ok.mp h
  obtain ⟨trailer, htrailer, h⟩ := bind_eq_ok.mp h
  have hkept : Tail (inSize / kAlignment) tail tailSectors :=
    mergeTail_spec ⟨ordered_nil, by simp [Within], rfl⟩ htail
  obtain ⟨htiles, hphys⟩ := placeAll_spec hkept hsegs
  refine ⟨h1.1, h1.2, h2, segs, _, header, trailer, _, o, htiles, hphys, rfl, ⟨rfl, rfl, rfl⟩, rfl, rfl, rfl, rfl,
    hregion hheader, hregion htrailer, hcopy, ?_⟩
  have hlen : segs.length * kEncodedSize = 16 * segs.length := Nat.mul_comm _ _
  have hout := Except.ok.inj h
  rw [hlen, Nat.add_sub_cancel] at hout
  exact hout.symm

/-- The records of a tiling are what a record can hold, and pass the checks of a reader. -/
theorem Tiles.record {n : ℕ} (h : Tiles segs n) (hn : n ≤ kMaxOffset)
    (hphys : ∀ s ∈ segs, kDataStartSector ≤ s.moffset ∧ s.mend ≤ kDataStartSector + n) (tht : HeaderTrailer)
    (hoff : tht.indexOffset = kSpace + n * kAlignment) {s : SegmentMapping} (hs : s ∈ segs) :
    (s.Fits ∧ s.offset ≠ kInvalidOffset ∧ s.tag = 0) ∧ LsmtLayer.checkMapped tht false s = some s := by
  obtain ⟨hlen, hz, htag, hstop⟩ := h.plain s hs
  obtain ⟨hlo, hhi⟩ := hphys s hs
  have hproper : s.offset < s.stop := h.proper s hs
  have hmend : s.mend = s.moffset + s.length := by
    rw [mend, hz]
    rfl
  have hend : s.stop = s.offset + s.length := rfl
  have hmax : kMaxOffset = 2 ^ 50 - 1 := rfl
  have hinv : kInvalidOffset = kMaxOffset := rfl
  have hcap : kMaxLength = 2 ^ 14 - 1 := rfl
  have hstart : kDataStartSector = 8 := rfl
  refine ⟨⟨⟨by omega, by omega, by omega, by omega⟩, by omega, htag⟩, ?_⟩
  have hfin : tht.indexOffset / kAlignment = kDataStartSector + n := by
    rw [hoff]
    show (4096 + n * 512) / 512 = 8 + n
    omega
  unfold LsmtLayer.checkMapped
  simp only [hz, hfin, Bool.false_eq_true, if_false]
  rw [if_pos (decide_eq_true ⟨hlo, by omega, by omega, hhi⟩)]

/-- A byte by its sector behind another one. -/
theorem sector_split {b x : ℕ} (h : b ≤ x / 512) : b * 512 + ((x / 512 - b) * 512 + x % 512) = x := by
  omega

/-- **The round trip**: whatever image and tail ranges the writer takes, what it wrote opens, and the view of that one layer
has the size of the image and reads as the image; over a source that does not fail every aligned request is served up to the
end. -/
theorem single_layer_roundtrip {generated : List UInt8} {input out : File} {inSize : ℕ} {opts : LsmtWriteOptions}
    (h : writeLsmtSingleLayer generated input inSize opts = .ok out) :
    ∃ f : OpenedFile, f.src = out ∧ f.target = none ∧ ∀ layer : LsmtLayer, layer.Presents f →
      ∃ m, openLayers [layer] = some m ∧ m.vsize = inSize ∧
        (∀ buf count off, 0 < (m.pread buf count off).ret →
          (∀ i : ℕ, (i : ℤ) < (m.pread buf count off).ret → (m.pread buf count off).out i = input.byte (off + i)) ∧
            ∀ i : ℕ, (m.pread buf count off).ret ≤ i → (m.pread buf count off).out i = buf i) ∧
        ((∀ n count off, 0 ≤ (layer.dataSource.pread n count off).ret) → ∀ buf count off, off % kAlignment = 0 →
          count % kAlignment = 0 → (m.pread buf count off).ret = (min count (inSize - off) : ℕ)) := by
  obtain ⟨h0, hal, hmax, segs, ht, header, trailer, tailStart, o, htiles, hphys, hflags, hnum, hsz, hres, hver, hsub,
    hheader, htrailer, hcopy, rfl⟩ := writeLsmtSingleLayer_eq_ok h
  obtain ⟨hcopied, -, -, -, -⟩ := copyAll_spec hcopy (apart_payloadCopies htiles)
  obtain ⟨hregions, hpayload⟩ := @regions_of_writes segs o _ _ _ (Nat.le_add_right kSpace inSize)
    (HeaderTrailer.length_serialize hheader) (HeaderTrailer.length_serialize htrailer)
  -- the image is whole sectors
  have hwhole : inSize / kAlignment * kAlignment = inSize := Nat.div_mul_cancel (Nat.dvd_of_mod_eq_zero hal)
  have hsmall : inSize < 2 ^ 60 := by
    have hmax' : inSize / 512 ≤ 2 ^ 50 - 1 := hmax
    omega
  have hfew : segs.length ≤ 1000000 := htiles.few
  have hspace : kSpace = 4096 := rfl
  have hfit : ∀ fl, fl < 2 ^ 32 → HeaderTrailer.NumbersFit { ht with flags := fl } := fun fl hfl =>
    ⟨hsz, hfl, by rw [hnum.indexOffset]; omega, by rw [hnum.indexSize]; omega, by rw [hnum.virtualSize]; omega,
      by rw [hres]; decide, by rw [hver]; decide, by rw [hsub]; decide⟩
  obtain ⟨u, p, tg, hhp⟩ := HeaderTrailer.exists_parse (hfit 7 (by decide)) hheader
  have htfit : ht.NumbersFit := by
    have := hfit 6 (by decide)
    rwa [← hflags] at this
  obtain ⟨u', p', tg', htp⟩ := HeaderTrailer.exists_parse htfit htrailer
  have hrec := fun s hs => htiles.record hmax hphys { ht with uuid := u', parentUuid := p', userTag := tg' }
    (by rw [hwhole]; exact hnum.indexOffset) (s := s) hs
  have hopen := openImpl_of_regions hregions hhp htp rfl hflags ⟨hnum.indexOffset, hnum.indexSize, hnum.virtualSize⟩
    htiles.few htiles.ordered (fun s hs => (hrec s hs).1) fun s hs => (hrec s hs).2
  refine ⟨⟨_, none, segs, _, hopen⟩, rfl, rfl, fun layer hp => ?_⟩
  obtain ⟨m, hm, hv, hreads, hserved⟩ := view_single hp htiles.proper htiles.few (by rw [hnum.virtualSize]; exact h0)
    (by rw [hnum.virtualSize]; exact hal)
  rw [hnum.virtualSize] at hv
  refine ⟨m, hm, hv, fun buf count off hpos => ⟨fun i hi => ?_, (hreads buf count off hpos).2⟩, ?_⟩
  · rw [(hreads buf count off hpos).1 i hi]
    have hle := pread_ret_le hpos
    rw [hv] at hle
    have hin : off + i < inSize := by omega
    have hsec : (off + i) / kAlignment < inSize / kAlignment :=
      Nat.div_lt_div_of_lt_of_dvd (Nat.dvd_of_mod_eq_zero hal) hin
    obtain ⟨s, hs, hc⟩ := htiles.covers _ hsec
    obtain ⟨-, hz, -, -⟩ := htiles.plain s hs
    have hres : resolve segs ((off + i) / kAlignment) = some (.data (s.moffset + ((off + i) / kAlignment - s.offset))) := by
      rw [resolve, htiles.ordered.lookup_of_mem hs hc, place, hz]
      rfl
    have hbyte := imageByte_single ⟨_, none, segs, _, hopen⟩ (hsec.trans_le hmax)
    rw [hbyte]
    simp only [hres]
    obtain ⟨hlo, hhi⟩ := hphys s hs
    have hc' : s.offset ≤ (off + i) / 512 ∧ (off + i) / 512 < s.offset + s.length := hc
    have hmend : s.mend = s.moffset + s.length := by
      rw [mend, hz]
      rfl
    have hsec' : (off + i) / 512 < inSize / 512 := hsec
    have hwhole' : inSize / 512 * 512 = inSize := hwhole
    have hstart : kDataStartSector = 8 := rfl
    have hsum := Nat.div_add_mod (off + i) 512
    have hmod := Nat.mod_lt (off + i) (show 0 < 512 by decide)
    have hhi' : s.mend ≤ kDataStartSector + inSize / 512 := hhi
    show File.byte _ ((s.moffset + ((off + i) / 512 - s.offset)) * 512 + (off + i) % 512) = _
    rw [hpayload _ (by omega) (by omega)]
    have harrived := hcopied _ (mem_payloadCopies.mpr ⟨s, hs, rfl⟩) (((off + i) / 512 - s.offset) * 512 + (off + i) % 512)
      (by show _ < s.length * 512; omega)
    have hdst : (Copy.ofSegment s).dst = s.moffset * 512 := rfl
    have hsrc : (Copy.ofSegment s).src = s.offset * 512 := rfl
    rw [hdst, hsrc] at harrived
    rw [Nat.add_mul, Nat.add_assoc, harrived]
    exact congrArg input.byte (sector_split hc'.1)
  · rw [hnum.virtualSize] at hserved
    exact hserved

/-- A run that one segment holds. -/
theorem appendRun_short (hpos : length ≠ 0) (hcap : length ≤ kMaxLength) (hfew : segs.length ≠ kMaxRoIndexSize) :
    appendRun segs first length physical = .ok (segs ++ [⟨first, length, physical, false, 0⟩], physical + length) := by
  rw [appendRun, if_pos hpos, if_neg hfew]
  dsimp only
  rw [Nat.min_eq_right hcap, Nat.sub_self, appendRun, if_neg (by simp)]

/-- A run that one buffer holds, inside the input. -/
theorem copyFrom_short {eof : Thrown} {input : File} {c : Copy} (o : File) (hcap : c.len ≤ kCopyBuffer)
    (hin : c.src + c.len ≤ input.size) : ∃ o', copyFrom eof input c 0 o = .ok o' := by
  rw [copyFrom]
  split_ifs with hlt
  · have hchunk : min kCopyBuffer (c.len - 0) = c.len := by omega
    dsimp only
    rw [hchunk, if_neg (by omega), copyFrom, if_neg (by omega)]
    exact ⟨_, rfl⟩
  · exact ⟨_, rfl⟩

/-- Two sectors, the first of them placed at the tail. -/
theorem single_layer_roundtrip_two : ∃ (input out : File) (f : OpenedFile) (m : MergedLsmt),
    writeLsmtSingleLayer [] input 1024 { tailRanges := [⟨0, 1⟩] } = .ok out ∧ f.src = out ∧
      openLayers [f.layer] = some m ∧ m.vsize = 1024 := by
  let input := File.ofBytes (List.replicate 1024 7)
  have hinput : input.size = 1024 := by
    rw [File.size_ofBytes, List.length_replicate]
  have hplace : placeAll 2 [⟨0, 1⟩] 1 = .ok [⟨0, 1, 9, false, 0⟩, ⟨1, 1, 8, false, 0⟩] := by
    have hnone : appendRun [] 0 0 8 = .ok ([], 8) := by
      rw [appendRun, if_neg (by simp)]
    have hfirst : appendRun [] 0 1 9 = .ok ([⟨0, 1, 9, false, 0⟩], 10) := appendRun_short (by decide) (by decide) (by decide)
    have hsecond : appendRun [⟨0, 1, 9, false, 0⟩] 1 1 8 = .ok ([⟨0, 1, 9, false, 0⟩, ⟨1, 1, 8, false, 0⟩], 9) :=
      appendRun_short (by decide) (by decide) (by decide)
    exact bind_eq_ok.mpr ⟨⟨[⟨0, 1, 9, false, 0⟩], 1, 8, 10⟩,
      bind_eq_ok.mpr ⟨([], 8), hnone, bind_eq_ok.mpr ⟨_, hfirst, rfl⟩⟩, bind_eq_ok.mpr ⟨_, hsecond, rfl⟩⟩
  have hcopies : ∀ o, ∃ o', copyAll ⟨eio, "unexpected EOF while reading input"⟩ input
      (payloadCopies 9 [⟨0, 1, 9, false, 0⟩, ⟨1, 1, 8, false, 0⟩]) o = .ok o' := by
    intro o
    have hpc : payloadCopies 9 [⟨0, 1, 9, false, 0⟩, ⟨1, 1, 8, false, 0⟩] = [⟨512, 4096, 512⟩, ⟨0, 4608, 512⟩] := by decide
    obtain ⟨o₁, h₁⟩ := @copyFrom_short ⟨eio, "unexpected EOF while reading input"⟩ input ⟨512, 4096, 512⟩ o (by decide)
      (by rw [hinput]; decide)
    obtain ⟨o₂, h₂⟩ := @copyFrom_short ⟨eio, "unexpected EOF while reading input"⟩ input ⟨0, 4608, 512⟩ o₁ (by decide)
      (by rw [hinput]; decide)
    rw [hpc]
    exact ⟨o₂, bind_eq_ok.mpr ⟨o₁, h₁, bind_eq_ok.mpr ⟨o₂, h₂, rfl⟩⟩⟩
  obtain ⟨o, ho⟩ := hcopies (File.empty.write 0 kSpace fun _ => 0)
  have hwrite : ∃ out, writeLsmtSingleLayer [] input 1024 { tailRanges := [⟨0, 1⟩] } = .ok out := by
    unfold writeLsmtSingleLayer
    rw [if_neg (by decide)]
    dsimp only
    rw [if_neg (by decide), if_neg (by decide)]
    exact ⟨_, bind_eq_ok.mpr ⟨([⟨0, 1⟩], 1), rfl, bind_eq_ok.mpr ⟨_, hplace, bind_eq_ok.mpr ⟨o, ho,
      bind_eq_ok.mpr ⟨_, rfl, bind_eq_ok.mpr ⟨_, rfl, rfl⟩⟩⟩⟩⟩⟩
  obtain ⟨out, hout⟩ := hwrite
  obtain ⟨f, hsrc, -, hview⟩ := single_layer_roundtrip hout
  obtain ⟨m, hm, hv, -⟩ := hview f.layer f.presents
  exact ⟨input, out, f, m, hout, hsrc, hm, hv⟩

end OverlayBD
