import OverlayBD.Format.LsmtReplay
import OverlayBD.Lib.IntervalMap

/-!
# Replaying records

`lsmt_rw::Replay` and `hybrid::Replay` read a log of sixteen-byte records in chunks: each record is checked, takes its
run of sectors in an ordered map, and what it overlaps is split, trimmed or erased.  The two differ in what they ask of
a record and in how they cut what is left of an older one; the rest is one program.

## The model

* `ReplayRules` — what a replay makes of a record, and how it cuts.
* `Replay.record`, `Replay.appendChunk` — `Replay::append`, one record and one chunk.
* `Lsmt.rules`, `Hybrid.rules` — the two instances.

## What is proved

* `Accepts`, `accepts_iff` — which logs are accepted.
* `foldlM_appendChunk` — whatever the chunks, a log is accepted or not, and leaves the map of its history.
* `Replay.load_eq_chunks` — the log of an LSMT pair, read in chunks, is what `Replay.load` reads.
-/

namespace OverlayBD

open Intervals SegmentMapping Bytes

/-! ### The program -/

/-- What a replay makes of a record. -/
inductive Verdict where
  /-- Padding. -/
  | skip
  /-- The record is put into the map in this form. -/
  | keep (m : SegmentMapping)
  | reject

/-- What the two replays differ in. -/
structure ReplayRules where
  /-- From the sectors of the device, those of the data file, and the record. -/
  judge : ℕ → ℕ → SegmentMapping → Verdict
  cut : Cut SegmentMapping

/-- The records of a chunk. -/
def recordsIn (chunk : List UInt8) : List SegmentMapping :=
  (List.range (chunk.length / kEncodedSize)).map fun i => loadSegmentLe (chunk.drop (kEncodedSize * i))

namespace Replay

/-- The body of the loop in `Replay::append`. -/
def record (R : ReplayRules) (r : Replay) (m : SegmentMapping) : Option Replay :=
  match R.judge r.sectors r.dataSectors m with
  | .skip => some r
  | .reject => none
  | .keep m =>
    let live := overwrite R.cut m r.live
    if kMaxRoIndexSize < live.length then none else some { r with live := live }

/-- `Replay::append`. -/
def appendChunk (R : ReplayRules) (r : Replay) (chunk : List UInt8) : Option Replay :=
  if chunk.length % kEncodedSize ≠ 0 ∨ kMaxLogRecords - r.records < chunk.length / kEncodedSize then none
  else (recordsIn chunk).foldlM (record R) { r with records := r.records + chunk.length / kEncodedSize }

end Replay

namespace Lsmt

/-- How `lsmt_rw::Replay` cuts a run: a ZERO run has no backing to move. -/
def cut : Cut SegmentMapping where
  left k s := { s with length := k - s.offset }
  right k s :=
    { s with
      offset := k
      length := s.stop - k
      moffset := if s.zeroed then s.moffset else s.moffset + (k - s.offset) }

/-- What `lsmt_rw::Replay` asks of a record. -/
def judge (sectors dataSectors : ℕ) (m : SegmentMapping) : Verdict :=
  if m.offset = kInvalidOffset then .skip
  else if m.length = 0 ∨ sectors ≤ m.offset ∨ sectors - m.offset < m.length then .reject
  else if m.zeroed = false ∧ (m.moffset < kDataStartSector ∨ dataSectors ≤ m.moffset ∨
      dataSectors - m.moffset < m.length) then .reject
  else .keep (Replay.normalize m)

/-- `lsmt_rw::Replay`. -/
def rules : ReplayRules := ⟨judge, cut⟩

end Lsmt

namespace Hybrid

/-- `hybrid::kNoPhysicalOffset`. -/
def kNoPhysicalOffset : ℕ := kMaxMoffset

/-- `suffix`: the backing, if any, moves along. -/
def suffix (s : SegmentMapping) (start : ℕ) : SegmentMapping :=
  let delta := start - s.offset
  { s with
    offset := start
    length := s.length - delta
    moffset := if s.moffset ≠ kNoPhysicalOffset then s.moffset + delta else s.moffset }

/-- How `hybrid::Replay` cuts a run. -/
def cut : Cut SegmentMapping where
  left k s := { s with length := k - s.offset }
  right k s := suffix s k

/-- What `hybrid::Replay` asks of a record. -/
def judge (sectors dataSectors : ℕ) (m : SegmentMapping) : Verdict :=
  if m.offset = kInvalidOffset ∧ m.length = 0 then
    if m.moffset ≠ 0 ∨ m.zeroed ∨ m.tag ≠ 0 then .reject else .skip
  else if m.length = 0 ∨ sectors ≤ m.offset ∨ sectors - m.offset < m.length then .reject
  else if m.zeroed then
    if m.moffset ≠ kNoPhysicalOffset ∧ (m.moffset < kDataStartSector ∨ dataSectors < m.moffset) then .reject
    else .keep { m with tag := 0 }
  else if m.moffset < kDataStartSector ∨ dataSectors ≤ m.moffset ∨ dataSectors - m.moffset < m.length then .reject
  else .keep { m with tag := 0 }

/-- `hybrid::Replay`. -/
def rules : ReplayRules := ⟨judge, cut⟩

end Hybrid

/-! ### What the rules promise -/

/-- The length fits its field, and a DATA run ends before the last physical sector that has a name. -/
structure Sane (s : SegmentMapping) : Prop where
  length_le : s.length ≤ kMaxLength
  mend_le : s.zeroed = false → s.moffset + s.length ≤ kMaxMoffset

/-- A record that is kept has its run inside the device, and cutting keeps what is left of a run. -/
structure ReplayRules.Lawful (R : ReplayRules) : Prop where
  cut : R.cut.Lawful Sane place
  keep : ∀ {sectors dataSectors m m'}, R.judge sectors dataSectors m = .keep m' → m'.offset = m.offset ∧
    m'.length = m.length ∧ (∀ x, m'.place x = m.place x) ∧ 0 < m.length ∧ m.stop ≤ sectors
  sane : ∀ {sectors dataSectors m m'}, dataSectors ≤ kMaxMoffset → m.length ≤ kMaxLength →
    R.judge sectors dataSectors m = .keep m' → Sane m'

theorem Lsmt.cut_lawful : Lsmt.cut.Lawful Sane place where
  lo_left _ _ := rfl
  hi_left h _ := Nat.add_sub_cancel' h.le
  lo_right _ _ := rfl
  hi_right _ h := Nat.add_sub_cancel' h.le
  all_left {s k} hs h h' := by
    refine ⟨?_, fun hz => ?_⟩
    · exact (Nat.sub_le_iff_le_add'.mpr h'.le).trans hs.length_le
    · have := hs.mend_le hz
      simp only [hi_eq, lo_eq, Lsmt.cut] at *
      omega
  all_right {s k} hs h h' := by
    have hlen := hs.length_le
    simp only [hi_eq, lo_eq] at h h'
    refine ⟨?_, fun hz => ?_⟩
    · simp only [Lsmt.cut, stop]
      omega
    · have hz' : s.zeroed = false := hz
      have := hs.mend_le hz'
      simp only [Lsmt.cut, stop, hz', Bool.false_eq_true, if_false]
      omega
  left _ _ _ _ := rfl
  right {s k x} _ h _ hx := by
    simp only [lo_eq] at h
    cases hz : s.zeroed with
    | true => simp [place, Lsmt.cut, hz]
    | false =>
      have : s.moffset + (k - s.offset) + (x - k) = s.moffset + (x - s.offset) := by omega
      simp [place, Lsmt.cut, hz, this]

theorem Lsmt.rules_lawful : Lsmt.rules.Lawful where
  cut := Lsmt.cut_lawful
  keep {sectors dataSectors m m'} h := by
    simp only [Lsmt.rules, Lsmt.judge] at h
    split_ifs at h with h1 h2 h3
    cases h
    refine ⟨rfl, rfl, Replay.place_normalize m, by omega, ?_⟩
    simp only [stop]
    omega
  sane {sectors dataSectors m m'} hd hlen h := by
    simp only [Lsmt.rules, Lsmt.judge] at h
    split_ifs at h with h1 h2 h3
    cases h
    refine ⟨hlen, fun hz => ?_⟩
    have hz' : m.zeroed = false := hz
    have := not_and.mp h3 hz'
    simp only [Replay.normalize, hz', Bool.false_eq_true, if_false]
    omega

theorem Hybrid.cut_lawful : Hybrid.cut.Lawful Sane place where
  lo_left _ _ := rfl
  hi_left h _ := Nat.add_sub_cancel' h.le
  lo_right _ _ := rfl
  hi_right {s k} h h' := by
    simp only [hi_eq, lo_eq, Hybrid.cut, Hybrid.suffix] at *
    omega
  all_left {s k} hs h h' := by
    refine ⟨?_, fun hz => ?_⟩
    · exact (Nat.sub_le_iff_le_add'.mpr h'.le).trans hs.length_le
    · have := hs.mend_le hz
      simp only [hi_eq, lo_eq, Hybrid.cut] at *
      omega
  all_right {s k} hs h h' := by
    have hlen := hs.length_le
    simp only [hi_eq, lo_eq] at h h'
    refine ⟨(Nat.sub_le _ _).trans hlen, fun hz => ?_⟩
    have := hs.mend_le hz
    simp only [Hybrid.cut, Hybrid.suffix]
    split_ifs <;> omega
  left _ _ _ _ := rfl
  right {s k x} hs h h' hx := by
    simp only [hi_eq, lo_eq] at h h'
    cases hz : s.zeroed with
    | true => simp [place, Hybrid.cut, Hybrid.suffix, hz]
    | false =>
      -- a DATA run has backing, so the part behind the cut moves along
      have hne : s.moffset ≠ Hybrid.kNoPhysicalOffset := by
        have := hs.mend_le hz
        simp only [Hybrid.kNoPhysicalOffset]
        omega
      have : s.moffset + (k - s.offset) + (x - k) = s.moffset + (x - s.offset) := by omega
      simp [place, Hybrid.cut, Hybrid.suffix, hz, hne, this]

theorem Hybrid.rules_lawful : Hybrid.rules.Lawful where
  cut := Hybrid.cut_lawful
  keep {sectors dataSectors m m'} h := by
    simp only [Hybrid.rules, Hybrid.judge] at h
    split_ifs at h with h1 h2 h3 h4 h5 h6 <;> cases h <;>
      exact ⟨rfl, rfl, fun _ => rfl, by omega, by simp only [stop]; omega⟩
  sane {sectors dataSectors m m'} hd hlen h := by
    simp only [Hybrid.rules, Hybrid.judge] at h
    split_ifs at h with h1 h2 h3 h4 h5 h6
    · cases h
      exact ⟨hlen, fun hz => absurd (hz.symm.trans h4) Bool.false_ne_true⟩
    · cases h
      refine ⟨hlen, fun _ => ?_⟩
      show m.moffset + m.length ≤ kMaxMoffset
      omega

/-! ### Which logs are accepted -/

section Accepted

variable {R : ReplayRules} {sectors dataSectors : ℕ}

/-- The records a replay puts into its map, in the form it does. -/
def kept (R : ReplayRules) (sectors dataSectors : ℕ) (ms : List SegmentMapping) : List SegmentMapping :=
  ms.filterMap fun m =>
    match R.judge sectors dataSectors m with
    | .keep m => some m
    | _ => none

/-- The records go through: none is rejected, and the map, whose history is given newest first, never grows beyond its
limit. -/
def Accepts (R : ReplayRules) (sectors dataSectors : ℕ) : List SegmentMapping → List SegmentMapping → Prop
  | _, [] => True
  | older, m :: ms =>
    match R.judge sectors dataSectors m with
    | .skip => Accepts R sectors dataSectors older ms
    | .reject => False
    | .keep m => runCount (m :: older) sectors ≤ kMaxRoIndexSize ∧ Accepts R sectors dataSectors (m :: older) ms

theorem kept_cons_keep {m m' : SegmentMapping} {ms : List SegmentMapping}
    (h : R.judge sectors dataSectors m = .keep m') :
    kept R sectors dataSectors (m :: ms) = m' :: kept R sectors dataSectors ms := by
  rw [kept, List.filterMap_cons_some (by rw [h])]
  rfl

theorem kept_cons_other {m : SegmentMapping} {ms : List SegmentMapping}
    (h : ∀ m', R.judge sectors dataSectors m ≠ .keep m') :
    kept R sectors dataSectors (m :: ms) = kept R sectors dataSectors ms := by
  refine List.filterMap_cons_none ?_
  split
  next m' hm => exact absurd hm (h m')
  next => rfl

theorem accepts_append (older ms more : List SegmentMapping) :
    Accepts R sectors dataSectors older (ms ++ more) ↔ Accepts R sectors dataSectors older ms ∧
      Accepts R sectors dataSectors ((kept R sectors dataSectors ms).reverse ++ older) more := by
  induction ms generalizing older with
  | nil => exact (and_iff_right trivial).symm
  | cons m ms ih =>
    rw [List.cons_append, Accepts, Accepts]
    cases hj : R.judge sectors dataSectors m with
    | skip => rw [kept_cons_other (by simp [hj])]; exact ih older
    | reject => exact (iff_of_false id fun h => h.1)
    | keep m' =>
      rw [kept_cons_keep hj, List.reverse_cons, List.append_assoc]
      exact (and_congr_right' (ih (m' :: older))).trans and_assoc.symm

/-- **What is accepted**: no record is rejected, and no prefix of the log leaves more runs than the limit. -/
theorem accepts_iff (older ms : List SegmentMapping) (h0 : runCount older sectors ≤ kMaxRoIndexSize) :
    Accepts R sectors dataSectors older ms ↔
      (∀ m ∈ ms, R.judge sectors dataSectors m ≠ .reject) ∧
      ∀ k, runCount ((kept R sectors dataSectors (ms.take k)).reverse ++ older) sectors ≤ kMaxRoIndexSize := by
  induction ms generalizing older with
  | nil => simpa [Accepts, kept] using h0
  | cons m ms ih =>
    have hcount : ∀ p : ℕ → Prop, p 0 → ((∀ k, p k) ↔ ∀ k, p (k + 1)) := fun p hp =>
      ⟨fun h k => h (k + 1), fun h k => by cases k with | zero => exact hp | succ k => exact h k⟩
    rw [hcount (fun k => runCount ((kept R sectors dataSectors ((m :: ms).take k)).reverse ++ older) sectors ≤
      kMaxRoIndexSize) (by simpa [kept] using h0)]
    simp only [List.forall_mem_cons, List.take_succ_cons]
    rw [Accepts]
    cases hj : R.judge sectors dataSectors m with
    | skip =>
      have hkept : ∀ ms, kept R sectors dataSectors (m :: ms) = kept R sectors dataSectors ms :=
        fun ms => kept_cons_other (by simp [hj])
      simp only [hkept]
      rw [ih older h0]
      simp
    | reject => simp
    | keep m' =>
      simp only [kept_cons_keep hj, List.reverse_cons, List.append_assoc, List.singleton_append]
      constructor
      · rintro ⟨hrun, hrest⟩
        obtain ⟨hok, hk⟩ := (ih (m' :: older) hrun).mp hrest
        exact ⟨⟨nofun, hok⟩, hk⟩
      · rintro ⟨⟨-, hok⟩, hk⟩
        have hrun : runCount (m' :: older) sectors ≤ kMaxRoIndexSize := by simpa [kept] using hk 0
        exact ⟨hrun, (ih (m' :: older) hrun).mpr ⟨hok, hk⟩⟩

end Accepted

/-! ### The program on a log -/

theorem loadSegmentLe_append {bs more : List UInt8} (h : kEncodedSize ≤ bs.length) :
    loadSegmentLe (bs ++ more) = loadSegmentLe bs := by
  have h8 : 8 ≤ bs.length := by
    simp only [kEncodedSize] at h
    omega
  have h8' : 8 ≤ (bs.drop 8).length := by
    rw [List.length_drop]
    simp only [kEncodedSize] at h
    omega
  simp only [loadSegmentLe]
  rw [List.take_append_of_le_length h8, List.drop_append_of_le_length h8, List.take_append_of_le_length h8']

theorem length_recordsIn (chunk : List UInt8) : (recordsIn chunk).length = chunk.length / kEncodedSize := by
  rw [recordsIn, List.length_map, List.length_range]

theorem length_of_mem_recordsIn {chunk : List UInt8} {m : SegmentMapping} (h : m ∈ recordsIn chunk) :
    m.length ≤ kMaxLength := by
  obtain ⟨i, -, rfl⟩ := List.mem_map.mp h
  exact Replay.length_loadSegmentLe _

/-- A chunk that ends at a record boundary. -/
theorem recordsIn_append {chunk more : List UInt8} (h : chunk.length % kEncodedSize = 0) :
    recordsIn (chunk ++ more) = recordsIn chunk ++ recordsIn more := by
  have hlen : chunk.length = kEncodedSize * (chunk.length / kEncodedSize) := by
    have := Nat.div_add_mod chunk.length kEncodedSize
    omega
  have hcount : (chunk ++ more).length / kEncodedSize = chunk.length / kEncodedSize + more.length / kEncodedSize := by
    rw [List.length_append]
    simp only [kEncodedSize] at *
    omega
  unfold recordsIn
  rw [hcount, List.range_add, List.map_append, List.map_map]
  refine congrArg₂ _ (List.map_congr_left fun i hi => ?_) (List.map_congr_left fun i _ => ?_)
  · have hi' := List.mem_range.mp hi
    have hle : kEncodedSize * i + kEncodedSize ≤ chunk.length := by
      simp only [kEncodedSize] at *
      omega
    rw [List.drop_append_of_le_length (by omega), loadSegmentLe_append (by rw [List.length_drop]; omega)]
  · have hdrop : kEncodedSize * (chunk.length / kEncodedSize + i) = chunk.length + kEncodedSize * i := by
      rw [Nat.mul_add, ← hlen]
    simp only [Function.comp]
    rw [hdrop, List.drop_append, List.drop_of_length_le (Nat.le_add_right _ _), List.nil_append,
      Nat.add_sub_cancel_left]

section Run

variable {R : ReplayRules} {sectors dataSectors : ℕ}

/-- What the history of a replay's map is made of. -/
structure Past (sectors : ℕ) (older : List SegmentMapping) : Prop where
  proper : Proper older
  sane : ∀ s ∈ older, Sane s
  inside : ∀ s ∈ older, s.stop ≤ sectors

theorem past_nil : Past sectors [] :=
  ⟨fun _ h => absurd h List.not_mem_nil, fun _ h => absurd h List.not_mem_nil, fun _ h => absurd h List.not_mem_nil⟩

variable {older : List SegmentMapping}

theorem Past.keep {m m' : SegmentMapping} (h : Past sectors older) (hR : R.Lawful)
    (hd : dataSectors ≤ kMaxMoffset) (hlen : m.length ≤ kMaxLength) (hj : R.judge sectors dataSectors m = .keep m') :
    Past sectors (m' :: older) := by
  obtain ⟨hoff, hl, -, hpos, hstop⟩ := hR.keep hj
  refine ⟨List.forall_mem_cons.mpr ⟨?_, h.proper⟩, List.forall_mem_cons.mpr ⟨hR.sane hd hlen hj, h.sane⟩,
    List.forall_mem_cons.mpr ⟨?_, h.inside⟩⟩
  · simp only [lo_eq, hi_eq]
    omega
  · simp only [stop] at *
    omega

variable {ms : List SegmentMapping}

/-- The history after a log. -/
theorem Past.log (h : Past sectors older) (hR : R.Lawful)
    (hd : dataSectors ≤ kMaxMoffset) (hms : ∀ m ∈ ms, m.length ≤ kMaxLength) :
    Past sectors ((kept R sectors dataSectors ms).reverse ++ older) := by
  induction ms generalizing older with
  | nil => exact h
  | cons m ms ih =>
    have hms' : ∀ m ∈ ms, m.length ≤ kMaxLength := fun m hm => hms m (List.mem_cons_of_mem _ hm)
    cases hj : R.judge sectors dataSectors m with
    | keep m' =>
      rw [kept_cons_keep hj, List.reverse_cons, List.append_assoc]
      exact ih (h.keep hR hd (hms m List.mem_cons_self) hj) hms'
    | skip | reject =>
      rw [kept_cons_other (by simp [hj])]
      exact ih h hms'

theorem past_recordsIn (hR : R.Lawful) (hd : dataSectors ≤ kMaxMoffset) (log : List UInt8) :
    Past sectors (kept R sectors dataSectors (recordsIn log)).reverse := by
  have hlens : ∀ m ∈ recordsIn log, m.length ≤ kMaxLength := fun _ => length_of_mem_recordsIn
  have hpast := (past_nil : Past sectors []).log hR hd hlens
  rwa [List.append_nil] at hpast

/-- The map of a history has an entry for each of its runs. -/
theorem Past.length (h : Past sectors older) (hR : R.Lawful) : (history R.cut older).length = runCount older sectors :=
  length_history hR.cut h.proper h.sane h.inside

/-- **The records of a log**: accepted or not, and the map is that of the history. -/
theorem foldlM_record (hR : R.Lawful) (hd : dataSectors ≤ kMaxMoffset) (n : ℕ)
    (hpast : Past sectors older) (hms : ∀ m ∈ ms, m.length ≤ kMaxLength) (r' : Replay) :
    ms.foldlM (Replay.record R) ⟨sectors, dataSectors, n, history R.cut older⟩ = some r' ↔
      Accepts R sectors dataSectors older ms ∧
      r' = ⟨sectors, dataSectors, n, history R.cut ((kept R sectors dataSectors ms).reverse ++ older)⟩ := by
  induction ms generalizing older with
  | nil => exact ⟨fun h => ⟨trivial, (Option.some.inj h).symm⟩, fun h => congrArg some h.2.symm⟩
  | cons m ms ih =>
    have hm := hms m List.mem_cons_self
    have hms' : ∀ m ∈ ms, m.length ≤ kMaxLength := fun m hm => hms m (List.mem_cons_of_mem _ hm)
    rw [List.foldlM_cons, Replay.record, Accepts]
    cases hj : R.judge sectors dataSectors m with
    | skip =>
      rw [kept_cons_other (by simp [hj])]
      exact ih hpast hms'
    | reject => exact iff_of_false nofun fun h => h.1
    | keep m' =>
      have hpast' := hpast.keep hR hd hm hj
      have hlive : overwrite R.cut m' (history R.cut older) = history R.cut (m' :: older) := rfl
      rw [kept_cons_keep hj, List.reverse_cons, List.append_assoc, List.singleton_append]
      simp only [hlive, hpast'.length hR]
      by_cases hfull : kMaxRoIndexSize < runCount (m' :: older) sectors
      · rw [if_pos hfull]
        exact iff_of_false nofun fun h => absurd h.1.1 (by omega)
      · rw [if_neg hfull, and_assoc]
        refine Iff.trans (ih hpast' hms') (and_iff_right ?_).symm
        omega

/-- **A log in chunks**: the limit on records is met once for the whole log, whatever the chunks. -/
theorem foldlM_appendChunk (hR : R.Lawful) (hd : dataSectors ≤ kMaxMoffset) {n : ℕ}
    (hn : n ≤ kMaxLogRecords) (hpast : Past sectors older) {chunks : List (List UInt8)}
    (hchunks : ∀ chunk ∈ chunks, chunk.length % kEncodedSize = 0) (r' : Replay) :
    chunks.foldlM (Replay.appendChunk R) ⟨sectors, dataSectors, n, history R.cut older⟩ = some r' ↔
      n + (recordsIn chunks.flatten).length ≤ kMaxLogRecords ∧
      Accepts R sectors dataSectors older (recordsIn chunks.flatten) ∧
      r' = ⟨sectors, dataSectors, n + (recordsIn chunks.flatten).length,
        history R.cut ((kept R sectors dataSectors (recordsIn chunks.flatten)).reverse ++ older)⟩ := by
  induction chunks generalizing older n with
  | nil => exact ⟨fun h => ⟨hn, trivial, (Option.some.inj h).symm⟩, fun h => congrArg some h.2.2.symm⟩
  | cons chunk chunks ih =>
    have hchunk := hchunks chunk List.mem_cons_self
    have hchunks' : ∀ c ∈ chunks, c.length % kEncodedSize = 0 := fun c hc => hchunks c (List.mem_cons_of_mem _ hc)
    have hlens : ∀ m ∈ recordsIn chunk, m.length ≤ kMaxLength := fun _ => length_of_mem_recordsIn
    have hpast' := hpast.log hR hd hlens
    rw [List.foldlM_cons, List.flatten_cons, recordsIn_append hchunk, accepts_append, List.length_append]
    have hkept : kept R sectors dataSectors (recordsIn chunk ++ recordsIn chunks.flatten) =
        kept R sectors dataSectors (recordsIn chunk) ++ kept R sectors dataSectors (recordsIn chunks.flatten) :=
      List.filterMap_append
    rw [hkept, List.reverse_append, List.append_assoc, Replay.appendChunk]
    simp only [← length_recordsIn]
    by_cases hfull : kMaxLogRecords - n < (recordsIn chunk).length
    · rw [if_pos (.inr hfull)]
      exact iff_of_false nofun fun h => absurd h.1 (by omega)
    · rw [if_neg (by omega)]
      constructor
      · intro h
        obtain ⟨mid, hmid, hrest⟩ := Option.bind_eq_some_iff.mp h
        obtain ⟨hacc, rfl⟩ := (foldlM_record hR hd _ hpast (fun _ => length_of_mem_recordsIn) mid).mp hmid
        obtain ⟨hcount, hacc', rfl⟩ := (ih (by omega) hpast' hchunks').mp hrest
        exact ⟨by omega, ⟨hacc, hacc'⟩, by rw [Nat.add_assoc]⟩
      · rintro ⟨hcount, ⟨hacc, hacc'⟩, rfl⟩
        refine Option.bind_eq_some_iff.mpr ⟨_, (foldlM_record hR hd _ hpast (fun _ => length_of_mem_recordsIn) _).mpr
          ⟨hacc, rfl⟩, ?_⟩
        exact (ih (by omega) hpast' hchunks').mpr ⟨by omega, hacc', by rw [Nat.add_assoc]⟩

/-! ### The log as it is written -/

/-- A log within its bounds: every record that is not padding fits, there are not too many, and no prefix leaves more
runs of sectors than the map may have entries. -/
structure AcceptedLog (padding : SegmentMapping → Bool) (fits : SegmentMapping → Prop) (sectors : ℕ)
    (records : List SegmentMapping) : Prop where
  count : records.length ≤ kMaxLogRecords
  fits : ∀ m ∈ records, padding m = true ∨ fits m
  live : ∀ k, runCount ((records.take k).filter fun m => !padding m).reverse sectors ≤ kMaxRoIndexSize

/-- The form in which a record is kept. -/
def ReplayRules.form (R : ReplayRules) (sectors dataSectors : ℕ) (m : SegmentMapping) : SegmentMapping :=
  match R.judge sectors dataSectors m with
  | .keep m' => m'
  | _ => m

theorem ReplayRules.Lawful.form_eq (hR : R.Lawful) (m : SegmentMapping) :
    (R.form sectors dataSectors m).offset = m.offset ∧ (R.form sectors dataSectors m).length = m.length ∧
      ∀ x, (R.form sectors dataSectors m).place x = m.place x := by
  unfold ReplayRules.form
  cases hj : R.judge sectors dataSectors m with
  | keep m' => exact ⟨(hR.keep hj).1, (hR.keep hj).2.1, (hR.keep hj).2.2.1⟩
  | skip | reject => exact ⟨rfl, rfl, fun _ => rfl⟩

variable {padding : SegmentMapping → Bool} {fits : SegmentMapping → Prop}

/-- Where nothing is rejected, everything but padding is kept. -/
theorem kept_eq (hskip : ∀ m, R.judge sectors dataSectors m = .skip ↔ padding m = true)
    (hms : ∀ m ∈ ms, R.judge sectors dataSectors m ≠ .reject) :
    kept R sectors dataSectors ms = (ms.filter fun m => !padding m).map (R.form sectors dataSectors) := by
  induction ms with
  | nil => rfl
  | cons m ms ih =>
    have hrest := ih fun m hm => hms m (List.mem_cons_of_mem _ hm)
    cases hj : R.judge sectors dataSectors m with
    | skip =>
      rw [kept_cons_other (by simp [hj]), hrest, List.filter_cons_of_neg (by simp [(hskip m).mp hj])]
    | reject => exact absurd hj (hms m List.mem_cons_self)
    | keep m' =>
      have hpad : padding m = false := by
        rw [Bool.eq_false_iff]
        intro hp
        exact absurd (((hskip m).mpr hp).symm.trans hj) nofun
      rw [kept_cons_keep hj, hrest, List.filter_cons_of_pos (by simp [hpad]), List.map_cons, ReplayRules.form, hj]

/-- **A replay of chunks**, in terms of the records themselves. -/
theorem ReplayRules.Lawful.chunks (hR : R.Lawful) (hd : dataSectors ≤ kMaxMoffset)
    (hskip : ∀ m, R.judge sectors dataSectors m = .skip ↔ padding m = true)
    (hfits : ∀ m, m.length ≤ kMaxLength →
      (R.judge sectors dataSectors m ≠ .reject ↔ padding m = true ∨ fits m))
    {chunks : List (List UInt8)} (hchunks : ∀ chunk ∈ chunks, chunk.length % kEncodedSize = 0) :
    ((∃ r, chunks.foldlM (Replay.appendChunk R) ⟨sectors, dataSectors, 0, []⟩ = some r) ↔
      AcceptedLog padding fits sectors (recordsIn chunks.flatten)) ∧
    ∀ r, chunks.foldlM (Replay.appendChunk R) ⟨sectors, dataSectors, 0, []⟩ = some r →
      (r.sectors = sectors ∧ r.dataSectors = dataSectors ∧
        r.live = history R.cut (kept R sectors dataSectors (recordsIn chunks.flatten)).reverse) ∧
      ∀ x, resolve r.live x = lookup place ((recordsIn chunks.flatten).filter fun m => !padding m).reverse x := by
  set records := recordsIn chunks.flatten with hrecords
  have hlens : ∀ m ∈ records, m.length ≤ kMaxLength := fun _ => length_of_mem_recordsIn
  have hzero : runCount ([] : List SegmentMapping) sectors ≤ kMaxRoIndexSize := by
    rw [runCount_nil]
    exact Nat.zero_le _
  have hfold : ∀ r', chunks.foldlM (Replay.appendChunk R) ⟨sectors, dataSectors, 0, []⟩ = some r' ↔
      0 + records.length ≤ kMaxLogRecords ∧ Accepts R sectors dataSectors [] records ∧ r' = _ :=
    foldlM_appendChunk hR hd (Nat.zero_le _) past_nil hchunks
  -- the runs of what is kept are the runs of the records
  have hruns : ∀ ms : List SegmentMapping, (∀ m ∈ ms, R.judge sectors dataSectors m ≠ .reject) →
      runCount ((kept R sectors dataSectors ms).reverse ++ []) sectors =
        runCount (ms.filter fun m => !padding m).reverse sectors := by
    intro ms hms
    rw [List.append_nil, kept_eq hskip hms, ← List.map_reverse]
    exact runCount_map _ (fun m => (hR.form_eq m).1)
      (fun m => by simp only [hi_eq, (hR.form_eq m).1, (hR.form_eq m).2.1]) _ _
  constructor
  · constructor
    · rintro ⟨r, hr⟩
      obtain ⟨hcount, hacc, -⟩ := (hfold r).mp hr
      obtain ⟨hrej, hk⟩ := (accepts_iff [] records hzero).mp hacc
      refine ⟨by omega, fun m hm => (hfits m (hlens m hm)).mp (hrej m hm), fun k => ?_⟩
      rw [← hruns (records.take k) fun m hm => hrej m (List.mem_of_mem_take hm)]
      exact hk k
    · intro hacc
      have hrej : ∀ m ∈ records, R.judge sectors dataSectors m ≠ .reject := fun m hm =>
        (hfits m (hlens m hm)).mpr (hacc.fits m hm)
      have hrun : Accepts R sectors dataSectors [] records := by
        refine (accepts_iff [] records hzero).mpr ⟨hrej, fun k => ?_⟩
        rw [hruns (records.take k) fun m hm => hrej m (List.mem_of_mem_take hm)]
        exact hacc.live k
      exact ⟨_, (hfold _).mpr ⟨by have := hacc.count; omega, hrun, rfl⟩⟩
  · intro r hr
    obtain ⟨-, hacc, rfl⟩ := (hfold r).mp hr
    obtain ⟨hrej, -⟩ := (accepts_iff [] records hzero).mp hacc
    rw [List.append_nil]
    refine ⟨⟨rfl, rfl, rfl⟩, fun x => ?_⟩
    have hpast : Past sectors (kept R sectors dataSectors records).reverse := past_recordsIn hR hd _
    show lookup place (history R.cut (kept R sectors dataSectors records).reverse) x = _
    rw [(lookup_history hR.cut hpast.proper hpast.sane).2 x, kept_eq hskip hrej, ← List.map_reverse]
    rw [lookup_map (w := place) (R.form sectors dataSectors) (fun m => (hR.form_eq m).1)
      (fun m => by simp only [hi_eq, (hR.form_eq m).1, (hR.form_eq m).2.1])]
    simp only [(hR.form_eq _).2.2]

end Run

/-! ### LSMT -/

namespace Lsmt

variable {sectors dataSectors : ℕ}

/-- What `lsmt_rw::Replay` skips. -/
def padding (m : SegmentMapping) : Bool := decide (m.offset = kInvalidOffset)

theorem judge_skip_iff (m : SegmentMapping) : rules.judge sectors dataSectors m = .skip ↔ padding m = true := by
  simp only [rules, judge, padding, decide_eq_true_iff]
  constructor
  · intro h
    split_ifs at h with h1
    exact h1
  · intro h
    rw [if_pos h]

theorem judge_reject_iff {m : SegmentMapping} (hlen : m.length ≤ kMaxLength) :
    rules.judge sectors dataSectors m ≠ .reject ↔ padding m = true ∨ Replay.Within sectors dataSectors m := by
  simp only [rules, judge, padding, decide_eq_true_iff]
  by_cases h1 : m.offset = kInvalidOffset
  · rw [if_pos h1]
    exact iff_of_true (by rintro ⟨⟩) (.inl h1)
  · rw [if_neg h1]
    by_cases h2 : m.length = 0 ∨ sectors ≤ m.offset ∨ sectors - m.offset < m.length
    · rw [if_pos h2]
      refine iff_of_false (fun h => h rfl) fun h => ?_
      have hw := h.resolve_left h1
      have hpos := hw.length_pos
      have hstop := hw.stop_le
      simp only [stop] at hstop
      omega
    · rw [if_neg h2]
      split_ifs with h3
      · refine iff_of_false (fun h => h rfl) fun h => ?_
        have := (h.resolve_left h1).backed h3.1
        omega
      · refine iff_of_true (by rintro ⟨⟩) (.inr ⟨by omega, hlen, by simp only [stop]; omega, fun hz => ?_⟩)
        have := not_and.mp h3 hz
        omega

theorem trim_eq (a b : ℕ) (s : SegmentMapping) : cut.trim a b s = trim a b s := by
  by_cases hmeet : s.stop ≤ a ∨ b ≤ s.offset
  · exact (if_pos hmeet).trans (if_pos hmeet).symm
  · refine (if_neg hmeet).trans (Eq.trans ?_ (if_neg hmeet).symm)
    have hlo : s.offset + (b - s.offset) = b := by omega
    have hlen : s.length - (b - s.offset) = s.stop - b := by
      simp only [stop] at *
      omega
    have hright : s.dropHead (b - s.offset) = cut.right b s := by
      simp only [cut, dropHead, hlo, hlen]
    rw [hright]
    rfl

/-- The loop over the tree, in the words of the record-wise replay. -/
theorem append_eq {older : List SegmentMapping} {m : SegmentMapping} (n : ℕ) (hpast : Past sectors older)
    (hd : dataSectors ≤ kMaxMoffset) (hlen : m.length ≤ kMaxLength) :
    Replay.append ⟨sectors, dataSectors, n, history cut older⟩ m =
      if kMaxLogRecords ≤ n then none
      else Replay.record rules ⟨sectors, dataSectors, n + 1, history cut older⟩ m := by
  obtain ⟨htidy, -⟩ := lookup_history cut_lawful hpast.proper hpast.sane
  unfold Replay.append Replay.record rules judge
  dsimp only
  by_cases h0 : kMaxLogRecords ≤ n
  · rw [if_pos h0, if_pos h0]
  rw [if_neg h0, if_neg h0]
  by_cases h1 : m.offset = kInvalidOffset
  · rw [if_pos h1, if_pos h1]
  rw [if_neg h1, if_neg h1]
  by_cases h2 : m.length = 0 ∨ sectors ≤ m.offset ∨ sectors - m.offset < m.length
  · rw [if_pos h2, if_pos h2]
  rw [if_neg h2, if_neg h2]
  by_cases h3 : m.zeroed = false ∧ (m.moffset < kDataStartSector ∨ dataSectors ≤ m.moffset ∨
      dataSectors - m.moffset < m.length)
  · rw [if_pos h3, if_pos h3]
  rw [if_neg h3, if_neg h3]
  have hpos : lo (Replay.normalize m) < hi (Replay.normalize m) := by
    show m.offset < m.offset + m.length
    omega
  have hlive : overwrite cut (Replay.normalize m) (history cut older) =
      placeSorted (eraseRange m.offset m.stop (history cut older)) (Replay.normalize m) := by
    rw [overwrite_eq cut_lawful htidy hpos]
    show putSorted ((history cut older).flatMap (cut.trim m.offset m.stop)) (Replay.normalize m) = _
    rw [funext (trim_eq m.offset m.stop)]
    rfl
  dsimp only
  rw [hlive]

/-- Record by record, with the limit checked each time. -/
theorem foldlM_append {older : List SegmentMapping} {n : ℕ} (hd : dataSectors ≤ kMaxMoffset)
    (hn : n ≤ kMaxLogRecords) (hpast : Past sectors older) {ms : List SegmentMapping}
    (hms : ∀ m ∈ ms, m.length ≤ kMaxLength) (r' : Replay) :
    ms.foldlM Replay.append ⟨sectors, dataSectors, n, history cut older⟩ = some r' ↔
      n + ms.length ≤ kMaxLogRecords ∧ Accepts rules sectors dataSectors older ms ∧
      r' = ⟨sectors, dataSectors, n + ms.length,
        history cut ((kept rules sectors dataSectors ms).reverse ++ older)⟩ := by
  induction ms generalizing older n with
  | nil => exact ⟨fun h => ⟨hn, trivial, (Option.some.inj h).symm⟩, fun h => congrArg some h.2.2.symm⟩
  | cons m ms ih =>
    have hm := hms m List.mem_cons_self
    have hms' : ∀ m ∈ ms, m.length ≤ kMaxLength := fun m hm => hms m (List.mem_cons_of_mem _ hm)
    have hone' : ∀ s ∈ [m], s.length ≤ kMaxLength := fun s hs => List.mem_singleton.mp hs ▸ hm
    have hone : ∀ mid, Replay.record rules ⟨sectors, dataSectors, n + 1, history cut older⟩ m = some mid ↔
        Accepts rules sectors dataSectors older [m] ∧ mid = ⟨sectors, dataSectors, n + 1,
          history cut ((kept rules sectors dataSectors [m]).reverse ++ older)⟩ := by
      intro mid
      refine Iff.trans ?_ (foldlM_record rules_lawful hd (n + 1) hpast hone' mid)
      show _ ↔ ((Replay.record rules ⟨sectors, dataSectors, n + 1, history cut older⟩ m).bind some) = some mid
      rw [Option.bind_fun_some]
    rw [List.foldlM_cons, append_eq n hpast hd hm, List.length_cons, ← List.singleton_append, accepts_append]
    have hkept : kept rules sectors dataSectors ([m] ++ ms) = kept rules sectors dataSectors [m] ++
        kept rules sectors dataSectors ms := List.filterMap_append
    rw [hkept, List.reverse_append, List.append_assoc]
    by_cases h0 : kMaxLogRecords ≤ n
    · rw [if_pos h0]
      exact iff_of_false nofun fun h => absurd h.1 (by omega)
    rw [if_neg h0]
    have hpast' := hpast.log rules_lawful hd hone'
    have hsum : n + 1 + ms.length = n + (ms.length + 1) := by omega
    constructor
    · intro h
      obtain ⟨mid, hmid, hrest⟩ := Option.bind_eq_some_iff.mp h
      obtain ⟨hacc, rfl⟩ := (hone mid).mp hmid
      obtain ⟨hcount, hacc', rfl⟩ := (ih (by omega) hpast' hms').mp hrest
      exact ⟨by omega, ⟨hacc, hacc'⟩, by rw [hsum]⟩
    · rintro ⟨hcount, ⟨hacc, hacc'⟩, rfl⟩
      refine Option.bind_eq_some_iff.mpr ⟨_, (hone _).mpr ⟨hacc, rfl⟩, ?_⟩
      exact (ih (by omega) hpast' hms').mpr ⟨by omega, hacc', by rw [hsum]⟩

end Lsmt

/-- A replay that starts is within the bounds of the record's fields. -/
theorem Replay.start_bounds {v n : ℕ} {r : Replay} (h : Replay.start v n = some r) :
    r = ⟨v / kAlignment, n / kAlignment, 0, []⟩ ∧ v / kAlignment ≤ kMaxOffset ∧ n / kAlignment < kMaxMoffset := by
  unfold Replay.start at h
  split_ifs at h with hbad
  exact ⟨(Option.some.inj h).symm, by omega, by omega⟩

end OverlayBD
