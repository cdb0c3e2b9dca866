import OverlayBD.Format.Trace

/-!
# Recording a trace (`image/trace_record.cpp`)

`TraceRecorder::record` cuts a read into chunks of 1 MiB and queues them: a chunk that continues the last record of the queue
is merged into it, one that finds the queue full is dropped and counted.  Stopping drains the queue into a `TraceWriter`.

## The model

* `Read` — one call of `record`; `memory` says where `push_back` finds memory.
* `Recorder.record`, `recordLoop` — the call and its loop.
* `Recorder.finalize` — `finalize_locked_state` up to the blob.

## What is proved

* `recordLoop_spec` — one call splits its range into parts, each queued in order or counted as dropped.
* `recorded_faithful` — the blob of any sequence of reads parses to records that cover what was queued, nothing is rejected.
-/

namespace OverlayBD.Tracing

open Bytes

/-! ### The recorder -/

/-- `State`. -/
inductive State
  | idle
  | recording
  | finalizing
deriving DecidableEq, Repr

/-- `INT64_MAX`. -/
def kInt64Max : ℕ := 2 ^ 63 - 1

/-- `std::deque::max_size` for records of 24 bytes: a longer queue makes `push_back` throw. -/
def kMaxDeque : ℕ := kInt64Max / 24

/-- A call of `TraceRecorder::record`. -/
structure Read where
  layer : UInt32
  offset : UInt64
  count : UInt64
  /-- Whether `push_back` gets memory when so many bytes are still to be recorded. -/
  memory : ℕ → Bool

/-- The recorder: its queue and its drop counter. -/
structure Recorder where
  maxPending : ℕ
  state : State
  pending : List TraceRecord
  dropped : ℕ

/-- The queue with a chunk merged into its last record, where that is allowed. -/
def coalesce (pending : List TraceRecord) (layer offset chunk : ℕ) : Option (List TraceRecord) :=
  match pending.getLast? with
  | some tail =>
    if tail.layerIndex = layer ∧ (toU64 tail.offset + tail.count) % 2 ^ 64 = offset ∧
        tail.count + chunk ≤ kMaxRecordCount then
      some (pending.dropLast ++ [{ tail with count := tail.count + chunk }])
    else none
  | none => none

/-- The loop of `record`, under the lock. -/
def recordLoop (memory : ℕ → Bool) (layer offset count : ℕ) (r : Recorder) : Recorder :=
  if count = 0 then r
  else
    let chunk := min count kMaxRecordCount
    match coalesce r.pending layer offset chunk with
    | some pending => recordLoop memory layer (offset + chunk) (count - chunk) { r with pending := pending }
    | none =>
      if r.maxPending ≤ r.pending.length then
        recordLoop memory layer (offset + chunk) (count - chunk) { r with dropped := r.dropped + 1 }
      else if memory count = false ∨ kMaxDeque ≤ r.pending.length then
        -- `push_back` throws: the rest of the read is one dropped record
        { r with dropped := r.dropped + 1 }
      else
        recordLoop memory layer (offset + chunk) (count - chunk)
          { r with pending := r.pending ++ [⟨kOpRead, layer, chunk, toI64 offset⟩] }
termination_by count
decreasing_by
  all_goals
    have : 0 < kMaxRecordCount := by decide
    omega

/-- `TraceRecorder::record`. -/
def Recorder.record (r : Recorder) (read : Read) : Recorder :=
  if r.state ≠ .recording then r
  else if read.count.toNat = 0 then r
  else if kInt64Max < read.offset.toNat ∨ kInt64Max - read.offset.toNat < read.count.toNat then
    { r with dropped := r.dropped + 1 }
  else recordLoop read.memory read.layer.toNat read.offset.toNat read.count.toNat r

/-- What `start` makes of the queue. -/
def Recorder.started (maxPending : ℕ) : Recorder := ⟨maxPending, .recording, [], 0⟩

/-- The loop that drains the queue: the writer, and the counter with the records it rejected. -/
def drain : List TraceRecord → TraceWriter → ℕ → TraceWriter × ℕ
  | [], w, dropped => (w, dropped)
  | rec :: rest, w, dropped =>
    match w.append rec with
    | some w => drain rest w dropped
    | none => drain rest w (dropped + 1)

/-- What `finalize_locked_state` writes and reports. -/
structure Finalized where
  blob : List UInt8
  records : ℕ
  dropped : ℕ

/-- `finalize_locked_state`, up to the write of the file. -/
def Recorder.finalize (r : Recorder) : Finalized :=
  let (writer, dropped) := drain r.pending {} r.dropped
  ⟨writer.finalize, writer.records, dropped⟩

/-! ### What was recorded -/

/-- A range of a layer. -/
structure Range where
  layer : ℕ
  offset : ℕ
  count : ℕ
deriving DecidableEq, Repr

/-- The bytes of a range, in order. -/
def Range.bytes (r : Range) : List (ℕ × ℕ) := (List.range' r.offset r.count).map (Prod.mk r.layer)

/-- The range of a record. -/
def TraceRecord.range (rec : TraceRecord) : Range := ⟨rec.layerIndex, rec.offset.toNat, rec.count⟩

/-- The range of a call. -/
def Read.range (read : Read) : Range := ⟨read.layer.toNat, read.offset.toNat, read.count.toNat⟩

/-- A range the wire can hold. -/
def Range.Representable (r : Range) : Prop := r.offset + r.count ≤ kInt64Max

/-- The chunks of a range. -/
def chunks (layer offset count : ℕ) : List Range :=
  if count = 0 then []
  else
    let chunk := min count kMaxRecordCount
    ⟨layer, offset, chunk⟩ :: chunks layer (offset + chunk) (count - chunk)
termination_by count
decreasing_by
  have : 0 < kMaxRecordCount := by decide
  omega

/-- A part of a read, and whether it was kept. -/
structure Part where
  range : Range
  kept : Bool

/-- **How a call is accounted for**: its parts make up its range, and each is one of its chunks — apart from a range the wire
cannot hold and from the rest of a read for which memory ran out, which are dropped as one. -/
structure Accounts (maxPending : ℕ) (read : Read) (parts : List Part) : Prop where
  tiles : parts.flatMap (fun u => u.range.bytes) = read.range.bytes
  whole : ∀ u ∈ parts, u.range ∈ chunks read.layer.toNat read.offset.toNat read.count.toNat ∨
    (u.kept = false ∧ u.range.offset + u.range.count = read.range.offset + read.range.count ∧
      (¬ read.range.Representable ∨ read.memory u.range.count = false ∨ kMaxDeque < maxPending))

/-- The bytes that parts kept. -/
def keptBytes (parts : List Part) : List (ℕ × ℕ) := (parts.filter Part.kept).flatMap fun u => u.range.bytes

/-- The parts that were dropped. -/
def lost (parts : List Part) : ℕ := (parts.filter fun u => !u.kept).length

/-- The bytes that records cover. -/
def covered (recs : List TraceRecord) : List (ℕ × ℕ) := recs.flatMap fun rec => rec.range.bytes

/-- What the queue always holds. -/
structure Queued (r : Recorder) : Prop where
  few : r.pending.length ≤ kMaxDeque
  valid : ∀ rec ∈ r.pending, Conforming rec ∧ rec.layerIndex < 2 ^ 32 ∧ rec.offset + rec.count ≤ kInt64Max

variable {r : Recorder} {memory : ℕ → Bool} {layer offset count chunk : ℕ} {pending : List TraceRecord}

theorem bytes_append (layer offset a b : ℕ) :
    Range.bytes ⟨layer, offset, a⟩ ++ Range.bytes ⟨layer, offset + a, b⟩ = Range.bytes ⟨layer, offset, a + b⟩ := by
  simp only [Range.bytes, ← List.map_append]
  rw [List.range'_append_1]

theorem covered_append (l l' : List TraceRecord) : covered (l ++ l') = covered l ++ covered l' := by
  simp [covered]

/-- Merging a chunk adds its bytes. -/
theorem coalesce_spec (h : coalesce r.pending layer offset chunk = some pending) (hq : Queued r)
    (hend : offset + chunk ≤ kInt64Max) :
    covered pending = covered r.pending ++ Range.bytes ⟨layer, offset, chunk⟩ ∧ Queued { r with pending := pending } := by
  have hmax : kInt64Max = 2 ^ 63 - 1 := rfl
  unfold coalesce at h
  split at h
  · rename_i tail htail
    split_ifs at h with hjoin
    obtain ⟨hlayer, hoff, hcap⟩ := hjoin
    obtain rfl := Option.some.inj h
    have hsplit := List.dropLast_append_getLast? tail htail
    obtain ⟨⟨hop, hone, hle, hpos⟩, hlt, hstop⟩ := hq.valid tail (List.mem_of_getLast? htail)
    have hu : toU64 tail.offset = tail.offset.toNat := by
      unfold toU64
      omega
    have hoff' : tail.offset.toNat + tail.count = offset := by
      rw [hu] at hoff
      omega
    refine ⟨?_, ⟨?_, fun rec hrec => ?_⟩⟩
    · conv_rhs => rw [← hsplit]
      rw [covered_append, covered_append, List.append_assoc]
      congr 1
      simp only [covered, List.flatMap_cons, List.flatMap_nil, List.append_nil, TraceRecord.range]
      rw [hlayer, ← hoff', bytes_append]
    · have hfew := hq.few
      rw [← hsplit] at hfew
      simpa using hfew
    · rcases List.mem_append.mp hrec with hrec | hrec
      · exact hq.valid rec ((List.dropLast_sublist _).subset hrec)
      · obtain rfl := List.mem_singleton.mp hrec
        refine ⟨⟨hop, by simp; omega, hcap, hpos⟩, hlt, ?_⟩
        simp only [Nat.cast_add]
        omega
  · exact nomatch h

/-- The loop keeps bound and state. -/
theorem recordLoop_frame : (recordLoop memory layer offset count r).maxPending = r.maxPending ∧
    (recordLoop memory layer offset count r).state = r.state := by
  fun_induction recordLoop memory layer offset count r with
  | case1 => exact ⟨rfl, rfl⟩
  | case2 _ _ _ _ _ _ _ ih => exact ih
  | case3 _ _ _ _ _ _ _ ih => exact ih
  | case4 => exact ⟨rfl, rfl⟩
  | case5 _ _ _ _ _ _ _ _ ih => exact ih

/-- A range split into parts, the kept ones behind what the queue covered, the others counted. -/
structure Recorded (memory : ℕ → Bool) (layer offset count : ℕ) (r r' : Recorder) (parts : List Part) : Prop where
  tiles : parts.flatMap (fun u => u.range.bytes) = Range.bytes ⟨layer, offset, count⟩
  whole : ∀ u ∈ parts, u.range ∈ chunks layer offset count ∨ (u.kept = false ∧
    u.range.offset + u.range.count = offset + count ∧ (memory u.range.count = false ∨ kMaxDeque < r.maxPending))
  pending : covered r'.pending = covered r.pending ++ keptBytes parts
  dropped : r'.dropped = r.dropped + lost parts
  queued : Queued r'

/-- The first chunk is put in front of the parts of the rest. -/
theorem Recorded.cons {mid r' : Recorder} {parts : List Part}
    (h : Recorded memory layer (offset + chunk) (count - chunk) mid r' parts) (kept : Bool) (hc : count ≠ 0)
    (hchunk : chunk = min count kMaxRecordCount) (hmax : mid.maxPending = r.maxPending)
    (hcov : covered mid.pending = covered r.pending ++ if kept then Range.bytes ⟨layer, offset, chunk⟩ else [])
    (hdrop : mid.dropped = r.dropped + if kept then 0 else 1) :
    Recorded memory layer offset count r r' (⟨⟨layer, offset, chunk⟩, kept⟩ :: parts) := by
  have hle : chunk ≤ count := hchunk ▸ Nat.min_le_left _ _
  have hchunks : chunks layer offset count = ⟨layer, offset, chunk⟩ :: chunks layer (offset + chunk) (count - chunk) := by
    rw [chunks, if_neg hc, hchunk]
  refine ⟨?_, fun u hu => ?_, ?_, ?_, h.queued⟩
  · rw [List.flatMap_cons, h.tiles, bytes_append, Nat.add_sub_cancel' hle]
  · rw [hchunks]
    rcases List.mem_cons.mp hu with rfl | hu
    · exact .inl List.mem_cons_self
    · rcases h.whole u hu with hin | ⟨hk, hstop, hwhy⟩
      · exact .inl (List.mem_cons_of_mem _ hin)
      · exact .inr ⟨hk, by omega, hmax ▸ hwhy⟩
  · rw [h.pending, hcov, List.append_assoc]
    cases kept <;> simp [keptBytes]
  · rw [h.dropped, hdrop]
    cases kept <;> simp [lost] <;> omega

/-- **One call**: its range falls into parts, the kept ones go behind what the queue covered, the others are counted. -/
theorem recordLoop_spec (hq : Queued r) (hlayer : layer < 2 ^ 32) (hend : offset + count ≤ kInt64Max) :
    ∃ parts, Recorded memory layer offset count r (recordLoop memory layer offset count r) parts := by
  have hcap : 0 < kMaxRecordCount := by decide
  fun_induction recordLoop memory layer offset count r with
  | case1 offset r =>
    exact ⟨[], by simp [Range.bytes], by simp, by simp [keptBytes], by simp [lost], hq⟩
  | case2 offset count r hc chunk pending hco ih =>
    -- the chunk goes into the last record
    obtain ⟨hcov, hq'⟩ := coalesce_spec hco hq (by omega)
    obtain ⟨parts, hparts⟩ := ih hq' (by omega)
    exact ⟨_, hparts.cons true hc rfl rfl hcov rfl⟩
  | case3 offset count r hc chunk hco hfull ih =>
    -- the queue is full
    obtain ⟨parts, hparts⟩ := ih ⟨hq.few, hq.valid⟩ (by omega)
    exact ⟨_, hparts.cons false hc rfl rfl (by simp) rfl⟩
  | case4 offset count r hc chunk hco hroom hfail =>
    -- no memory: the rest is one part
    refine ⟨[⟨⟨layer, offset, count⟩, false⟩], by simp, fun u hu => .inr ?_, by simp [keptBytes], by simp [lost],
      ⟨hq.few, hq.valid⟩⟩
    obtain rfl := List.mem_singleton.mp hu
    exact ⟨rfl, rfl, hfail.imp id fun hdeque => by omega⟩
  | case5 offset count r hc chunk hco hroom hmem ih =>
    have hmax : kInt64Max = 2 ^ 63 - 1 := rfl
    have hoff : toI64 offset = offset := by
      rw [toI64, if_pos (by omega)]
    have hq' : Queued { r with pending := r.pending ++ [⟨kOpRead, layer, chunk, toI64 offset⟩] } := by
      refine ⟨by simp; omega, fun rec hrec => ?_⟩
      rcases List.mem_append.mp hrec with hrec | hrec
      · exact hq.valid rec hrec
      · obtain rfl := List.mem_singleton.mp hrec
        refine ⟨⟨rfl, by simp; omega, by simp; omega, by simp [hoff]⟩, hlayer, ?_⟩
        simp only [hoff]
        omega
    obtain ⟨parts, hparts⟩ := ih hq' (by omega)
    refine ⟨_, hparts.cons true hc rfl rfl ?_ rfl⟩
    rw [covered_append, if_pos rfl]
    simp [covered, TraceRecord.range, hoff]

/-! ### A recording -/

variable {read : Read}

/-- A call while recording. -/
theorem record_spec (hq : Queued r) (hs : r.state = .recording) (read : Read) :
    ∃ parts, Accounts r.maxPending read parts ∧ covered (r.record read).pending = covered r.pending ++ keptBytes parts ∧
      (r.record read).dropped = r.dropped + lost parts ∧ Queued (r.record read) ∧
      (r.record read).maxPending = r.maxPending ∧ (r.record read).state = .recording := by
  unfold Recorder.record
  rw [if_neg (by simp [hs])]
  split_ifs with hzero hrange
  · refine ⟨[], ⟨?_, by simp⟩, by simp [keptBytes], by simp [lost], hq, rfl, hs⟩
    simp [Read.range, hzero, Range.bytes]
  · -- a range that an `int64_t` cannot hold
    refine ⟨[⟨read.range, false⟩], ⟨by simp, fun u hu => .inr ?_⟩, by simp [keptBytes], by simp [lost],
      ⟨hq.few, hq.valid⟩, rfl, hs⟩
    obtain rfl := List.mem_singleton.mp hu
    refine ⟨rfl, rfl, .inl ?_⟩
    simp only [Range.Representable, Read.range]
    omega
  · obtain ⟨parts, hparts⟩ := @recordLoop_spec r read.memory _ read.offset.toNat read.count.toNat hq read.layer.toNat_lt
      (by omega)
    refine ⟨parts, ⟨hparts.tiles, fun u hu => (hparts.whole u hu).imp id ?_⟩, hparts.pending, hparts.dropped, hparts.queued,
      recordLoop_frame.1, recordLoop_frame.2.trans hs⟩
    rintro ⟨hk, hstop, hwhy⟩
    exact ⟨hk, hstop, .inr hwhy⟩

/-- The calls of a recording, one after the other. -/
theorem records_spec (hq : Queued r) (hs : r.state = .recording) (reads : List Read) :
    ∃ parts : List (List Part), List.Forall₂ (Accounts r.maxPending) reads parts ∧
      covered (reads.foldl Recorder.record r).pending = covered r.pending ++ keptBytes parts.flatten ∧
      (reads.foldl Recorder.record r).dropped = r.dropped + lost parts.flatten ∧
      Queued (reads.foldl Recorder.record r) := by
  induction reads generalizing r with
  | nil => exact ⟨[], .nil, by simp [keptBytes], by simp [lost], hq⟩
  | cons read reads ih =>
    obtain ⟨first, hacc, hcov, hdrop, hq', hmax, hs'⟩ := record_spec hq hs read
    obtain ⟨parts, hall, hcovs, hdrops, hq''⟩ := ih hq' hs'
    rw [hmax] at hall
    refine ⟨first :: parts, .cons hacc hall, ?_, ?_, hq''⟩
    · rw [List.foldl_cons, hcovs, hcov]
      simp [keptBytes]
    · rw [List.foldl_cons, hdrops, hdrop]
      simp [lost, Nat.add_assoc]

/-- Draining conforming records rejects none. -/
theorem drain_spec {recs done : List TraceRecord} {w : TraceWriter} (hw : Wrote w done) (hr : ∀ rec ∈ recs, Conforming rec)
    (dropped : ℕ) : Wrote (drain recs w dropped).1 (done ++ recs) ∧ (drain recs w dropped).2 = dropped := by
  induction recs generalizing w done with
  | nil =>
    rw [List.append_nil]
    exact ⟨hw, rfl⟩
  | cons rec recs ih =>
    obtain ⟨w', ha⟩ := Option.isSome_iff_exists.mp (append_isSome.mpr (hr rec List.mem_cons_self))
    rw [drain, ha]
    have := ih (hw.append ha) fun rec hrec => hr rec (List.mem_cons_of_mem _ hrec)
    rwa [List.append_assoc] at this

/-- **A recorded trace is faithful**: whatever reads are recorded, in whatever queue, the blob parses; its records are reads
of 1 byte to 1 MiB that cover, in order, the parts of the reads that were kept; the others are counted one by one; and the
writer rejects nothing that was queued. -/
theorem recorded_faithful (maxPending : ℕ) (reads : List Read) :
    let r := reads.foldl Recorder.record (Recorder.started maxPending)
    ∃ (parts : List (List Part)) (recs : List TraceRecord), List.Forall₂ (Accounts maxPending) reads parts ∧
      parse r.finalize.blob = .ok recs ∧
      (∀ rec ∈ recs, rec.op = kOpRead ∧ 1 ≤ rec.count ∧ rec.count ≤ kMaxRecordCount) ∧
      covered recs = keptBytes parts.flatten ∧ r.finalize.dropped = lost parts.flatten ∧
      r.finalize.records = recs.length ∧ ∀ rec ∈ r.pending, ∀ w : TraceWriter, (w.append rec).isSome := by
  intro r
  obtain ⟨parts, hacc, hcov, hdrop, hq⟩ := @records_spec (Recorder.started maxPending)
    ⟨by simp [Recorder.started], by simp [Recorder.started]⟩ rfl reads
  obtain ⟨hwrote, hdropped⟩ := drain_spec wrote_new (fun rec hrec => (hq.valid rec hrec).1) r.dropped
  rw [List.nil_append] at hwrote
  have hmax : kInt64Max = 2 ^ 63 - 1 := rfl
  have hsize : r.pending.length * kRecordSize < 2 ^ 64 := by
    have hfew : r.pending.length ≤ (2 ^ 63 - 1) / 24 := hq.few
    show r.pending.length * 24 < 2 ^ 64
    omega
  have hfits : ∀ rec ∈ r.pending, rec.Fits := by
    intro rec hrec
    obtain ⟨⟨-, hone, hle, hpos⟩, hlayer, hstop⟩ := hq.valid rec hrec
    have hcap : kMaxRecordCount = 1048576 := rfl
    exact ⟨hlayer, by omega, hpos, by omega⟩
  refine ⟨parts, r.pending, hacc, parse_finalize hwrote hfits hsize, fun rec hrec => ?_, ?_, ?_, hwrote.records,
    fun rec hrec w => append_isSome.mpr (hq.valid rec hrec).1⟩
  · obtain ⟨hop, hone, hle, -⟩ := (hq.valid rec hrec).1
    exact ⟨hop, hone, hle⟩
  · rw [hcov]
    simp [Recorder.started, covered]
  · show (drain r.pending {} r.dropped).2 = _
    rw [hdropped, hdrop]
    simp [Recorder.started]

end OverlayBD.Tracing
