import OverlayBD.Lib.Transition
import OverlayBD.Source.LayerStoreRead

/-!
# Generation isolation of the layer store

After a failed digest check `restart_fresh` abandons the staging pair and starts another.  Fetches are
asynchronous and shared, the fill cuts many extents out of one read, and jobs wait in a queue; the generation
counter keeps what was fetched for an abandoned pair out of its successor.  This module interleaves readers
and populates (`Client`), the background fill (`Filler`) and the writer thread (`Scribe`) at the grain of
their atomic operations and lock-protected sections.

## The model

* `Fetched` — bytes a remote read returned, with the generations current when it was issued and when it
  returned.  The remote returns the blob's bytes.
* `Flight` — an entry of the in-flight map, shared by the client that starts a fetch and those that join it.
* `WriteJob`, `makeJob` — a queued write as `enqueue_write` builds it: a window of a shared buffer and the CRC
  of that window.
* `Persist` — what reached the pair: bytes stored in the sparse file, a record stored in the sidecar, an
  extent marked present.
* `GStep` — one step.  `enqueue_write` of a null result, which the source does not guard against, ends the
  process (`crashed`).

Which extents the fill's scan finds missing, whether the queue has room, when the layer counts as full and
what the digest check says are left open.

## What is proved

* `makeJob_sound` — a job cut out of a fetched run holds exactly its extent's bytes and their CRC.
* `Isolated.step` — the joint invariant of clients, fill, queue, writer and generation.
* `persisted_of_current_generation` — whatever reaches the pair was fetched, from issue to return, in the
  generation current when it is persisted, and an extent is marked present only with the blob's own bytes on
  disk and their CRC in its record.
-/

namespace OverlayBD.LayerStore

open Bytes Transition

/-- The remote blob behind a store. -/
structure Remote extends Store where
  /-- Content of the blob. -/
  blob : Buf

namespace Remote

variable (R : Remote)

/-- The bytes of extent `eid`. -/
def extentBytes (eid : ℕ) : List UInt8 := R.blob.slice (eid * R.extentSize) (R.extentLen eid)

/-- `extent_count_`. -/
def extentCount : ℕ := (R.size + R.extentSize - 1) / R.extentSize

end Remote

/-- What a remote read returned. -/
structure Fetched where
  /-- Position in the blob. -/
  off : ℕ
  len : ℕ
  bytes : Buf
  /-- The generation when the read was issued. -/
  issued : ℕ
  /-- The generation when the read returned. -/
  returned : ℕ

/-- The bytes `[off, off + len)` of the blob, read between two generations; the buffer holds no more. -/
def Remote.fetch (R : Remote) (off len issued returned : ℕ) : Fetched :=
  ⟨off, len, fun i => if i < len then R.blob (off + i) else 0, issued, returned⟩

/-- An in-flight fetch of one extent. -/
structure Flight where
  eid : ℕ
  /-- Sampled when the entry was created. -/
  generation : ℕ
  done : Bool
  /-- Set on success. -/
  data : Option Fetched

/-- A queued write. -/
structure WriteJob where
  eid : ℕ
  data : Fetched
  dataOffset : ℕ
  len : ℕ
  crc : UInt32

/-- A queued job. -/
inductive QJob where
  | write (job : WriteJob)
  | clear (eid : ℕ)

/-- The job `enqueue_write(eid, data, _, dataOffset)` queues. -/
def Remote.makeJob (R : Remote) (eid : ℕ) (data : Fetched) (dataOffset : ℕ) : WriteJob :=
  let elen := min R.extentSize (R.size - eid * R.extentSize)
  ⟨eid, data, dataOffset, elen, R.crc32Of (data.bytes.slice dataOffset elen)⟩

/-- A reader or a populate. -/
inductive Client where
  | idle
  /-- Created the in-flight entry. -/
  | starter (flight eid generation : ℕ)
  /-- The remote read is under way. -/
  | reading (flight eid generation issued : ℕ)
  /-- The read returned; its entry is retired next. -/
  | fetched (flight eid generation : ℕ) (data : Option Fetched)
  /-- Joined an entry. -/
  | waiting (flight : ℕ)
  /-- Has a `FetchResult` without error; `none` is the null result of a skipped prefetch. -/
  | holding (eid generation : ℕ) (data : Option Fetched)
  /-- Saw the store filling and the extent absent; `enqueue_write` comes next. -/
  | enqueuing (eid generation : ℕ) (data : Option Fetched)

/-- The background fill. -/
inductive Filler where
  | idle
  /-- Chose the run `[first, stop)` and sampled the generation. -/
  | sampled (first stop generation : ℕ)
  | reading (first stop generation issued : ℕ)
  /-- Cuts extent `next` of the run out of the buffer. -/
  | slicing (first stop generation next : ℕ) (data : Fetched)

/-- The writer thread. -/
inductive Scribe where
  | idle
  /-- `process_job`: the staging write comes next. -/
  | data (job : WriteJob)
  /-- The sidecar write comes next. -/
  | record (job : WriteJob)
  /-- The exchange that marks the extent present comes next. -/
  | mark (job : WriteJob)
  /-- The sidecar write of a clear job comes next. -/
  | clearing (eid : ℕ)
  /-- `complete_layer`. -/
  | completing
  /-- `restart_fresh`, generation moved, records below `k` cleared. -/
  | restarting (k : ℕ)
  /-- The replacement pair is built next. -/
  | rebuilding

/-- Something that reached the pair, with the generation current at that moment. -/
inductive Persist where
  /-- Bytes in the sparse file. -/
  | stored (data : Fetched) (now : ℕ)
  /-- A record in the sidecar. -/
  | recorded (data : Fetched) (now : ℕ)
  /-- Extent `eid` marked present with this CRC, its position in the sparse file holding these bytes. -/
  | marked (eid : ℕ) (onDisk : List UInt8) (crc : UInt32)

/-- The shared state, the threads, the pair and what reached it. -/
structure GState (r : ℕ) where
  generation : ℕ
  state : State
  /-- The in-memory records: the CRC of a present extent. -/
  records : ℕ → Option UInt32
  /-- `inflight_`: the entry of an extent. -/
  inflight : ℕ → Option ℕ
  /-- All entries ever created; joined ones outlive the map. -/
  flights : List Flight
  queue : List QJob
  clients : Fin r → Client
  filler : Filler
  scribe : Scribe
  /-- The sparse file. -/
  staging : Buf
  /-- The sidecar's records. -/
  sidecar : ℕ → Option UInt32
  persisted : List Persist
  crashed : Bool

variable {r : ℕ}

/-- Move one client. -/
def GState.setClient (s : GState r) (i : Fin r) (c : Client) : GState r :=
  { s with clients := Function.update s.clients i c }

/-- `enqueue_write` under the queue lock: `room` says whether the queue takes the bytes. -/
def GState.enqueueWrite (s : GState r) (job : WriteJob) (generation : ℕ) (room : Bool) : GState r :=
  if s.state = .filling ∧ generation = s.generation ∧ room = true then
    { s with queue := s.queue ++ [.write job] }
  else s

/-- The interleaved system over a remote blob. -/
inductive GStep (R : Remote) : GState r → GState r → Prop
  /-- `join_or_fetch` finds no entry and creates one. -/
  | start {s : GState r} {i : Fin r} {eid : ℕ} (hc : s.clients i = .idle) (he : eid < R.extentCount)
      (hn : s.inflight eid = none) :
      GStep R s
        { s.setClient i (.starter s.flights.length eid s.generation) with
          inflight := Function.update s.inflight eid (some s.flights.length)
          flights := s.flights ++ [⟨eid, s.generation, false, none⟩] }
  /-- `join_or_fetch` finds an entry. -/
  | join {s : GState r} {i : Fin r} {eid flight : ℕ} (hc : s.clients i = .idle)
      (hf : s.inflight eid = some flight) : GStep R s (s.setClient i (.waiting flight))
  /-- A prefetch that finds the extent present, or the store no longer filling, returns no data and no
  error. -/
  | skip {s : GState r} {i : Fin r} {eid : ℕ} (hc : s.clients i = .idle)
      (hs : s.state ≠ .filling ∨ s.records eid ≠ none) :
      GStep R s (s.setClient i (.holding eid s.generation none))
  /-- The starter issues the remote read. -/
  | issue {s : GState r} {i : Fin r} {flight eid generation : ℕ}
      (hc : s.clients i = .starter flight eid generation) :
      GStep R s (s.setClient i (.reading flight eid generation s.generation))
  /-- The remote read returns the extent. -/
  | returned {s : GState r} {i : Fin r} {flight eid generation issued : ℕ}
      (hc : s.clients i = .reading flight eid generation issued) :
      GStep R s (s.setClient i (.fetched flight eid generation
        (some (R.fetch (eid * R.extentSize) (R.extentLen eid) issued s.generation))))
  /-- The remote read fails or comes up short. -/
  | failed {s : GState r} {i : Fin r} {flight eid generation issued : ℕ}
      (hc : s.clients i = .reading flight eid generation issued) :
      GStep R s (s.setClient i (.fetched flight eid generation none))
  /-- The starter completes the entry and retires it; without data it reports the error. -/
  | publish {s : GState r} {i : Fin r} {flight eid generation : ℕ} {data : Option Fetched}
      (hc : s.clients i = .fetched flight eid generation data) :
      GStep R s
        { s.setClient i (if data.isSome then .holding eid generation data else .idle) with
          inflight := Function.update s.inflight eid none
          flights := s.flights.set flight ⟨eid, generation, true, data⟩ }
  /-- A joiner wakes once the entry is complete. -/
  | wake {s : GState r} {i : Fin r} {flight : ℕ} {f : Flight} (hc : s.clients i = .waiting flight)
      (hf : s.flights[flight]? = some f) (hd : f.done = true) :
      GStep R s (s.setClient i (if f.data.isSome then .holding f.eid f.generation f.data else .idle))
  /-- The client still sees the store filling and the extent absent. -/
  | wanted {s : GState r} {i : Fin r} {eid generation : ℕ} {data : Option Fetched}
      (hc : s.clients i = .holding eid generation data) (hs : s.state = .filling) (ha : s.records eid = none) :
      GStep R s (s.setClient i (.enqueuing eid generation data))
  /-- The client sees the extent present, or the store no longer filling. -/
  | unwanted {s : GState r} {i : Fin r} {eid generation : ℕ} {data : Option Fetched}
      (hc : s.clients i = .holding eid generation data) (hs : s.state ≠ .filling ∨ s.records eid ≠ none) :
      GStep R s (s.setClient i .idle)
  /-- `enqueue_write` of a fetched extent. -/
  | enqueue {s : GState r} {i : Fin r} {eid generation : ℕ} {data : Fetched} {room : Bool}
      (hc : s.clients i = .enqueuing eid generation (some data)) :
      GStep R s ((s.setClient i .idle).enqueueWrite (R.makeJob eid data 0) generation room)
  /-- `enqueue_write` of a null result reads through a null pointer. -/
  | enqueueNull {s : GState r} {i : Fin r} {eid generation : ℕ}
      (hc : s.clients i = .enqueuing eid generation none) : GStep R s { s with crashed := true }
  /-- A reader demotes an extent whose local bytes fail their CRC. -/
  | demote {s : GState r} {eid : ℕ} : GStep R s { s with records := Function.update s.records eid none }
  /-- A reader that demoted an extent queues its clear. -/
  | enqueueClear {s : GState r} {eid : ℕ} (hs : s.state = .filling) :
      GStep R s { s with queue := s.queue ++ [.clear eid] }
  /-- The fill chooses a run of missing extents and samples the generation. -/
  | scan {s : GState r} {first stop : ℕ} (hf : s.filler = .idle) (hs : s.state = .filling)
      (hrun : first < stop) (hstop : stop ≤ R.extentCount) :
      GStep R s { s with filler := .sampled first stop s.generation }
  | fillIssue {s : GState r} {first stop generation : ℕ} (hf : s.filler = .sampled first stop generation) :
      GStep R s { s with filler := .reading first stop generation s.generation }
  /-- The fill's read returns the whole run. -/
  | fillReturned {s : GState r} {first stop generation issued : ℕ}
      (hf : s.filler = .reading first stop generation issued) :
      GStep R s
        { s with
          filler := .slicing first stop generation first (R.fetch (first * R.extentSize)
            (min ((stop - first) * R.extentSize) (R.size - first * R.extentSize)) issued s.generation) }
  | fillFailed {s : GState r} {first stop generation issued : ℕ}
      (hf : s.filler = .reading first stop generation issued) : GStep R s { s with filler := .idle }
  /-- The next extent of the run became present meanwhile. -/
  | fillSkip {s : GState r} {first stop generation next : ℕ} {data : Fetched}
      (hf : s.filler = .slicing first stop generation next data) (hn : next < stop)
      (hp : s.records next ≠ none) :
      GStep R s { s with filler := .slicing first stop generation (next + 1) data }
  /-- The next extent of the run is cut out of the buffer and queued. -/
  | fillEnqueue {s : GState r} {first stop generation next : ℕ} {data : Fetched} {room : Bool}
      (hf : s.filler = .slicing first stop generation next data) (hn : next < stop) :
      GStep R s (GState.enqueueWrite { s with filler := .slicing first stop generation (next + 1) data }
        (R.makeJob next data (next * R.extentSize - first * R.extentSize)) generation room)
  /-- The run is used up, or the fill is stopped. -/
  | fillDone {s : GState r} {first stop generation next : ℕ} {data : Fetched}
      (hf : s.filler = .slicing first stop generation next data) : GStep R s { s with filler := .idle }
  /-- The writer takes a write job; outside filling it is dropped. -/
  | popWrite {s : GState r} {job : WriteJob} {q : List QJob} (hw : s.scribe = .idle)
      (hq : s.queue = .write job :: q) :
      GStep R s { s with queue := q, scribe := if s.state = .filling then .data job else .idle }
  | popClear {s : GState r} {eid : ℕ} {q : List QJob} (hw : s.scribe = .idle)
      (hq : s.queue = .clear eid :: q) :
      GStep R s { s with queue := q, scribe := if s.state = .filling then .clearing eid else .idle }
  /-- The staging write succeeds. -/
  | store {s : GState r} {job : WriteJob} (hw : s.scribe = .data job) :
      GStep R s
        { s with
          scribe := .record job
          staging := s.staging.put (job.eid * R.extentSize) job.len fun i => job.data.bytes (job.dataOffset + i)
          persisted := s.persisted ++ [.stored job.data s.generation] }
  /-- The staging write fails after `n` bytes; a fatal error ends in bypass. -/
  | storeFail {s : GState r} {job : WriteJob} {n : ℕ} {bypass : Bool} (hw : s.scribe = .data job)
      (hn : n ≤ job.len) :
      GStep R s
        { s with
          scribe := .idle
          state := if bypass then .bypass else s.state
          staging := s.staging.put (job.eid * R.extentSize) n fun i => job.data.bytes (job.dataOffset + i)
          persisted := s.persisted ++ [.stored job.data s.generation] }
  /-- The sidecar write succeeds. -/
  | record {s : GState r} {job : WriteJob} (hw : s.scribe = .record job) :
      GStep R s
        { s with
          scribe := .mark job
          sidecar := Function.update s.sidecar job.eid (some job.crc)
          persisted := s.persisted ++ [.recorded job.data s.generation] }
  | recordFail {s : GState r} {job : WriteJob} {bypass : Bool} (hw : s.scribe = .record job) :
      GStep R s { s with scribe := .idle, state := if bypass then .bypass else s.state }
  /-- The exchange marks the extent present; if it was the last one `complete_layer` follows. -/
  | mark {s : GState r} {job : WriteJob} {full : Bool} (hw : s.scribe = .mark job) :
      GStep R s
        { s with
          scribe := if full then .completing else .idle
          records := Function.update s.records job.eid (some job.crc)
          persisted := s.persisted ++
            [.marked job.eid (s.staging.slice (job.eid * R.extentSize) (R.extentLen job.eid)) job.crc] }
  /-- A clear job zeroes the sidecar record and the record in memory, or fails. -/
  | clear {s : GState r} {eid : ℕ} (hw : s.scribe = .clearing eid) :
      GStep R s
        { s with
          scribe := .idle
          sidecar := Function.update s.sidecar eid none
          records := Function.update s.records eid none }
  | clearFail {s : GState r} {eid : ℕ} {bypass : Bool} (hw : s.scribe = .clearing eid) :
      GStep R s { s with scribe := .idle, state := if bypass then .bypass else s.state }
  /-- The digest agrees. -/
  | verified {s : GState r} (hw : s.scribe = .completing) :
      GStep R s { s with scribe := .idle, state := .complete }
  /-- Completion ends in bypass. -/
  | abandon {s : GState r} (hw : s.scribe = .completing) :
      GStep R s { s with scribe := .idle, state := .bypass }
  /-- The digest differs: the generation moves. -/
  | restart {s : GState r} (hw : s.scribe = .completing) :
      GStep R s { s with scribe := .restarting 0, generation := s.generation + 1 }
  /-- One record is cleared. -/
  | restartClear {s : GState r} {k : ℕ} (hw : s.scribe = .restarting k) (hk : k < R.extentCount) :
      GStep R s { s with scribe := .restarting (k + 1), records := Function.update s.records k none }
  /-- The queue is emptied under its lock. -/
  | restartQueue {s : GState r} (hw : s.scribe = .restarting R.extentCount) :
      GStep R s { s with scribe := .rebuilding, queue := [] }
  /-- The replacement pair is published. -/
  | restartPair {s : GState r} (hw : s.scribe = .rebuilding) :
      GStep R s { s with scribe := .idle, staging := fun _ => 0, sidecar := fun _ => none }
  /-- The replacement pair cannot be created. -/
  | restartFail {s : GState r} (hw : s.scribe = .rebuilding) :
      GStep R s { s with scribe := .idle, state := .bypass }

/-- Steps end with the process. -/
def GNext (R : Remote) (s s' : GState r) : Prop := s.crashed = false ∧ GStep R s s'

/-! ### What a job holds -/

/-- The job carries exactly its extent's bytes and their CRC. -/
structure WriteJob.Sound (R : Remote) (job : WriteJob) : Prop where
  len : job.len = R.extentLen job.eid
  bytes : job.data.bytes.slice job.dataOffset job.len = R.extentBytes job.eid
  crc : job.crc = R.crc32Of (R.extentBytes job.eid)

theorem Remote.min_extentSize (R : Remote) (eid : ℕ) :
    min R.extentSize (R.size - eid * R.extentSize) = R.extentLen eid := by
  unfold Store.extentLen
  omega

/-- **A job cut out of a fetched range is sound** as long as the extent lies inside the range. -/
theorem Remote.makeJob_sound (R : Remote) {eid off len issued returned dataOffset : ℕ}
    (hoff : off + dataOffset = eid * R.extentSize) (hlen : dataOffset + R.extentLen eid ≤ len) :
    (R.makeJob eid (R.fetch off len issued returned) dataOffset).Sound R := by
  have hbytes : (R.fetch off len issued returned).bytes.slice dataOffset (R.extentLen eid) =
      R.extentBytes eid := by
    refine Buf.slice_congr fun i hi => ?_
    simp only [Remote.fetch]
    rw [if_pos (by omega), ← hoff, Nat.add_assoc]
  rw [← R.min_extentSize eid] at hbytes
  exact ⟨R.min_extentSize eid, hbytes, congrArg R.crc32Of hbytes⟩

theorem Remote.mul_lt_size (R : Remote) {eid : ℕ} (h : eid < R.extentCount) :
    eid * R.extentSize < R.size := by
  have hpos := R.extentSize_pos
  have h1 : (eid + 1) * R.extentSize ≤ R.size + R.extentSize - 1 :=
    (Nat.le_div_iff_mul_le hpos).mp h
  rw [Nat.add_mul, Nat.one_mul] at h1
  omega

/-- The window of extent `next` in a run `[first, stop)` lies inside what the fill reads for the run. -/
theorem Remote.window_le (R : Remote) {first next stop : ℕ} (h₁ : first ≤ next) (h₂ : next < stop)
    (h₃ : stop ≤ R.extentCount) :
    first * R.extentSize + (next * R.extentSize - first * R.extentSize) = next * R.extentSize ∧
      next * R.extentSize - first * R.extentSize + R.extentLen next ≤
        min ((stop - first) * R.extentSize) (R.size - first * R.extentSize) := by
  have ha : first * R.extentSize ≤ next * R.extentSize := Nat.mul_le_mul_right _ h₁
  have hb : (next + 1) * R.extentSize ≤ stop * R.extentSize := Nat.mul_le_mul_right _ h₂
  have hc := R.mul_lt_size (lt_of_lt_of_le h₂ h₃)
  rw [Nat.add_mul, Nat.one_mul] at hb
  rw [Nat.sub_mul, ← R.min_extentSize next]
  omega

/-! ### The joint invariant -/

/-- Read from the blob between the generation `lo` and the present one. -/
def Fetched.Between (d : Fetched) (lo hi : ℕ) : Prop := lo ≤ d.issued ∧ d.issued ≤ d.returned ∧ d.returned ≤ hi

theorem Fetched.Between.mono {d : Fetched} {lo hi hi' : ℕ} (h : d.Between lo hi) (hle : hi ≤ hi') :
    d.Between lo hi' :=
  ⟨h.1, h.2.1, h.2.2.trans hle⟩

/-- The extent's bytes, fetched no earlier than `generation`. -/
def HoldsExtent (R : Remote) (g eid generation : ℕ) (data : Option Fetched) : Prop :=
  ∀ d, data = some d → (∃ issued returned, d = R.fetch (eid * R.extentSize) (R.extentLen eid) issued returned) ∧
    d.Between generation g

theorem HoldsExtent.mono {R : Remote} {g g' eid generation : ℕ} {data : Option Fetched}
    (h : HoldsExtent R g eid generation data) (hle : g ≤ g') : HoldsExtent R g' eid generation data :=
  fun d hd => ⟨(h d hd).1, (h d hd).2.mono hle⟩

theorem holdsExtent_none (R : Remote) (g eid generation : ℕ) : HoldsExtent R g eid generation none := by
  intro d hd
  cases hd

/-- What a client knows, the generation being `g`. -/
def Client.Ok (R : Remote) (g : ℕ) : Client → Prop
  | .idle => True
  | .starter _ _ generation => generation ≤ g
  | .reading _ _ generation issued => generation ≤ issued ∧ issued ≤ g
  | .fetched _ eid generation data => HoldsExtent R g eid generation data
  | .waiting _ => True
  | .holding eid generation data => HoldsExtent R g eid generation data
  | .enqueuing eid generation data => HoldsExtent R g eid generation data

/-- What the fill knows. -/
def Filler.Ok (R : Remote) (g : ℕ) : Filler → Prop
  | .idle => True
  | .sampled _ stop generation => stop ≤ R.extentCount ∧ generation ≤ g
  | .reading _ stop generation issued => stop ≤ R.extentCount ∧ generation ≤ issued ∧ issued ≤ g
  | .slicing first stop generation next data => stop ≤ R.extentCount ∧ first ≤ next ∧
      (∃ issued returned, data = R.fetch (first * R.extentSize)
        (min ((stop - first) * R.extentSize) (R.size - first * R.extentSize)) issued returned) ∧
      data.Between generation g

/-- Fetched, from issue to return, in generation `g`. -/
def Fetched.In (d : Fetched) (g : ℕ) : Prop := d.issued = g ∧ d.returned = g

/-- What the writer holds. -/
def Scribe.Ok (R : Remote) (g : ℕ) (staging : Buf) : Scribe → Prop
  | .data job => job.Sound R ∧ job.data.In g
  | .record job => job.Sound R ∧ job.data.In g ∧
      staging.slice (job.eid * R.extentSize) (R.extentLen job.eid) = R.extentBytes job.eid
  | .mark job => job.Sound R ∧ job.data.In g ∧
      staging.slice (job.eid * R.extentSize) (R.extentLen job.eid) = R.extentBytes job.eid
  | _ => True

/-- The generation has moved but the queue may still hold jobs of the one before. -/
def Scribe.Moving : Scribe → Prop
  | .restarting _ => True
  | _ => False

/-- What may reach the pair. -/
def Persist.Ok (R : Remote) : Persist → Prop
  | .stored data now => data.In now
  | .recorded data now => data.In now
  | .marked eid onDisk crc => onDisk = R.extentBytes eid ∧ crc = R.crc32Of (R.extentBytes eid)

/-- **The joint invariant.** -/
structure Isolated (R : Remote) (s : GState r) : Prop where
  clients : ∀ i, (s.clients i).Ok R s.generation
  flights : ∀ f ∈ s.flights, HoldsExtent R s.generation f.eid f.generation f.data
  filler : s.filler.Ok R s.generation
  queue : ∀ job, .write job ∈ s.queue → job.Sound R ∧ (¬ s.scribe.Moving → job.data.In s.generation)
  scribe : s.scribe.Ok R s.generation s.staging
  persisted : ∀ p ∈ s.persisted, p.Ok R

section Keep

variable {R : Remote} {s : GState r}

/-- A client moved on. -/
theorem Isolated.setClient (h : Isolated R s) {i : Fin r} {c : Client} (hc : c.Ok R s.generation) :
    Isolated R (s.setClient i c) := by
  refine { h with clients := fun j => ?_ }
  rcases eq_or_ne j i with rfl | hj
  · exact (congrArg (Client.Ok R s.generation) (Function.update_self _ _ _)).mpr hc
  · exact (congrArg (Client.Ok R s.generation) (Function.update_of_ne hj _ _)).mpr (h.clients j)

/-- **A job enters the queue only in its own generation.** -/
theorem Isolated.enqueueWrite (h : Isolated R s) {job : WriteJob} {generation : ℕ} {room : Bool}
    (hsound : job.Sound R) (hb : job.data.Between generation s.generation) :
    Isolated R (s.enqueueWrite job generation room) := by
  unfold GState.enqueueWrite
  split_ifs with hg
  · refine { h with queue := fun j hj => ?_ }
    rcases List.mem_append.mp hj with hj | hj
    · exact h.queue j hj
    · obtain rfl : j = job := by simpa using hj
      obtain ⟨h1, h2, h3⟩ := hb
      have hgen := hg.2.1
      exact ⟨hsound, fun _ => show j.data.In s.generation from ⟨by omega, by omega⟩⟩
  · exact h

/-- The writer moved between places where it holds no job, the queue losing at most jobs. -/
theorem Isolated.setScribe (h : Isolated R s) {s' : GState r} (hg : s'.generation = s.generation)
    (hc : s'.clients = s.clients) (hf : s'.flights = s.flights) (hfl : s'.filler = s.filler)
    (hp : s'.persisted = s.persisted) (hq : ∀ job, .write job ∈ s'.queue → .write job ∈ s.queue)
    (hm : s.scribe.Moving → s'.queue = []) (hs : s'.scribe.Ok R s.generation s'.staging) : Isolated R s' where
  clients := by rw [hc, hg]; exact h.clients
  flights := by rw [hf, hg]; exact h.flights
  filler := by rw [hfl, hg]; exact h.filler
  queue := by
    intro job hj
    rw [hg]
    refine ⟨(h.queue job (hq job hj)).1, fun _ => ?_⟩
    refine (h.queue job (hq job hj)).2 fun hmov => ?_
    rw [hm hmov] at hj
    cases hj
  scribe := by rw [hg]; exact hs
  persisted := by rw [hp]; exact h.persisted

/-- The writer, holding a job of the present generation, persisted something of it. -/
theorem Isolated.persist (h : Isolated R s) {s' : GState r} {p : Persist} (hidle : ¬ s.scribe.Moving)
    (hg : s'.generation = s.generation) (hc : s'.clients = s.clients) (hf : s'.flights = s.flights)
    (hfl : s'.filler = s.filler) (hq : s'.queue = s.queue) (hp : s'.persisted = s.persisted ++ [p])
    (hok : p.Ok R) (hs : s'.scribe.Ok R s.generation s'.staging) : Isolated R s' where
  clients := by rw [hc, hg]; exact h.clients
  flights := by rw [hf, hg]; exact h.flights
  filler := by rw [hfl, hg]; exact h.filler
  queue := by
    intro job hj
    rw [hq] at hj
    rw [hg]
    exact ⟨(h.queue job hj).1, fun _ => (h.queue job hj).2 hidle⟩
  scribe := by rw [hg]; exact hs
  persisted := by
    intro q hq
    rw [hp] at hq
    rcases List.mem_append.mp hq with hq | hq
    · exact h.persisted q hq
    · obtain rfl := List.mem_singleton.mp hq
      exact hok

end Keep

/-- **The step lemma.** -/
theorem Isolated.step {R : Remote} {s s' : GState r} (h : Isolated R s) (hs : GStep R s s') :
    Isolated R s' := by
  cases hs with
  | @start i eid hc he hn =>
    have h' := h.setClient (i := i) (c := .starter s.flights.length eid s.generation) le_rfl
    refine { h' with flights := fun f hf => ?_ }
    rcases List.mem_append.mp hf with hf | hf
    · exact h.flights f hf
    · obtain rfl : f = ⟨eid, s.generation, false, none⟩ := by simpa using hf
      exact holdsExtent_none _ _ _ _
  | @join i eid flight hc hf => exact h.setClient trivial
  | @skip i eid hc hs => exact h.setClient (holdsExtent_none _ _ _ _)
  | @issue i flight eid generation hc =>
    have hi := h.clients i
    rw [hc] at hi
    exact h.setClient ⟨hi, le_rfl⟩
  | @returned i flight eid generation issued hc =>
    have hi := h.clients i
    rw [hc] at hi
    refine h.setClient ?_
    intro d hd
    obtain rfl := Option.some.inj hd
    exact ⟨⟨_, _, rfl⟩, hi.1, hi.2, le_rfl⟩
  | @failed i flight eid generation issued hc => exact h.setClient (holdsExtent_none _ _ _ _)
  | @publish i flight eid generation data hc =>
    have hi : HoldsExtent R s.generation eid generation data := by
      have := h.clients i
      rwa [hc] at this
    have h' : Isolated R (s.setClient i (if data.isSome then .holding eid generation data else .idle)) := by
      refine h.setClient ?_
      split_ifs
      · exact hi
      · exact trivial
    refine { h' with flights := fun f hf => ?_ }
    rcases List.mem_or_eq_of_mem_set hf with hf | rfl
    · exact h.flights f hf
    · exact hi
  | @wake i flight f hc hf hd =>
    refine h.setClient ?_
    split_ifs
    · exact h.flights f (List.mem_of_getElem? hf)
    · exact trivial
  | @wanted i eid generation data hc hs ha =>
    have hi := h.clients i
    rw [hc] at hi
    exact h.setClient hi
  | @unwanted i eid generation data hc hs => exact h.setClient trivial
  | @enqueue i eid generation data room hc =>
    have hi := h.clients i
    rw [hc] at hi
    obtain ⟨⟨issued, returned, rfl⟩, hb⟩ := hi data rfl
    exact (h.setClient (i := i) (c := .idle) trivial).enqueueWrite
      (R.makeJob_sound (Nat.add_zero _) (by rw [Nat.zero_add])) hb
  | @enqueueNull i eid generation hc => exact { h with }
  | @demote eid => exact { h with }
  | @enqueueClear eid hs =>
    refine { h with queue := fun job hj => h.queue job ?_ }
    simpa using hj
  | @scan first stop hf hs hrun hstop => exact { h with filler := ⟨hstop, le_rfl⟩ }
  | @fillIssue first stop generation hf =>
    have hi := h.filler
    rw [hf] at hi
    exact { h with filler := ⟨hi.1, hi.2, le_rfl⟩ }
  | @fillReturned first stop generation issued hf =>
    have hi := h.filler
    rw [hf] at hi
    exact { h with filler := ⟨hi.1, le_rfl, ⟨_, _, rfl⟩, hi.2.1, hi.2.2, le_rfl⟩ }
  | @fillFailed first stop generation issued hf => exact { h with filler := trivial }
  | @fillSkip first stop generation next data hf hn hp =>
    have hi := h.filler
    rw [hf] at hi
    exact { h with filler := ⟨hi.1, hi.2.1.trans (Nat.le_succ _), hi.2.2⟩ }
  | @fillEnqueue first stop generation next data room hf hn =>
    have hi := h.filler
    rw [hf] at hi
    obtain ⟨hstop, hle, ⟨issued, returned, rfl⟩, hb⟩ := hi
    obtain ⟨hoff, hlen⟩ := R.window_le hle hn hstop
    have h' : Isolated R { s with filler := .slicing first stop generation (next + 1) (R.fetch
        (first * R.extentSize) (min ((stop - first) * R.extentSize) (R.size - first * R.extentSize))
        issued returned) } :=
      { h with filler := ⟨hstop, hle.trans (Nat.le_succ _), ⟨_, _, rfl⟩, hb⟩ }
    exact h'.enqueueWrite (R.makeJob_sound hoff hlen) hb
  | @fillDone first stop generation next data hf => exact { h with filler := trivial }
  | @popWrite job q hw hq =>
    have hmem : QJob.write job ∈ s.queue := by rw [hq]; exact List.mem_cons_self
    have hidle : ¬ s.scribe.Moving := by rw [hw]; exact id
    refine h.setScribe rfl rfl rfl rfl rfl (fun j hj => ?_) (fun hm => absurd hm hidle) ?_
    · rw [hq]
      exact List.mem_cons_of_mem _ hj
    · split_ifs
      · exact ⟨(h.queue job hmem).1, (h.queue job hmem).2 hidle⟩
      · exact trivial
  | @popClear eid q hw hq =>
    have hidle : ¬ s.scribe.Moving := by rw [hw]; exact id
    refine h.setScribe rfl rfl rfl rfl rfl (fun j hj => ?_) (fun hm => absurd hm hidle) ?_
    · rw [hq]
      exact List.mem_cons_of_mem _ hj
    · split_ifs <;> exact trivial
  | @store job hw =>
    obtain ⟨hsound, hin⟩ : job.Sound R ∧ job.data.In s.generation := by
      have := h.scribe
      rwa [hw] at this
    have hidle : ¬ s.scribe.Moving := by rw [hw]; exact id
    have hdisk : (s.staging.put (job.eid * R.extentSize) job.len fun i =>
        job.data.bytes (job.dataOffset + i)).slice (job.eid * R.extentSize) (R.extentLen job.eid) =
        R.extentBytes job.eid := by
      rw [← hsound.bytes, ← hsound.len]
      refine Buf.slice_congr fun i hi => ?_
      rw [Buf.put_of_mem (by omega), Nat.add_sub_cancel_left]
    exact h.persist hidle rfl rfl rfl rfl rfl rfl hin ⟨hsound, hin, hdisk⟩
  | @storeFail job n bypass hw hn =>
    obtain ⟨-, hin⟩ : job.Sound R ∧ job.data.In s.generation := by
      have := h.scribe
      rwa [hw] at this
    have hidle : ¬ s.scribe.Moving := by rw [hw]; exact id
    exact h.persist hidle rfl rfl rfl rfl rfl rfl hin trivial
  | @record job hw =>
    have hjob : job.Sound R ∧ job.data.In s.generation ∧
        s.staging.slice (job.eid * R.extentSize) (R.extentLen job.eid) = R.extentBytes job.eid := by
      have := h.scribe
      rwa [hw] at this
    have hidle : ¬ s.scribe.Moving := by rw [hw]; exact id
    exact h.persist hidle rfl rfl rfl rfl rfl rfl hjob.2.1 hjob
  | @recordFail job bypass hw =>
    have hidle : ¬ s.scribe.Moving := by rw [hw]; exact id
    exact h.setScribe rfl rfl rfl rfl rfl (fun _ hj => hj) (fun hm => absurd hm hidle) trivial
  | @mark job full hw =>
    obtain ⟨hsound, -, hdisk⟩ : job.Sound R ∧ job.data.In s.generation ∧
        s.staging.slice (job.eid * R.extentSize) (R.extentLen job.eid) = R.extentBytes job.eid := by
      have := h.scribe
      rwa [hw] at this
    have hidle : ¬ s.scribe.Moving := by rw [hw]; exact id
    refine h.persist hidle rfl rfl rfl rfl rfl rfl ⟨hdisk, hsound.crc⟩ ?_
    cases full <;> exact trivial
  | @clear eid hw =>
    have hidle : ¬ s.scribe.Moving := by rw [hw]; exact id
    exact h.setScribe rfl rfl rfl rfl rfl (fun _ hj => hj) (fun hm => absurd hm hidle) trivial
  | @clearFail eid bypass hw =>
    have hidle : ¬ s.scribe.Moving := by rw [hw]; exact id
    exact h.setScribe rfl rfl rfl rfl rfl (fun _ hj => hj) (fun hm => absurd hm hidle) trivial
  | verified hw =>
    have hidle : ¬ s.scribe.Moving := by rw [hw]; exact id
    exact h.setScribe rfl rfl rfl rfl rfl (fun _ hj => hj) (fun hm => absurd hm hidle) trivial
  | abandon hw =>
    have hidle : ¬ s.scribe.Moving := by rw [hw]; exact id
    exact h.setScribe rfl rfl rfl rfl rfl (fun _ hj => hj) (fun hm => absurd hm hidle) trivial
  | restart hw =>
    -- the generation moves: everything sampled before stays behind it
    have hle : s.generation ≤ s.generation + 1 := Nat.le_succ _
    refine ⟨fun i => ?_, fun f hf => (h.flights f hf).mono hle, ?_, fun job hj => ?_, trivial, h.persisted⟩
    · have hi := h.clients i
      change (s.clients i).Ok R (s.generation + 1)
      cases hci : s.clients i <;> rw [hci] at hi
      · exact trivial
      · exact hi.trans hle
      · exact ⟨hi.1, hi.2.trans hle⟩
      · exact hi.mono hle
      · exact trivial
      · exact hi.mono hle
      · exact hi.mono hle
    · have hi := h.filler
      change s.filler.Ok R (s.generation + 1)
      cases hfi : s.filler <;> rw [hfi] at hi
      · exact trivial
      · exact ⟨hi.1, hi.2.trans hle⟩
      · exact ⟨hi.1, hi.2.1, hi.2.2.trans hle⟩
      · exact ⟨hi.1, hi.2.1, hi.2.2.1, hi.2.2.2.mono hle⟩
    · exact ⟨(h.queue job hj).1, fun hm => absurd trivial hm⟩
  | @restartClear k hw hk =>
    refine { h with queue := fun job hj => ⟨(h.queue job hj).1, fun hm => absurd trivial hm⟩, scribe := trivial }
  | restartQueue hw =>
    exact h.setScribe rfl rfl rfl rfl rfl (fun _ hj => by cases hj) (fun _ => rfl) trivial
  | restartPair hw =>
    have hidle : ¬ s.scribe.Moving := by rw [hw]; exact id
    exact h.setScribe rfl rfl rfl rfl rfl (fun _ hj => hj) (fun hm => absurd hm hidle) trivial
  | restartFail hw =>
    have hidle : ¬ s.scribe.Moving := by rw [hw]; exact id
    exact h.setScribe rfl rfl rfl rfl rfl (fun _ hj => hj) (fun hm => absurd hm hidle) trivial

/-! ### Whole runs -/

/-- A store just opened: nothing is in flight or queued and nothing has been persisted yet.  The pair may
hold extents of an earlier process, and the writer may find them complete. -/
structure GState.Opened (s : GState r) : Prop where
  clients : ∀ i, s.clients i = .idle
  flights : s.flights = []
  filler : s.filler = .idle
  queue : s.queue = []
  scribe : s.scribe = .idle ∨ s.scribe = .completing
  persisted : s.persisted = []

theorem GState.Opened.isolated {s : GState r} (h : s.Opened) (R : Remote) : Isolated R s where
  clients := by
    intro i
    rw [h.clients i]
    exact trivial
  flights := by
    intro f hf
    rw [h.flights] at hf
    cases hf
  filler := by
    rw [h.filler]
    exact trivial
  queue := by
    intro job hj
    rw [h.queue] at hj
    cases hj
  scribe := by
    rcases h.scribe with hs | hs <;> rw [hs] <;> exact trivial
  persisted := by
    intro p hp
    rw [h.persisted] at hp
    cases hp

/-- **Generation isolation.**  In every run of any number of readers and populates, the fill and the writer,
restarts included, the bytes that reach the sparse file or stand behind a sidecar record were fetched, from
issue to return, in the generation current when they are persisted; and when an extent is marked present its
position in the sparse file holds the blob's own bytes and the CRC stored for it is theirs. -/
theorem persisted_of_current_generation (R : Remote) {s₀ s : GState r} (h₀ : s₀.Opened)
    (hrun : Relation.ReflTransGen (GNext R) s₀ s) : ∀ p ∈ s.persisted, p.Ok R :=
  (invariant hrun (h₀.isolated R) fun _ _ hi hs => hi.step hs.2).persisted

/-- A blob of one extent of four bytes. -/
def tinyRemote : Remote where
  size := 4
  extentSize := 4
  extentSize_pos := twoExtents.extentSize_pos
  crc32Of := fun l => l.length.toUInt32
  blob := fun i => i.toUInt8

/-- Its store, freshly created, with one reader. -/
def freshStore : GState 1 where
  generation := 0
  state := .filling
  records := fun _ => none
  inflight := fun _ => none
  flights := []
  queue := []
  clients := fun _ => .idle
  filler := .idle
  scribe := .idle
  staging := fun _ => 0
  sidecar := fun _ => none
  persisted := []
  crashed := false

/-- The reader fetches the extent; its bytes and its record are persisted and it is marked present. -/
theorem persisted_of_first_fetch :
    ∃ s, Relation.ReflTransGen (GNext tinyRemote) freshStore s ∧ s.persisted.length = 3 ∧
      ∀ p ∈ s.persisted, p.Ok tinyRemote := by
  have h₁ : Relation.ReflTransGen (GNext tinyRemote) freshStore _ :=
    .single ⟨rfl, .start (i := 0) (R := tinyRemote) (s := freshStore) rfl (show 0 < tinyRemote.extentCount by decide) rfl⟩
  have h₂ := h₁.tail ⟨rfl, .issue (i := 0) rfl⟩
  have h₃ := h₂.tail ⟨rfl, .returned (i := 0) rfl⟩
  have h₄ := h₃.tail ⟨rfl, .publish (i := 0) rfl⟩
  have h₅ := h₄.tail ⟨rfl, .wanted (i := 0) rfl rfl rfl⟩
  have h₆ := h₅.tail ⟨rfl, @GStep.enqueue 1 tinyRemote _ 0 _ _ _ true rfl⟩
  have h₇ := h₆.tail ⟨rfl, .popWrite rfl rfl⟩
  have h₈ := h₇.tail ⟨rfl, .store rfl⟩
  have h₉ := h₈.tail ⟨rfl, .record rfl⟩
  have h₁₀ := h₉.tail ⟨rfl, @GStep.mark 1 tinyRemote _ _ true rfl⟩
  have hopen : freshStore.Opened := ⟨fun _ => rfl, rfl, rfl, rfl, .inl rfl, rfl⟩
  exact ⟨_, h₁₀, rfl, persisted_of_current_generation tinyRemote hopen h₁₀⟩

end OverlayBD.LayerStore
