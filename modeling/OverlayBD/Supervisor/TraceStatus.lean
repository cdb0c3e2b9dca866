import OverlayBD.Image.TraceOwner

/-!
# The trace status of a device (`supervisor/daemon.cpp`, `supervisor/device_control.cpp`)

The supervisor shows for each device what it knows of its trace recording.  It learns it from lines the device writes: the
replies to `trace_start` and `trace_stop`, written by the control coroutine, and the expiry event, written by the timer of the
recording.  The lines arrive in the order they were written.

## The model

* `System` — the supervisor's command slot and status, the two directions of the channel, and in the device the control
  coroutine, the recorder and the timer of the latest recording.  A start waits for the timer before it and a stop waits for
  the timer it meets, so no other timer is alive.  The number of a recording on lines and status is a ghost.
* `Act`, `step` — commands, timeouts, the routing of one line, and the steps of control coroutine and timer.
* `Timely` — the expiry event does not overtake the reply to its start, the file of a stopped recording is written, and a
  `trace_stop` does not time out.

## What is proved

* `InOrder.step` — lines and status follow the recordings in order.
* `status_follows` — in every timely run a recording that is finalised, and whose lines have all been processed, is not shown
  as recording; and in every run the expiry of a recording leaves the status of a later one alone.
* `status_stuck` — a stop whose file cannot be written, and an expiry in front of the reply, leave "recording" for good.
-/

namespace OverlayBD.TraceStatus

open Transition Tracing

/-! ### Lines and status -/

/-- The two commands. -/
inductive Request
  | start (path : Path) (duration : ℕ)
  | stop
deriving DecidableEq, Repr

/-- Is it `trace_stop`? -/
def Request.isStop : Request → Bool
  | .start _ _ => false
  | .stop => true

/-- What the device writes. -/
inductive Line
  /-- The reply to `trace_start`: path and duration, or the error. -/
  | startReply (seq : ℕ) (reply : Except String (Path × ℕ)) (recording : ℕ)
  /-- The reply to `trace_stop`. -/
  | stopReply (seq : ℕ) (res : FinalizeResult) (recording : ℕ)
  /-- The event `expired`. -/
  | event (res : FinalizeResult) (recording : ℕ)

namespace Line

/-- Ghost: the latest recording when the line was written. -/
def recording : Line → ℕ
  | startReply _ _ n => n
  | stopReply _ _ n => n
  | event _ n => n

/-- A recording has begun. -/
def begins : Line → Bool
  | startReply _ (.ok _) _ => true
  | _ => false

/-- A recording is over. -/
def ends : Line → Bool
  | event _ _ => true
  | stopReply _ res _ => res.ok
  | _ => false

/-- The command it answers, and whether that was a `trace_stop`. -/
def answers : Line → Option (ℕ × Bool)
  | startReply seq _ _ => some (seq, false)
  | stopReply seq _ _ => some (seq, true)
  | event _ _ => none

end Line

/-- The field `trace` of an entry. -/
structure Status where
  /-- `recording`, or `stopped`. -/
  active : Bool
  path : Path
  duration : Option ℕ := none
  reason : String := ""
  size : ℕ := 0
  records : ℕ := 0
  dropped : ℕ := 0
  error : Option String := none
  /-- Ghost: the recording it is about. -/
  recording : ℕ

/-! ### The system -/

/-- The control coroutine of the device. -/
inductive Control
  | idle
  /-- In `recorder->start`. -/
  | starting (seq : ℕ) (path : Path) (duration : ℕ)
  /-- In front of the write of the reply. -/
  | startReply (seq : ℕ) (reply : Except String (Path × ℕ))
  /-- In `recorder->stop`, in front of its first section. -/
  | stopping (seq : ℕ)
  /-- It finalises the recording. -/
  | owning (seq : ℕ)
  /-- It waits for the finalisation of the timer. -/
  | joining (seq : ℕ)
  /-- With its result, it waits for the timer to return. -/
  | draining (seq : ℕ) (res : FinalizeResult)

namespace Control

/-- The command at work, and whether it is a `trace_stop`. -/
def command : Control → Option (ℕ × Bool)
  | idle => none
  | starting seq _ _ => some (seq, false)
  | startReply seq _ => some (seq, false)
  | stopping seq => some (seq, true)
  | owning seq => some (seq, true)
  | joining seq => some (seq, true)
  | draining seq _ => some (seq, true)

/-- A recording has begun and the reply is not written. -/
def unacknowledged : Control → Bool
  | startReply _ (.ok _) => true
  | _ => false

/-- A result is there and the reply is not written. -/
def unanswered : Control → Bool
  | draining _ _ => true
  | _ => false

end Control

/-- The timer of the latest recording. -/
inductive Timer
  | absent
  | asleep
  /-- State and generation were right; in front of `stop_impl`. -/
  | checked
  | owning
  | joining
  /-- In front of the write of the event. -/
  | report (res : FinalizeResult)
  | done

/-- The frame of the timer is gone. -/
def Timer.returned : Timer → Bool
  | absent => true
  | done => true
  | _ => false

/-- The event is not written. -/
def Timer.reporting : Timer → Bool
  | report _ => true
  | _ => false

/-- Supervisor and device. -/
structure System where
  /-- `entry->active_command`: its number and request. -/
  active : Option (ℕ × Request)
  cmdSeq : ℕ
  trace : Option Status
  commands : List (ℕ × Request)
  lines : List Line
  control : Control
  /-- `state_` of the recorder. -/
  phase : Tracing.State
  timer : Timer
  last : Option FinalizeResult
  /-- Ghost: how many recordings have begun. -/
  started : ℕ

namespace System

variable (s : System)

/-- A device without recordings. -/
def init : System := ⟨none, 0, none, [], [], .idle, .idle, .absent, none, 0⟩

/-! ### The supervisor -/

/-- `forward_device_command`, where it is admitted. -/
def send (r : Request) : Option System :=
  match s.active with
  | some _ => none
  | none =>
    some { s with
      active := some (s.cmdSeq + 1, r)
      cmdSeq := s.cmdSeq + 1
      commands := s.commands ++ [(s.cmdSeq + 1, r)] }

/-- What an expiry event makes of the status. -/
def onEvent (res : FinalizeResult) (n : ℕ) : Option Status :=
  match s.trace with
  | some t =>
    if t.active then
      some
        { active := false
          path := res.path
          reason := "expired"
          size := res.size
          records := res.records
          dropped := res.dropped
          error := if res.ok then none else some res.error
          recording := n }
    else s.trace
  | none => none

/-- What an accepted reply makes of the status. -/
def onReply (r : Request) : Line → Option Status
  | .startReply _ (.ok (path, duration)) n =>
    if r.isStop then s.trace else some { active := true, path := path, duration := some duration, recording := n }
  | .stopReply _ res n =>
    if r.isStop && res.ok then
      let expired := s.trace.any fun t => !t.active && t.reason == "expired"
      some
        { active := false
          path := res.path
          reason := if expired then "expired" else "stopped"
          size := res.size
          records := res.records
          dropped := res.dropped
          recording := n }
    else s.trace
  | _ => s.trace

/-- `route_device_reply`; `late` is a reply after its deadline. -/
def route (late : Bool) : Option System :=
  match s.lines with
  | [] => none
  | l :: rest =>
    match l with
    | .event res n => some { s with lines := rest, trace := s.onEvent res n }
    | l =>
      match s.active with
      | none => some { s with lines := rest }
      | some (seq, r) =>
        if l.answers.map Prod.fst = some seq then
          if late then some { s with lines := rest, active := none }
          else some { s with lines := rest, active := none, trace := s.onReply r l }
        else some { s with lines := rest }

/-! ### The device -/

/-- The control coroutine reads a command. -/
def receive : Option System :=
  match s.control, s.commands with
  | .idle, (seq, .start path duration) :: rest => some { s with control := .starting seq path duration, commands := rest }
  | .idle, (seq, .stop) :: rest => some { s with control := .stopping seq, commands := rest }
  | _, _ => none

/-- `recorder->start`; `refused` is an error of its own. -/
def startRecorder (refused : Option String) : Option System :=
  match s.control with
  | .starting seq path duration =>
    if s.phase ≠ .idle then some { s with control := .startReply seq (.error "trace recording already in progress") }
    else if s.timer.returned then
      match refused with
      | some error => some { s with control := .startReply seq (.error error) }
      | none =>
        some { s with
          control := .startReply seq (.ok (path, duration))
          phase := .recording
          timer := .asleep
          last := none
          started := s.started + 1 }
    else none
  | _ => none

/-- The reply to `trace_start` is written. -/
def writeStart : Option System :=
  match s.control with
  | .startReply seq reply =>
    some { s with control := .idle, lines := s.lines ++ [.startReply seq reply s.started] }
  | _ => none

/-- The sleep of the timer is over, and it checks the recorder. -/
def expire : Option System :=
  match s.timer with
  | .asleep => some { s with timer := if s.phase = .recording then .checked else .done }
  | _ => none

/-- The first section of `stop_impl`, run by the timer. -/
def timerStop : Option System :=
  match s.timer with
  | .checked =>
    match s.phase with
    | .recording => some { s with timer := .owning, phase := .finalizing }
    | .finalizing => some { s with timer := .joining }
    | .idle => some { s with timer := .done }
  | _ => none

/-- The timer publishes what it finalised. -/
def timerPublish (res : FinalizeResult) : Option System :=
  match s.timer with
  | .owning => some { s with timer := .report res, phase := .idle, last := some res }
  | _ => none

/-- The timer has joined another finalisation, which is over. -/
def timerJoin : Option System :=
  match s.timer with
  | .joining => if s.phase = .finalizing then none else some { s with timer := .done }
  | _ => none

/-- `on_expire`: the event is written. -/
def report : Option System :=
  match s.timer with
  | .report res => some { s with timer := .done, lines := s.lines ++ [.event res s.started] }
  | _ => none

/-- What a stop returns without a recording to finalise. -/
def cached : FinalizeResult := s.last.getD { error := "no trace recording in progress" }

/-- The first section of `stop_impl`, run by the control coroutine. -/
def stopRecorder : Option System :=
  match s.control with
  | .stopping seq =>
    match s.phase with
    | .recording => some { s with control := .owning seq, phase := .finalizing }
    | .finalizing => some { s with control := .joining seq }
    | .idle => some { s with control := .draining seq s.cached }
  | _ => none

/-- The control coroutine publishes what it finalised. -/
def stopPublish (res : FinalizeResult) : Option System :=
  match s.control with
  | .owning seq => some { s with control := .draining seq res, phase := .idle, last := some res }
  | _ => none

/-- The finalisation of the timer is over. -/
def stopJoin : Option System :=
  match s.control with
  | .joining seq => if s.phase = .finalizing then none else some { s with control := .draining seq s.cached }
  | _ => none

/-- The timer is drained and the reply to `trace_stop` is written. -/
def writeStop : Option System :=
  match s.control with
  | .draining seq res =>
    if s.timer.returned then some { s with control := .idle, lines := s.lines ++ [.stopReply seq res s.started] }
    else none
  | _ => none

end System

/-! ### Runs -/

/-- What can happen. -/
inductive Act
  | send (r : Request)
  | timeout
  | route (late : Bool)
  | receive
  | startRecorder (refused : Option String)
  | writeStart
  | expire
  | timerStop
  | timerPublish (res : FinalizeResult)
  | timerJoin
  | report
  | stopRecorder
  | stopPublish (res : FinalizeResult)
  | stopJoin
  | writeStop

/-- One step. -/
def step (s : System) : Act → Option System
  | .send r => s.send r
  | .timeout => some { s with active := none }
  | .route late => s.route late
  | .receive => s.receive
  | .startRecorder refused => s.startRecorder refused
  | .writeStart => s.writeStart
  | .expire => s.expire
  | .timerStop => s.timerStop
  | .timerPublish res => s.timerPublish res
  | .timerJoin => s.timerJoin
  | .report => s.report
  | .stopRecorder => s.stopRecorder
  | .stopPublish res => s.stopPublish res
  | .stopJoin => s.stopJoin
  | .writeStop => s.writeStop

/-- The step as a relation. -/
abbrev Steps (s : System) (a : Act) (s' : System) : Prop := step s a = some s'

/-- A `trace_stop` waits for its reply. -/
def System.awaitsStop (s : System) : Bool := s.active.any fun op => op.2.isStop

/-- **Timely**: an expiry event is written behind the reply to its start, a stop writes its file, and a `trace_stop` gets its
reply in time. -/
def Timely (s : System) : Act → Prop
  | .report => s.control.unacknowledged = false
  | .stopPublish res => res.ok = true
  | .timeout => s.awaitsStop = false
  | .route late => late = true → s.awaitsStop = false
  | _ => True

instance (s : System) (a : Act) : Decidable (Timely s a) := by
  cases a <;> unfold Timely <;> infer_instance

/-- The device has finalised the recording. -/
def System.Finalised (s : System) (n : ℕ) : Prop := 1 ≤ n ∧ n ≤ s.started ∧ ¬ (n = s.started ∧ s.phase ≠ .idle)

/-- Every line about the recording has been written and processed. -/
def System.Processed (s : System) (n : ℕ) : Prop :=
  (∀ l ∈ s.lines, l.recording ≠ n) ∧
    (n = s.started → s.timer.reporting = false ∧ s.control.unanswered = false ∧ s.control.unacknowledged = false)

/-- The recording is shown as recording. -/
def System.Shows (s : System) (n : ℕ) : Prop := ∃ t, s.trace = some t ∧ t.active = true ∧ t.recording = n

/-! ### What a step does -/

variable {s s' : System} {a : Act} {n : ℕ}

/-- The steps with what they find and what they leave. -/
inductive Move : System → Act → System → Prop
  | send {s : System} {r : Request} (hactive : s.active = none) :
      Move s (.send r) { s with
        active := some (s.cmdSeq + 1, r), cmdSeq := s.cmdSeq + 1, commands := s.commands ++ [(s.cmdSeq + 1, r)] }
  | timeout {s : System} : Move s .timeout { s with active := none }
  | event {s : System} {late : Bool} {rest : List Line} {res : FinalizeResult} {n : ℕ}
      (hlines : s.lines = .event res n :: rest) :
      Move s (.route late) { s with lines := rest, trace := s.onEvent res n }
  /-- A reply nobody waits for. -/
  | stale {s : System} {late : Bool} {rest : List Line} {l : Line} {seq : ℕ} {stop : Bool} (hlines : s.lines = l :: rest)
      (hl : l.answers = some (seq, stop)) (hstale : ∀ r, s.active ≠ some (seq, r)) :
      Move s (.route late) { s with lines := rest }
  | late {s : System} {rest : List Line} {l : Line} {seq : ℕ} {stop : Bool} {r : Request} (hlines : s.lines = l :: rest)
      (hl : l.answers = some (seq, stop)) (hactive : s.active = some (seq, r)) :
      Move s (.route true) { s with lines := rest, active := none }
  | accepted {s : System} {rest : List Line} {l : Line} {seq : ℕ} {stop : Bool} {r : Request} (hlines : s.lines = l :: rest)
      (hl : l.answers = some (seq, stop)) (hactive : s.active = some (seq, r)) :
      Move s (.route false) { s with lines := rest, active := none, trace := s.onReply r l }
  | receiveStart {s : System} {seq : ℕ} {path : Path} {duration : ℕ} {rest : List (ℕ × Request)} (hidle : s.control = .idle)
      (hcommands : s.commands = (seq, .start path duration) :: rest) :
      Move s .receive { s with control := .starting seq path duration, commands := rest }
  | receiveStop {s : System} {seq : ℕ} {rest : List (ℕ × Request)} (hidle : s.control = .idle)
      (hcommands : s.commands = (seq, .stop) :: rest) :
      Move s .receive { s with control := .stopping seq, commands := rest }
  | refuse {s : System} {refused : Option String} {seq : ℕ} {path : Path} {duration : ℕ} {error : String}
      (hcontrol : s.control = .starting seq path duration) :
      Move s (.startRecorder refused) { s with control := .startReply seq (.error error) }
  | begin {s : System} {seq : ℕ} {path : Path} {duration : ℕ} (hcontrol : s.control = .starting seq path duration)
      (hphase : s.phase = .idle) (htimer : s.timer.returned = true) :
      Move s (.startRecorder none) { s with
        control := .startReply seq (.ok (path, duration)), phase := .recording, timer := .asleep, last := none
        started := s.started + 1 }
  | writeStart {s : System} {seq : ℕ} {reply : Except String (Path × ℕ)} (hcontrol : s.control = .startReply seq reply) :
      Move s .writeStart { s with control := .idle, lines := s.lines ++ [.startReply seq reply s.started] }
  | expire {s : System} (htimer : s.timer = .asleep) :
      Move s .expire { s with timer := if s.phase = .recording then .checked else .done }
  | timerOwns {s : System} (htimer : s.timer = .checked) (hphase : s.phase = .recording) :
      Move s .timerStop { s with timer := .owning, phase := .finalizing }
  | timerJoins {s : System} (htimer : s.timer = .checked) (hphase : s.phase = .finalizing) :
      Move s .timerStop { s with timer := .joining }
  | timerLate {s : System} (htimer : s.timer = .checked) : Move s .timerStop { s with timer := .done }
  | timerPublish {s : System} {res : FinalizeResult} (htimer : s.timer = .owning) :
      Move s (.timerPublish res) { s with timer := .report res, phase := .idle, last := some res }
  | timerJoin {s : System} (htimer : s.timer = .joining) : Move s .timerJoin { s with timer := .done }
  | report {s : System} {res : FinalizeResult} (htimer : s.timer = .report res) :
      Move s .report { s with timer := .done, lines := s.lines ++ [.event res s.started] }
  | stopOwns {s : System} {seq : ℕ} (hcontrol : s.control = .stopping seq) (hphase : s.phase = .recording) :
      Move s .stopRecorder { s with control := .owning seq, phase := .finalizing }
  | stopJoins {s : System} {seq : ℕ} (hcontrol : s.control = .stopping seq) :
      Move s .stopRecorder { s with control := .joining seq }
  | stopCached {s : System} {seq : ℕ} (hcontrol : s.control = .stopping seq) :
      Move s .stopRecorder { s with control := .draining seq s.cached }
  | stopPublish {s : System} {seq : ℕ} {res : FinalizeResult} (hcontrol : s.control = .owning seq) :
      Move s (.stopPublish res) { s with control := .draining seq res, phase := .idle, last := some res }
  | stopJoin {s : System} {seq : ℕ} (hcontrol : s.control = .joining seq) :
      Move s .stopJoin { s with control := .draining seq s.cached }
  | writeStop {s : System} {seq : ℕ} {res : FinalizeResult} (hcontrol : s.control = .draining seq res) :
      Move s .writeStop { s with control := .idle, lines := s.lines ++ [.stopReply seq res s.started] }

theorem move_of_route {late : Bool} (h : s.route late = some s') : Move s (.route late) s' := by
  unfold System.route at h
  split at h
  · exact nomatch h
  · rename_i l rest hlines
    split at h
    · obtain rfl := Option.some.inj h
      exact .event hlines
    · rename_i hevent
      obtain ⟨⟨seq, stop⟩, hl⟩ : ∃ p, l.answers = some p := by
        cases l with
        | startReply seq reply n => exact ⟨_, rfl⟩
        | stopReply seq res n => exact ⟨_, rfl⟩
        | event res n => exact absurd rfl (hevent res n)
      split at h
      · rename_i hactive
        obtain rfl := Option.some.inj h
        exact .stale hlines hl (by simp [hactive])
      · rename_i seq' r hactive
        by_cases hseq : l.answers.map Prod.fst = some seq'
        · rw [if_pos hseq] at h
          have heq : seq = seq' := by simpa [hl] using hseq
          subst heq
          cases late with
          | true =>
            obtain rfl := Option.some.inj h
            exact .late hlines hl hactive
          | false =>
            obtain rfl := Option.some.inj h
            exact .accepted hlines hl hactive
        · rw [if_neg hseq] at h
          obtain rfl := Option.some.inj h
          refine .stale hlines hl fun r' hr' => hseq ?_
          have hop := Option.some.inj (hactive.symm.trans hr')
          simp [hl, (Prod.mk.inj hop).1]

/-- Every step is one of these. -/
theorem move_of_step (h : step s a = some s') : Move s a s' := by
  cases a with
  | route late => exact move_of_route h
  | timeout =>
    obtain rfl := Option.some.inj h
    exact .timeout
  | send r =>
    simp only [step, System.send] at h
    split at h
    · exact nomatch h
    · rename_i hactive
      obtain rfl := Option.some.inj h
      exact .send hactive
  | receive =>
    simp only [step, System.receive] at h
    split at h
    · rename_i hidle hcommands
      obtain rfl := Option.some.inj h
      exact .receiveStart hidle hcommands
    · rename_i hidle hcommands
      obtain rfl := Option.some.inj h
      exact .receiveStop hidle hcommands
    · exact nomatch h
  | startRecorder refused =>
    simp only [step, System.startRecorder] at h
    split at h
    · rename_i seq path duration hcontrol
      split at h
      · obtain rfl := Option.some.inj h
        exact .refuse hcontrol
      · rename_i hphase
        split at h
        · rename_i htimer
          split at h
          · obtain rfl := Option.some.inj h
            exact .refuse hcontrol
          · obtain rfl := Option.some.inj h
            exact .begin hcontrol (not_not.mp hphase) htimer
        · exact nomatch h
    · exact nomatch h
  | writeStart =>
    simp only [step, System.writeStart] at h
    split at h
    · rename_i hcontrol
      obtain rfl := Option.some.inj h
      exact .writeStart hcontrol
    · exact nomatch h
  | expire =>
    simp only [step, System.expire] at h
    split at h
    · rename_i htimer
      obtain rfl := Option.some.inj h
      exact .expire htimer
    · exact nomatch h
  | timerStop =>
    simp only [step, System.timerStop] at h
    split at h
    · rename_i htimer
      split at h
      · rename_i hphase
        obtain rfl := Option.some.inj h
        exact .timerOwns htimer hphase
      · rename_i hphase
        obtain rfl := Option.some.inj h
        exact .timerJoins htimer hphase
      · obtain rfl := Option.some.inj h
        exact .timerLate htimer
    · exact nomatch h
  | timerPublish res =>
    simp only [step, System.timerPublish] at h
    split at h
    · rename_i htimer
      obtain rfl := Option.some.inj h
      exact .timerPublish htimer
    · exact nomatch h
  | timerJoin =>
    simp only [step, System.timerJoin] at h
    split at h
    · rename_i htimer
      split_ifs at h
      obtain rfl := Option.some.inj h
      exact .timerJoin htimer
    · exact nomatch h
  | report =>
    simp only [step, System.report] at h
    split at h
    · rename_i htimer
      obtain rfl := Option.some.inj h
      exact .report htimer
    · exact nomatch h
  | stopRecorder =>
    simp only [step, System.stopRecorder] at h
    split at h
    · rename_i hcontrol
      split at h
      · rename_i hphase
        obtain rfl := Option.some.inj h
        exact .stopOwns hcontrol hphase
      · obtain rfl := Option.some.inj h
        exact .stopJoins hcontrol
      · obtain rfl := Option.some.inj h
        exact .stopCached hcontrol
    · exact nomatch h
  | stopPublish res =>
    simp only [step, System.stopPublish] at h
    split at h
    · rename_i hcontrol
      obtain rfl := Option.some.inj h
      exact .stopPublish hcontrol
    · exact nomatch h
  | stopJoin =>
    simp only [step, System.stopJoin] at h
    split at h
    · rename_i hcontrol
      split_ifs at h
      obtain rfl := Option.some.inj h
      exact .stopJoin hcontrol
    · exact nomatch h
  | writeStop =>
    simp only [step, System.writeStop] at h
    split at h
    · rename_i hcontrol
      split_ifs at h
      obtain rfl := Option.some.inj h
      exact .writeStop hcontrol
    · exact nomatch h

/-! ### Lines in order -/

/-- **Lines and status follow the recordings.** -/
structure InOrder (s : System) : Prop where
  sorted : s.lines.Pairwise fun l l' => l.recording ≤ l'.recording
  bound : ∀ l ∈ s.lines, l.recording ≤ s.started
  status : ∀ t, s.trace = some t → t.recording ≤ s.started ∧ ∀ l ∈ s.lines, t.recording ≤ l.recording

theorem inOrder_init : InOrder System.init := ⟨.nil, by simp [System.init], by simp [System.init]⟩

variable {t : Status}

theorem onEvent_recording {res : FinalizeResult} (h : s.onEvent res n = some t) :
    s.trace = some t ∨ t.recording = n := by
  unfold System.onEvent at h
  split at h
  · split at h
    · exact .inr (Option.some.inj h ▸ rfl)
    · exact .inl h
  · exact nomatch h

variable {l : Line} {r : Request}

theorem onReply_recording (h : s.onReply r l = some t) :
    s.trace = some t ∨ t.recording = l.recording := by
  unfold System.onReply at h
  split at h
  · split_ifs at h
    · exact .inl h
    · exact .inr (Option.some.inj h ▸ rfl)
  · split_ifs at h
    · exact .inr (Option.some.inj h ▸ rfl)
    · exact .inl h
  · exact .inl h

/-- A line is taken off, and a new status is about its recording. -/
theorem InOrder.take (h : InOrder s) (hlines : s.lines = l :: s'.lines) (hst : s'.started = s.started)
    (htrace : ∀ t, s'.trace = some t → s.trace = some t ∨ t.recording = l.recording) : InOrder s' := by
  have hsorted := h.sorted
  have hbound := h.bound
  have hstatus := h.status
  rw [hlines] at hsorted hbound hstatus
  refine ⟨hsorted.tail, fun l' hl' => hst ▸ hbound l' (List.mem_cons_of_mem _ hl'), fun t ht => ?_⟩
  rw [hst]
  rcases htrace t ht with hold | hnew
  · obtain ⟨hle, hall⟩ := hstatus t hold
    exact ⟨hle, fun l' hl' => hall l' (List.mem_cons_of_mem _ hl')⟩
  · rw [hnew]
    exact ⟨hbound l List.mem_cons_self, (List.pairwise_cons.mp hsorted).1⟩

/-- A line about the latest recording is written. -/
theorem InOrder.write (h : InOrder s) (hlines : s'.lines = s.lines ++ [l]) (hl : l.recording = s.started)
    (hst : s'.started = s.started) (htrace : s'.trace = s.trace) : InOrder s' := by
  have hmem : ∀ l' ∈ s'.lines, l' ∈ s.lines ∨ l' = l := by
    intro l' hl'
    rw [hlines] at hl'
    exact (List.mem_append.mp hl').imp id List.mem_singleton.mp
  refine ⟨?_, fun l' hl' => ?_, fun t ht => ?_⟩
  · rw [hlines]
    refine List.pairwise_append.mpr ⟨h.sorted, List.pairwise_singleton _ _, fun l' hl' m hm => ?_⟩
    rw [List.mem_singleton.mp hm, hl]
    exact h.bound l' hl'
  · rw [hst]
    rcases hmem l' hl' with hold | rfl
    · exact h.bound l' hold
    · exact hl.le
  · obtain ⟨hb, hall⟩ := h.status t (htrace ▸ ht)
    refine ⟨hst ▸ hb, fun l' hl' => ?_⟩
    rcases hmem l' hl' with hold | rfl
    · exact hall l' hold
    · exact hl ▸ hb

/-- Neither lines nor status change. -/
theorem InOrder.congr (h : InOrder s) (hlines : s'.lines = s.lines) (htrace : s'.trace = s.trace)
    (hst : s.started ≤ s'.started) : InOrder s' := by
  refine ⟨hlines ▸ h.sorted, fun l hl => (h.bound l (hlines ▸ hl)).trans hst, fun t ht => ?_⟩
  obtain ⟨hb, hall⟩ := h.status t (htrace ▸ ht)
  exact ⟨hb.trans hst, hlines ▸ hall⟩

/-- **Every step keeps the order.** -/
theorem InOrder.step (h : InOrder s) (hs : step s a = some s') : InOrder s' := by
  cases move_of_step hs with
  | event hlines => exact h.take hlines rfl fun t ht => onEvent_recording ht
  | stale hlines => exact h.take hlines rfl fun t ht => .inl ht
  | late hlines => exact h.take hlines rfl fun t ht => .inl ht
  | accepted hlines => exact h.take hlines rfl fun t ht => onReply_recording ht
  | writeStart => exact h.write rfl rfl rfl rfl
  | report => exact h.write rfl rfl rfl rfl
  | writeStop => exact h.write rfl rfl rfl rfl
  | begin => exact h.congr rfl rfl (Nat.le_succ _)
  | send | timeout | receiveStart | receiveStop | refuse | expire | timerOwns | timerJoins | timerLate | timerPublish
    | timerJoin | stopOwns | stopJoins | stopCached | stopPublish | stopJoin => exact h.congr rfl rfl le_rfl

/-! ### Commands and their replies -/

/-- The commands without a processed reply, the oldest first: written, at work, on their way. -/
def System.outstanding (s : System) : List (ℕ × Bool) :=
  s.lines.filterMap Line.answers ++ (s.control.command.toList ++ s.commands.map fun c => (c.1, c.2.isStop))

/-- **A `trace_stop` keeps its slot** until its reply is processed. -/
structure Awaited (s : System) : Prop where
  increasing : (s.outstanding.map Prod.fst).Pairwise (· < ·)
  bound : ∀ p ∈ s.outstanding, p.1 ≤ s.cmdSeq
  stops : ∀ seq, (seq, true) ∈ s.outstanding → ∃ r, s.active = some (seq, r) ∧ r.isStop = true
  actives : ∀ seq r, s.active = some (seq, r) → (seq, r.isStop) ∈ s.outstanding

theorem awaited_init : Awaited System.init := by
  constructor <;> simp [System.init, System.outstanding, Control.command]

theorem Awaited.congr (h : Awaited s) (ho : s'.outstanding = s.outstanding) (hc : s'.cmdSeq = s.cmdSeq)
    (ha : s'.active = s.active) : Awaited s' := by
  constructor
  · simpa only [ho] using h.increasing
  · simpa only [ho, hc] using h.bound
  · simpa only [ho, ha] using h.stops
  · simpa only [ho, ha] using h.actives

variable {seq : ℕ} {stop : Bool}

/-- The oldest is gone, and its slot is free. -/
theorem Awaited.take (h : Awaited s) (ho : s.outstanding = (seq, stop) :: s'.outstanding)
    (hc : s'.cmdSeq = s.cmdSeq) (ha : s'.active = none ∨ (s'.active = s.active ∧ ∀ r, s.active ≠ some (seq, r)))
    (hother : ∀ seq', s.active.any (fun op => op.2.isStop) = true → s'.active = none → (seq', true) ∉ s'.outstanding) :
    Awaited s' := by
  have hinc := h.increasing
  have hbound := h.bound
  have hstops := h.stops
  have hactives := h.actives
  rw [ho] at hinc hbound hstops hactives
  refine ⟨?_, fun p hp => hc ▸ hbound p (List.mem_cons_of_mem _ hp), fun seq' hs => ?_, fun seq' r hr => ?_⟩
  · rw [List.map_cons] at hinc
    exact hinc.tail
  · obtain ⟨r, hr, hstop⟩ := hstops seq' (List.mem_cons_of_mem _ hs)
    rcases ha with hnone | ⟨hsame, -⟩
    · exact absurd hs (hother seq' (by simp [hr, hstop]) hnone)
    · exact ⟨r, hsame ▸ hr, hstop⟩
  · rcases ha with hnone | ⟨hsame, hne⟩
    · simp [hnone] at hr
    · rw [hsame] at hr
      rcases List.mem_cons.mp (hactives seq' r hr) with heq | hin
      · exact absurd ((Prod.mk.inj heq).1 ▸ hr) (hne r)
      · exact hin

/-- A reply with the number of the slot answers the command in it. -/
theorem Awaited.kind (h : Awaited s) (hin : (seq, stop) ∈ s.outstanding)
    (ha : s.active = some (seq, r)) : r.isStop = stop := by
  have hin' := h.actives seq r ha
  have hnodup : (s.outstanding.map Prod.fst).Nodup := h.increasing.imp fun hlt => Nat.ne_of_lt hlt
  have := List.inj_on_of_nodup_map hnodup hin' hin rfl
  exact (Prod.mk.inj this).2

theorem outstanding_of_line {rest : List Line} {p : ℕ × Bool} (hlines : s.lines = l :: rest) (hl : l.answers = some p) :
    s.outstanding = p :: (rest.filterMap Line.answers ++
      (s.control.command.toList ++ s.commands.map fun c => (c.1, c.2.isStop))) := by
  rw [System.outstanding, hlines, List.filterMap_cons, hl, List.cons_append]

/-- No other `trace_stop` is outstanding where the slot was freed. -/
theorem Awaited.sole (h : Awaited s) {seq' : ℕ} {rest : List (ℕ × Bool)}
    (ho : s.outstanding = (seq, stop) :: rest) (ha : s.active = some (seq, r)) : (seq', true) ∉ rest := by
  intro hin
  have hinc := h.increasing
  rw [ho, List.map_cons] at hinc
  have hlt := (List.pairwise_cons.mp hinc).1 seq' (List.mem_map.mpr ⟨_, hin, rfl⟩)
  obtain ⟨r', hr', -⟩ := h.stops seq' (ho ▸ List.mem_cons_of_mem _ hin)
  have heq := (Prod.mk.inj (Option.some.inj (ha.symm.trans hr'))).1
  omega

theorem Awaited.step (h : Awaited s) (ht : Timely s a) (hs : step s a = some s') : Awaited s' := by
  cases move_of_step hs with
  | send hactive =>
    rename_i r
    have ho : System.outstanding { s with
        active := some (s.cmdSeq + 1, r), cmdSeq := s.cmdSeq + 1, commands := s.commands ++ [(s.cmdSeq + 1, r)] } =
          s.outstanding ++ [(s.cmdSeq + 1, r.isStop)] := by
      simp [System.outstanding]
    refine ⟨?_, ?_, ?_, ?_⟩
    · rw [ho, List.map_append, List.map_singleton]
      refine List.pairwise_append.mpr ⟨h.increasing, List.pairwise_singleton _ _, fun x hx y hy => ?_⟩
      obtain ⟨p, hp, rfl⟩ := List.mem_map.mp hx
      rw [List.mem_singleton.mp hy]
      exact Nat.lt_succ_of_le (h.bound p hp)
    · intro p hp
      rw [ho] at hp
      rcases List.mem_append.mp hp with hp | hp
      · exact (h.bound p hp).trans (Nat.le_succ _)
      · rw [List.mem_singleton.mp hp]
    · intro seq hseq
      rw [ho] at hseq
      rcases List.mem_append.mp hseq with hp | hp
      · obtain ⟨r', hr', -⟩ := h.stops seq hp
        simp [hactive] at hr'
      · have heq := Prod.mk.inj (List.mem_singleton.mp hp)
        exact ⟨r, by rw [heq.1], heq.2.symm⟩
    · intro seq r' hr'
      obtain ⟨rfl, rfl⟩ := Prod.mk.inj (Option.some.inj hr')
      rw [ho]
      simp
  | timeout =>
    refine ⟨h.increasing, h.bound, fun seq hseq => ?_, fun seq r hr => (nomatch hr)⟩
    -- a `trace_stop` would wait
    obtain ⟨r, hr, hstop⟩ := h.stops seq hseq
    have hno : s.awaitsStop = false := ht
    simp [System.awaitsStop, hr, hstop] at hno
  | event hlines =>
    refine h.congr ?_ rfl rfl
    rw [System.outstanding, System.outstanding, hlines, List.filterMap_cons_none rfl]
  | stale hlines hl hstale =>
    exact h.take (outstanding_of_line hlines hl) rfl (.inr ⟨rfl, hstale⟩) fun seq' hany hnone => by
      simp [show s.active = none from hnone] at hany
  | late hlines hl hactive =>
    exact h.take (outstanding_of_line hlines hl) rfl (.inl rfl) fun seq' _ _ =>
      h.sole (outstanding_of_line hlines hl) hactive
  | accepted hlines hl hactive =>
    exact h.take (outstanding_of_line hlines hl) rfl (.inl rfl) fun seq' _ _ =>
      h.sole (outstanding_of_line hlines hl) hactive
  | receiveStart hidle hcommands =>
    refine h.congr ?_ rfl rfl
    simp [System.outstanding, hidle, hcommands, Control.command, Request.isStop]
  | receiveStop hidle hcommands =>
    refine h.congr ?_ rfl rfl
    simp [System.outstanding, hidle, hcommands, Control.command, Request.isStop]
  | refuse hcontrol => exact h.congr (by simp [System.outstanding, hcontrol, Control.command]) rfl rfl
  | begin hcontrol => exact h.congr (by simp [System.outstanding, hcontrol, Control.command]) rfl rfl
  | writeStart hcontrol =>
    exact h.congr (by simp [System.outstanding, hcontrol, Control.command, Line.answers]) rfl rfl
  | report => exact h.congr (by simp [System.outstanding, Line.answers]) rfl rfl
  | stopOwns hcontrol => exact h.congr (by simp [System.outstanding, hcontrol, Control.command]) rfl rfl
  | stopJoins hcontrol => exact h.congr (by simp [System.outstanding, hcontrol, Control.command]) rfl rfl
  | stopCached hcontrol => exact h.congr (by simp [System.outstanding, hcontrol, Control.command]) rfl rfl
  | stopPublish hcontrol => exact h.congr (by simp [System.outstanding, hcontrol, Control.command]) rfl rfl
  | stopJoin hcontrol => exact h.congr (by simp [System.outstanding, hcontrol, Control.command]) rfl rfl
  | writeStop hcontrol =>
    exact h.congr (by simp [System.outstanding, hcontrol, Control.command, Line.answers]) rfl rfl
  | expire | timerOwns | timerJoins | timerLate | timerPublish | timerJoin => exact h.congr rfl rfl rfl

/-! ### The status of a recording -/

/-- The reply that is not written says that the recording is over. -/
def Control.settling : Control → Bool
  | draining _ res => res.ok
  | _ => false

/-- A line that begins the recording is under way. -/
def System.Beginning (s : System) (n : ℕ) : Prop := ∃ l ∈ s.lines, l.begins = true ∧ l.recording = n

/-- A line that ends the recording is under way. -/
def System.Ending (s : System) (n : ℕ) : Prop := ∃ l ∈ s.lines, l.ends = true ∧ l.recording = n

/-- A line that ends the latest recording is to be written. -/
def System.closing (s : System) : Bool := s.timer.reporting || s.control.settling

/-- **What is shown of a recording is on its way to be right.** -/
structure Follows (s : System) : Prop where
  /-- The line that begins a recording is the first about it. -/
  firsts : s.lines.Pairwise fun l l' => l'.begins = true → l.recording < l'.recording
  fresh : ∀ l ∈ s.lines, l.begins = true → ∀ t, s.trace = some t → t.recording < l.recording
  unacknowledged : s.control.unacknowledged = true → (∀ l ∈ s.lines, l.recording < s.started) ∧
    (∀ t, s.trace = some t → t.recording < s.started) ∧ (s.phase = .idle → s.timer.reporting = true)
  owed : ∀ n, s.Shows n ∨ s.Beginning n → s.Finalised n → (n = s.started ∧ s.closing = true) ∨ s.Ending n

theorem follows_init : Follows System.init := by
  refine ⟨.nil, by simp [System.init], by simp [System.init, Control.unacknowledged], ?_⟩
  rintro n (⟨t, ht, -⟩ | ⟨l, hl, -⟩)
  · exact nomatch ht
  · exact nomatch hl

/-- A step of the device that writes nothing: what was owed stays owed. -/
theorem Follows.inside (h : Follows s) (hlines : s'.lines = s.lines) (htrace : s'.trace = s.trace)
    (hst : s'.started = s.started)
    (hun : s'.control.unacknowledged = true → s.control.unacknowledged = true ∧
      (s'.phase = .idle → (s.phase = .idle → s.timer.reporting = true) → s'.timer.reporting = true))
    (hphase : s'.phase = .idle → s.phase = .idle ∨ s'.closing = true) (hclosing : s.closing = true → s'.closing = true) :
    Follows s' := by
  refine ⟨hlines ▸ h.firsts, ?_, fun hu => ?_, fun n hshow hfin => ?_⟩
  · rw [hlines, htrace]
    exact h.fresh
  · obtain ⟨hu', hrep⟩ := hun hu
    obtain ⟨h1, h2, h3⟩ := h.unacknowledged hu'
    rw [hlines, htrace, hst]
    exact ⟨h1, h2, fun hp => hrep hp h3⟩
  · have hshow' : s.Shows n ∨ s.Beginning n := by
      simpa only [System.Shows, System.Beginning, hlines, htrace] using hshow
    have hending : s'.Ending n ↔ s.Ending n := by simp only [System.Ending, hlines]
    obtain ⟨hone, hle, hnot⟩ := hfin
    rw [hst] at hle hnot
    by_cases hn : n = s.started
    · have hidle : s'.phase = .idle := by
        by_contra hne
        exact hnot ⟨hn, hne⟩
      rcases hphase hidle with hold | hclose
      · have hfin' : s.Finalised n := ⟨hone, hle, fun hx => hx.2 hold⟩
        rw [hst, hending]
        exact (h.owed n hshow' hfin').imp (fun hc => ⟨hc.1, hclosing hc.2⟩) id
      · exact .inl ⟨hst.symm ▸ hn, hclose⟩
    · have hfin' : s.Finalised n := ⟨hone, hle, fun hx => hn hx.1⟩
      rw [hst, hending]
      exact (h.owed n hshow' hfin').imp (fun hc => absurd hc.1 hn) id

/-- A line about the latest recording is written. -/
theorem Follows.write (h : Follows s) (hlines : s'.lines = s.lines ++ [l]) (hl : l.recording = s.started)
    (hst : s'.started = s.started) (htrace : s'.trace = s.trace) (hphase : s'.phase = s.phase)
    (hun : s'.control.unacknowledged = false)
    (hbegins : l.begins = true → (∀ l' ∈ s.lines, l'.recording < s.started) ∧
      (∀ t, s.trace = some t → t.recording < s.started) ∧ (s.phase = .idle → s'.closing = true))
    (hclosing : s.closing = true → s'.closing = true ∨ l.ends = true) : Follows s' := by
  have hmem : ∀ l' ∈ s'.lines, l' ∈ s.lines ∨ l' = l := by
    intro l' hl'
    rw [hlines] at hl'
    exact (List.mem_append.mp hl').imp id List.mem_singleton.mp
  refine ⟨?_, fun l' hl' hb t ht => ?_, fun hu => ?_, fun n hshow hfin => ?_⟩
  · rw [hlines]
    refine List.pairwise_append.mpr ⟨h.firsts, List.pairwise_singleton _ _, fun l' hl' m hm hb => ?_⟩
    rw [List.mem_singleton.mp hm] at hb ⊢
    rw [hl]
    exact (hbegins hb).1 l' hl'
  · rw [htrace] at ht
    rcases hmem l' hl' with hold | rfl
    · exact h.fresh l' hold hb t ht
    · rw [hl]
      exact (hbegins hb).2.1 t ht
  · simp [hun] at hu
  · have hfin' : s.Finalised n := by simpa only [System.Finalised, hst, hphase] using hfin
    have hold : s.Shows n ∨ s.Beginning n → (n = s'.started ∧ s'.closing = true) ∨ s'.Ending n := by
      intro hs
      rcases h.owed n hs hfin' with ⟨hn, hc⟩ | ⟨l', hl', he⟩
      · rcases hclosing hc with hc' | hends
        · exact .inl ⟨hst.symm ▸ hn, hc'⟩
        · exact .inr ⟨l, by simp [hlines], hends, hl.trans hn.symm⟩
      · exact .inr ⟨l', by simp [hlines, hl'], he⟩
    rcases hshow with ⟨t, ht, hrest⟩ | ⟨l', hl', hb, hr⟩
    · exact hold (.inl ⟨t, htrace ▸ ht, hrest⟩)
    · rcases hmem l' hl' with hin | rfl
      · exact hold (.inr ⟨l', hin, hb, hr⟩)
      · -- the reply to the start of a recording that is over already
        have hn : n = s.started := hr.symm.trans hl
        have hidle : s.phase = .idle := by
          by_contra hne
          exact hfin'.2.2 ⟨hn, hne⟩
        exact .inl ⟨hst.symm ▸ hn, (hbegins hb).2.2 hidle⟩

theorem ends_of_begins (h : l.begins = true) : l.ends = false := by
  cases l with
  | startReply => rfl
  | stopReply => exact nomatch h
  | event => exact nomatch h

/-- A line is taken off: one that ends a recording leaves nothing shown as recording. -/
theorem Follows.take (h : Follows s) (hlines : s.lines = l :: s'.lines) (hst : s'.started = s.started)
    (hcontrol : s'.control = s.control) (hphase : s'.phase = s.phase) (htimer : s'.timer = s.timer)
    (htrace : ∀ t, s'.trace = some t → s.trace = some t ∨ t.recording = l.recording)
    (hshow : ∀ n, s'.Shows n → (s.Shows n ∧ l.ends = false) ∨ (l.begins = true ∧ l.recording = n)) : Follows s' := by
  have hfirsts := h.firsts
  have hfresh := h.fresh
  have hun := h.unacknowledged
  rw [hlines] at hfirsts hfresh hun
  refine ⟨hfirsts.tail, fun l' hl' hb t ht => ?_, fun hu => ?_, fun n hs hfin => ?_⟩
  · rcases htrace t ht with hold | hnew
    · exact hfresh l' (List.mem_cons_of_mem _ hl') hb t hold
    · rw [hnew]
      exact (List.pairwise_cons.mp hfirsts).1 l' hl' hb
  · rw [hcontrol] at hu
    obtain ⟨h1, h2, h3⟩ := hun hu
    rw [hst, hphase, htimer]
    refine ⟨fun l' hl' => h1 l' (List.mem_cons_of_mem _ hl'), fun t ht => ?_, h3⟩
    rcases htrace t ht with hold | hnew
    · exact h2 t hold
    · rw [hnew]
      exact h1 l List.mem_cons_self
  · have hfin' : s.Finalised n := by simpa only [System.Finalised, hst, hphase] using hfin
    have hclosing : s'.closing = s.closing := by rw [System.closing, System.closing, hcontrol, htimer]
    -- what ended the recording is not the line taken off
    have hlater : s.Shows n ∨ s.Beginning n → (l.ends = true → l.recording ≠ n) →
        (n = s'.started ∧ s'.closing = true) ∨ s'.Ending n := by
      intro hs hl
      rcases h.owed n hs hfin' with ⟨hn, hc⟩ | ⟨l', hl', he, hr⟩
      · exact .inl ⟨hst.symm ▸ hn, hclosing ▸ hc⟩
      · rw [hlines] at hl'
        rcases List.mem_cons.mp hl' with rfl | hl'
        · exact absurd hr (hl he)
        · exact .inr ⟨l', hl', he, hr⟩
    rcases hs with hs | ⟨l', hl', hb, hr⟩
    · rcases hshow n hs with ⟨hs', hends⟩ | ⟨hb, hr⟩
      · exact hlater (.inl hs') fun he => absurd he (by simp [hends])
      · refine hlater (.inr ⟨l, by simp [hlines], hb, hr⟩) fun he => ?_
        simp [ends_of_begins hb] at he
    · refine hlater (.inr ⟨l', by simp [hlines, hl'], hb, hr⟩) fun _ heq => ?_
      have := (List.pairwise_cons.mp hfirsts).1 l' hl' hb
      omega

theorem not_shows_onEvent {res : FinalizeResult} (h : s.onEvent res n = some t) : t.active = false := by
  unfold System.onEvent at h
  split at h
  · rename_i t' ht'
    split at h
    · exact Option.some.inj h ▸ rfl
    · rename_i hactive
      rw [ht'] at h
      rw [← Option.some.inj h]
      simpa using hactive
  · exact nomatch h

/-- What an accepted reply shows. -/
theorem shows_onReply (hl : l.answers = some (seq, stop))
    (hr : r.isStop = stop) (h : s.onReply r l = some t) (hactive : t.active = true) :
    (s.trace = some t ∧ l.ends = false) ∨ (l.begins = true ∧ t.recording = l.recording) := by
  cases l with
  | event => exact nomatch hl
  | startReply seq' reply m =>
    have hstop : r.isStop = false := hr.trans (Prod.mk.inj (Option.some.inj hl)).2.symm
    cases reply with
    | error e => exact .inl ⟨h, rfl⟩
    | ok p =>
      simp only [System.onReply, hstop, Bool.false_eq_true, if_false] at h
      exact .inr ⟨rfl, Option.some.inj h ▸ rfl⟩
  | stopReply seq' res m =>
    have hstop : r.isStop = true := hr.trans (Prod.mk.inj (Option.some.inj hl)).2.symm
    simp only [System.onReply, hstop, Bool.true_and] at h
    split at h
    · rw [← Option.some.inj h] at hactive
      exact nomatch hactive
    · rename_i hok
      exact .inl ⟨h, by simpa [Line.ends] using hok⟩

/-- **Every timely step keeps it.** -/
theorem Follows.step (h : Follows s) (ho : InOrder s) (hw : Awaited s) (ht : Timely s a) (hs : step s a = some s') : Follows s' := by
  -- the reply to a `trace_stop` is waited for
  have hawaits : ∀ {l : Line} {rest : List Line} {seq : ℕ}, s.lines = l :: rest → l.answers = some (seq, true) →
      ∃ r, s.active = some (seq, r) ∧ r.isStop = true := fun hlines hl =>
    hw.stops _ (outstanding_of_line hlines hl ▸ List.mem_cons_self)
  have hstart : ∀ {l : Line} {seq : ℕ}, l.answers = some (seq, false) → l.ends = false := by
    intro l seq hl
    cases l with
    | startReply => rfl
    | stopReply => simp [Line.answers] at hl
    | event => exact nomatch hl
  cases move_of_step hs with
  | event hlines =>
    refine h.take hlines rfl rfl rfl rfl (fun t ht => onEvent_recording ht) ?_
    rintro n ⟨t, htr, hact, -⟩
    simp [not_shows_onEvent htr] at hact
  | stale hlines hl hstale =>
    rename_i stop
    cases stop with
    | true =>
      obtain ⟨r, hr, -⟩ := hawaits hlines hl
      exact absurd hr (hstale r)
    | false => exact h.take hlines rfl rfl rfl rfl (fun t ht => .inl ht) fun n hn => .inl ⟨hn, hstart hl⟩
  | late hlines hl hactive =>
    rename_i stop r
    cases stop with
    | true =>
      obtain ⟨r', hr', hstop⟩ := hawaits hlines hl
      have hno : s.awaitsStop = false := ht rfl
      simp [System.awaitsStop, hr', hstop] at hno
    | false => exact h.take hlines rfl rfl rfl rfl (fun t ht => .inl ht) fun n hn => .inl ⟨hn, hstart hl⟩
  | accepted hlines hl hactive =>
    refine h.take hlines rfl rfl rfl rfl (fun t ht => onReply_recording ht) ?_
    rintro n ⟨t, htr, hact, hr⟩
    have hkind := hw.kind (outstanding_of_line hlines hl ▸ List.mem_cons_self) hactive
    rcases shows_onReply hl hkind htr hact with ⟨hsame, hends⟩ | ⟨hb, hrec⟩
    · exact .inl ⟨⟨t, hsame, hact, hr⟩, hends⟩
    · exact .inr ⟨hb, hrec.symm.trans hr⟩
  | begin hcontrol hphase htimer =>
    have hquiet : s.closing = false := by
      have hrep : s.timer.reporting = false := by
        cases hd : s.timer <;> simp_all [Timer.returned, Timer.reporting]
      simp [System.closing, hrep, hcontrol, Control.settling]
    refine ⟨h.firsts, h.fresh, fun _ => ⟨fun l hl => Nat.lt_succ_of_le (ho.bound l hl), fun t htr =>
      Nat.lt_succ_of_le (ho.status t htr).1, fun hp => (nomatch hp)⟩, fun n hshow hfin => .inr ?_⟩
    have hlt : n < s.started + 1 := Nat.lt_of_le_of_ne hfin.2.1 fun hn => hfin.2.2 ⟨hn, by simp⟩
    have hfin' : s.Finalised n := ⟨hfin.1, Nat.le_of_lt_succ hlt, fun hx => hx.2 hphase⟩
    rcases h.owed n hshow hfin' with ⟨-, hc⟩ | he
    · simp [hquiet] at hc
    · exact he
  | writeStart hcontrol =>
    rename_i seq reply
    refine h.write rfl rfl rfl rfl rfl rfl (fun hb => ?_) (fun hc => .inl ?_)
    · have hu : s.control.unacknowledged = true := by
        rw [hcontrol]
        cases reply with
        | error => exact nomatch hb
        | ok => rfl
      obtain ⟨h1, h2, h3⟩ := h.unacknowledged hu
      exact ⟨h1, h2, fun hp => by simp [System.closing, h3 hp]⟩
    · simpa [System.closing, hcontrol, Control.settling] using hc
  | report htimer =>
    refine h.write rfl rfl rfl rfl rfl ht (fun hb => (nomatch hb)) fun _ => .inr rfl
  | writeStop hcontrol =>
    refine h.write rfl rfl rfl rfl rfl rfl (fun hb => (nomatch hb)) fun hc => ?_
    simp only [System.closing, hcontrol, Control.settling, Bool.or_eq_true] at hc
    rcases hc with hc | hc
    · exact .inl (by simp [System.closing, hc])
    · exact .inr hc
  | send | timeout => exact h.inside rfl rfl rfl (fun hu => ⟨hu, fun hp hrep => hrep hp⟩) .inl id
  | receiveStart hidle | receiveStop hidle =>
    refine h.inside rfl rfl rfl (fun hu => (nomatch hu)) .inl fun hc => ?_
    simpa [System.closing, hidle, Control.settling] using hc
  | refuse hcontrol =>
    refine h.inside rfl rfl rfl (fun hu => (nomatch hu)) .inl fun hc => ?_
    simpa [System.closing, hcontrol, Control.settling] using hc
  | expire htimer =>
    refine h.inside rfl rfl rfl (fun hu => ⟨hu, fun hp hrep => ?_⟩) .inl fun hc => ?_
    · simpa [htimer, Timer.reporting] using hrep hp
    · have : s.control.settling = true := by simpa [System.closing, htimer, Timer.reporting] using hc
      simp [System.closing, this]
  | timerOwns htimer hphase =>
    refine h.inside rfl rfl rfl (fun hu => ⟨hu, fun hp => (nomatch hp)⟩) (fun hp => (nomatch hp)) fun hc => ?_
    simpa [System.closing, htimer, Timer.reporting] using hc
  | timerJoins htimer | timerLate htimer | timerJoin htimer =>
    refine h.inside rfl rfl rfl (fun hu => ⟨hu, fun hp hrep => ?_⟩) .inl fun hc => ?_
    · simpa [htimer, Timer.reporting] using hrep hp
    · simpa [System.closing, htimer, Timer.reporting] using hc
  | timerPublish htimer =>
    exact h.inside rfl rfl rfl (fun hu => ⟨hu, fun _ _ => rfl⟩) (fun _ => .inr rfl) fun _ => rfl
  | stopOwns hcontrol =>
    refine h.inside rfl rfl rfl (fun hu => (nomatch hu)) (fun hp => (nomatch hp)) fun hc => ?_
    simpa [System.closing, hcontrol, Control.settling] using hc
  | stopJoins hcontrol =>
    refine h.inside rfl rfl rfl (fun hu => (nomatch hu)) .inl fun hc => ?_
    simpa [System.closing, hcontrol, Control.settling] using hc
  | stopCached hcontrol | stopJoin hcontrol =>
    refine h.inside rfl rfl rfl (fun hu => (nomatch hu)) .inl fun hc => ?_
    have : s.timer.reporting = true := by simpa [System.closing, hcontrol, Control.settling] using hc
    simp [System.closing, this]
  | stopPublish hcontrol =>
    rename_i seq res
    have hok : Control.settling (.draining seq res) = true := ht
    refine h.inside rfl rfl rfl (fun hu => (nomatch hu)) (fun _ => .inr ?_) fun _ => ?_
    · simp [System.closing, hok]
    · simp [System.closing, hok]

/-! ### Whole runs -/

/-- What timely runs keep. -/
structure Inv (s : System) : Prop where
  inOrder : InOrder s
  awaited : Awaited s
  follows : Follows s

theorem inv_of_reaches (h : Reaches Steps Timely System.init s) : Inv s :=
  h.invariant ⟨inOrder_init, awaited_init, follows_init⟩ fun _ _ _ hi ht hs =>
    ⟨hi.inOrder.step hs, hi.awaited.step ht hs, hi.follows.step hi.inOrder hi.awaited ht hs⟩

/-- **The status follows the device.**  In every timely run a recording that the device has finalised, and whose lines have
all been written and processed, is not shown as recording; and in every run whatsoever the expiry event of a recording leaves
the status of a later one as it is. -/
theorem status_follows {s : System} :
    (Reaches Steps Timely System.init s → ∀ n, s.Finalised n → s.Processed n → ¬ s.Shows n) ∧
      (Reaches Steps always System.init s → ∀ late s' res n rest, s.lines = .event res n :: rest →
        step s (.route late) = some s' → ∀ t, s.trace = some t → n < t.recording → s'.trace = s.trace) := by
  refine ⟨fun h n hfin hproc hshow => ?_, fun h late s' res n rest hlines hs t ht hlt => ?_⟩
  · rcases (inv_of_reaches h).follows.owed n (.inl hshow) hfin with ⟨hn, hc⟩ | ⟨l, hl, -, hr⟩
    · obtain ⟨hrep, hun, -⟩ := hproc.2 hn
      have hset : s.control.settling = false := by
        cases hd : s.control <;> simp_all [Control.unanswered, Control.settling]
      simp [System.closing, hrep, hset] at hc
    · exact hproc.1 l hl hr
  · have ho : InOrder s := h.invariant inOrder_init fun s a s' hi _ hs => hi.step hs
    -- the status is never ahead of a line
    have hle := (ho.status t ht).2 _ (hlines ▸ List.mem_cons_self)
    exact absurd hlt (Nat.not_lt.mpr hle)

/-- A recording that is started, and stopped with this result. -/
def stopRun (res : FinalizeResult) : List Act :=
  [.send (.start ['/'] 60), .receive, .startRecorder none, .writeStart, .route false,
   .send .stop, .receive, .stopRecorder, .stopPublish res, .expire, .writeStop, .route false]

/-- The expiry event overtakes the reply to the start. -/
def overtakenRun : List Act :=
  [.send (.start ['/'] 1), .receive, .startRecorder none, .expire, .timerStop, .timerPublish { ok := true }, .report,
   .writeStart, .route false, .route false]

/-- The device is done with recording 1 and every line is processed; is it shown as recording? -/
def System.settled (s : System) : Bool × Bool :=
  (decide (s.started = 1) && decide (s.phase = .idle) && !s.timer.reporting && !s.control.unanswered &&
    !s.control.unacknowledged && s.lines.isEmpty,
   s.trace.any fun t => t.active && decide (t.recording = 1))

theorem finalised_of_settled {b : Bool} (h : s.settled = (true, b)) : s.Finalised 1 ∧ s.Processed 1 := by
  simp only [System.settled, Prod.mk.injEq, Bool.and_eq_true, decide_eq_true_eq, Bool.not_eq_true',
    List.isEmpty_iff] at h
  obtain ⟨⟨⟨⟨⟨⟨hst, hphase⟩, hrep⟩, hun⟩, hack⟩, hlines⟩, -⟩ := h
  refine ⟨⟨le_rfl, hst.ge, fun hx => hx.2 hphase⟩, by simp [hlines], fun _ => ⟨hrep, hun, hack⟩⟩

theorem shows_of_settled {b : Bool} (h : s.settled = (b, true)) : s.Shows 1 := by
  simp only [System.settled, Prod.mk.injEq, Option.any_eq_true, Bool.and_eq_true, decide_eq_true_eq] at h
  obtain ⟨-, t, ht, hact, hrec⟩ := h
  exact ⟨t, ht, hact, hrec⟩

/-- A recording that is stopped in time. -/
theorem status_follows_stopped : ∃ s, Reaches Steps Timely System.init s ∧ s.Finalised 1 ∧ s.Processed 1 ∧ ¬ s.Shows 1 := by
  have h : ((exec step Timely System.init (stopRun { ok := true })).map System.settled) = some (true, false) := by rfl
  obtain ⟨s, hs, hsettled⟩ := Option.map_eq_some_iff.mp h
  obtain ⟨hfin, hproc⟩ := finalised_of_settled hsettled
  have hreach := reaches_of_exec hs
  exact ⟨s, hreach, hfin, hproc, status_follows.1 hreach 1 hfin hproc⟩

theorem stuck_of_settled {run : List Act} (h : (exec step always System.init run).map System.settled = some (true, true)) :
    ∃ s, exec step always System.init run = some s ∧ Reaches Steps always System.init s ∧ s.Finalised 1 ∧ s.Processed 1 ∧
      s.Shows 1 := by
  obtain ⟨s, hs, hsettled⟩ := Option.map_eq_some_iff.mp h
  obtain ⟨hfin, hproc⟩ := finalised_of_settled hsettled
  exact ⟨s, hs, reaches_of_exec hs, hfin, hproc, shows_of_settled hsettled⟩

/-- **"Recording" for good**: after a `trace_stop` whose file could not be written, and after an expiry whose event was
written in front of the reply to the start. -/
theorem status_stuck :
    (∃ s, exec step always System.init (stopRun { error := "trace write failed: No space left on device" }) = some s ∧
      Reaches Steps always System.init s ∧ s.Finalised 1 ∧ s.Processed 1 ∧ s.Shows 1) ∧
    ∃ s, exec step always System.init overtakenRun = some s ∧ Reaches Steps always System.init s ∧ s.Finalised 1 ∧
      s.Processed 1 ∧ s.Shows 1 :=
  ⟨stuck_of_settled (by rfl), stuck_of_settled (by rfl)⟩

end OverlayBD.TraceStatus
