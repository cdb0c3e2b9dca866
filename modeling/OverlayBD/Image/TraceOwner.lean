import OverlayBD.Image.TraceRecord
import OverlayBD.Lib.Transition

/-!
# Who finalises a recording (`image/trace_record.cpp`)

`start`, `stop` and the duration timer of a recording share one mutex and meet only in its sections.  A stop that finds a
recording claims it and finalises it; one that finds a finalisation in progress keeps its completion object and waits for it.
A timer checks state and generation in one section and enters the path of `stop` in another; a start waits for the timer of
the recording before it in a section in front of the one that begins the new recording.

## The model

* `System` — the fields under `mu_`, the output files, and where every start, stop and timer stands.  Recordings are numbered
  in the order they begin, and the timer of a recording has its number.  `started`, and `recording` and `owner` of a
  completion, are ghosts.
* `Act`, `step` — one section, or one stretch of work between sections.
* `Calm` — a start begins its recording only where no timer waits to be drained.

## What is proved

* `Inv.step` — what every section keeps.
* `recordings_owned` — in every run whose recordings begin calmly, each recording is finalised once, by a stop or by its own
  timer, and who waits for a finalisation gets its result; a start that is refused changes neither queue nor files.
* `stale_timer_finalises` — a start between its check of the timer and its last section lets the timer of one recording
  finalise the next.
-/

namespace OverlayBD.Tracing

open Transition

/-! ### The state -/

/-- A path. -/
abbrev Path := List Char

/-- `FinalizeResult`, without the digest. -/
structure FinalizeResult where
  ok : Bool := false
  error : String := ""
  path : Path := []
  size : ℕ := 0
  records : ℕ := 0
  dropped : ℕ := 0
  reason : String := ""
deriving DecidableEq, Repr

/-- Who runs `stop_impl`: a call of `stop`, or the timer of a recording. -/
inductive Actor
  | stop (i : ℕ)
  | timer (n : ℕ)
deriving DecidableEq, Repr

/-- `FinalizeCompletion`. -/
structure Completion where
  /-- Ghost: the recording that was claimed. -/
  recording : ℕ
  /-- Ghost: who claimed it. -/
  owner : Actor
  result : Option FinalizeResult

/-- Where a stop or a timer stands. -/
inductive Pc
  /-- Not called, not armed. -/
  | out
  | asleep
  | awake
  /-- In front of the first section of `stop_impl`. -/
  | enter (reason : String)
  /-- `joined_finalize` is set. -/
  | waiting (c : ℕ)
  /-- Owner of a finalisation. -/
  | claimed (c : ℕ) (fd : Option Path) (reason : String)
  | drained (c : ℕ) (fd : Option Path) (reason : String) (f : Finalized)
  | written (c : ℕ) (res : FinalizeResult)
  /-- With a result, of a completion or a cached one. -/
  | leaving (c : Option ℕ) (res : FinalizeResult)
  /-- Returned; the frame of a timer is destroyed. -/
  | gone (c : Option ℕ) (res : Option FinalizeResult)

/-- Where a start stands. -/
inductive StartPc
  | out
  /-- In the loop of `drain_stale_idle_timer`, the first or the second. -/
  | gate (second : Bool) (path : Path)
  | draining (second : Bool) (path : Path) (d : ℕ)
  | opening (path : Path)
  /-- In front of the section that begins the recording. -/
  | committing (path : Path)
  | accepted
  | rejected (error : String)
deriving DecidableEq

/-- The recorder with its callers. -/
structure System where
  /-- `state_`, `pending_`, `dropped_`. -/
  core : Recorder
  generation : ℕ
  /-- `fd_` with `path_`. -/
  fd : Option Path
  last : Option FinalizeResult
  /-- `finalizing_`, as a position in `completions`. -/
  finalizing : Option ℕ
  completions : List Completion
  /-- `timer_drain_`: the number of the timer. -/
  timerDrain : Option ℕ
  /-- `TimerDrain::drained`. -/
  drained : ℕ → Bool
  /-- The token of a timer is cancelled. -/
  cancelled : ℕ → Bool
  /-- The generation a timer was armed with. -/
  armed : ℕ → ℕ
  pc : Actor → Pc
  /-- `drain_to_join` of a stop. -/
  join : ℕ → Option ℕ
  starter : ℕ → StartPc
  /-- The output files. -/
  files : Path → Option (List UInt8)
  /-- Ghost: how many recordings have begun. -/
  started : ℕ

namespace System

variable (s : System)

/-- An actor moves. -/
def setPc (a : Actor) (p : Pc) : System := { s with pc := Function.update s.pc a p }

/-- A start moves. -/
def setStarter (i : ℕ) (p : StartPc) : System := { s with starter := Function.update s.starter i p }

/-- A recorder in no recording. -/
def init (maxPending : ℕ) : System where
  core := ⟨maxPending, .idle, [], 0⟩
  generation := 0
  fd := none
  last := none
  finalizing := none
  completions := []
  timerDrain := none
  drained := fun _ => false
  cancelled := fun _ => false
  armed := fun _ => 0
  pc := fun _ => .out
  join := fun _ => none
  starter := fun _ => .out
  files := fun _ => none
  started := 0

/-! ### Sections -/

/-- The end of `drain_timer_task`, once the frame of timer `d` is destroyed. -/
def drainTimer (d : ℕ) : Option System :=
  match s.pc (.timer d) with
  | .gone _ _ =>
    some { s with
      drained := Function.update s.drained d true
      timerDrain := if s.timerDrain = some d then none else s.timerDrain }
  | _ => none

/-- The section of `stop_impl` that claims the recording. -/
def claim (a : Actor) (reason : String) : System :=
  { s with
    core := { s.core with state := .finalizing }
    generation := s.generation + 1
    finalizing := some s.completions.length
    completions := s.completions ++ [⟨s.started, a, none⟩]
    fd := none
    cancelled := Function.update s.cancelled s.started true
    pc := Function.update s.pc a (.claimed s.completions.length s.fd reason) }

/-- A stop keeps `timer_drain_` to wait for. -/
def keepDrain (a : Actor) : System :=
  match a with
  | .stop i => { s with join := Function.update s.join i s.timerDrain }
  | .timer _ => s

/-- A section of the loop of `stop_impl`. -/
def stopSection (a : Actor) : Option System :=
  match s.pc a with
  | .waiting c =>
    match s.completions[c]?.bind Completion.result with
    | some res => some (s.setPc a (.leaving (some c) res))
    | none => some s
  | .enter reason =>
    match s.core.state with
    | .finalizing => s.finalizing.map fun c => (s.keepDrain a).setPc a (.waiting c)
    | .idle =>
      let res := s.last.getD { error := "no trace recording in progress" }
      some ((s.keepDrain a).setPc a (.leaving none res))
    | .recording => some ((s.keepDrain a).claim a reason)
  | _ => none

/-- `finalize_locked_state`: the section that drains the queue. -/
def drainQueue (a : Actor) : Option System :=
  match s.pc a with
  | .claimed c fd reason =>
    some ({ s with core := { s.core with pending := [] } }.setPc a (.drained c fd reason s.core.finalize))
  | _ => none

/-- `finalize_locked_state`: write and fsync; a failed write leaves what it leaves. -/
def write (a : Actor) (failure : Option (String × List UInt8)) : Option System :=
  match s.pc a with
  | .drained c fd reason f =>
    let res : FinalizeResult :=
      { ok := failure.isNone
        error := (failure.map Prod.fst).getD ""
        path := fd.getD []
        size := f.blob.length
        records := f.records
        dropped := f.dropped
        reason := reason }
    let content := (failure.map Prod.snd).getD f.blob
    let files := match fd with
      | some path => Function.update s.files path (some content)
      | none => s.files
    some ({ s with files := files }.setPc a (.written c res))
  | _ => none

/-- The section of `stop_impl` that publishes the result. -/
def publish (a : Actor) : Option System :=
  match s.pc a with
  | .written c res =>
    some ({ s with
      last := some res
      completions := s.completions.modify c fun f => { f with result := some res }
      finalizing := if s.finalizing = some c then none else s.finalizing
      core := { s.core with state := .idle } }.setPc a (.leaving (some c) res))
  | _ => none

/-- The end of `stop_impl`: a stop drains the timer it kept, a timer calls back and returns. -/
def leave (a : Actor) : Option System :=
  match s.pc a with
  | .leaving c res =>
    match a with
    | .timer _ => some (s.setPc a (.gone c (some res)))
    | .stop i =>
      match s.join i with
      | some d => (s.drainTimer d).map fun s => s.setPc a (.gone c (some res))
      | none => some (s.setPc a (.gone c (some res)))
  | _ => none

/-- The sleep of a timer ends. -/
def wake (n : ℕ) : Option System :=
  match s.pc (.timer n) with
  | .asleep => some (s.setPc (.timer n) (if s.cancelled n then .gone none none else .awake))
  | _ => none

/-- The section of `run_timer` that checks state and generation. -/
def check (n : ℕ) : Option System :=
  match s.pc (.timer n) with
  | .awake =>
    if s.core.state ≠ .recording ∨ s.armed n ≠ s.generation then some (s.setPc (.timer n) (.gone none none))
    else some (s.setPc (.timer n) (.enter "expired"))
  | _ => none

/-- The head of `start_impl`. -/
def start (i : ℕ) (path : Path) (duration : ℕ) (inCallback : Bool) : Option System :=
  match s.starter i with
  | .out =>
    if inCallback then some (s.setStarter i (.rejected "trace recorder expiry callback cannot start recording"))
    else if duration < 1 ∨ 3600 < duration then some (s.setStarter i (.rejected "duration_sec out of bounds [1, 3600]"))
    else if path.head? ≠ some '/' then some (s.setStarter i (.rejected "trace output path must be absolute"))
    else some (s.setStarter i (.gate false path))
  | _ => none

/-- The section of `drain_stale_idle_timer`. -/
def gate (i : ℕ) : Option System :=
  match s.starter i with
  | .gate second path =>
    if s.core.state ≠ .idle then some (s.setStarter i (.rejected "trace recording already in progress"))
    else
      match s.timerDrain with
      | some d =>
        if s.drained d then some (s.setStarter i (if second then .committing path else .opening path))
        else some (s.setStarter i (.draining second path d))
      | none => some (s.setStarter i (if second then .committing path else .opening path))
  | _ => none

/-- A start has waited for a stale timer. -/
def drainStale (i : ℕ) : Option System :=
  match s.starter i with
  | .draining second path d => (s.drainTimer d).map fun s => s.setStarter i (.gate second path)
  | _ => none

/-- The open of the output, without truncation; `refused` is the error of `open` or `fstat`. -/
def openOutput (i : ℕ) (refused : Option String) : Option System :=
  match s.starter i with
  | .opening path =>
    match refused with
    | some error => some (s.setStarter i (.rejected error))
    | none =>
      some ({ s with files := Function.update s.files path (some ((s.files path).getD [])) }.setStarter i
        (.gate true path))
  | _ => none

/-- The winner of the starts: the file is truncated and the timer armed. -/
def beginRecording (path : Path) : System :=
  { s with
    core := { s.core with state := .recording, pending := [], dropped := 0 }
    generation := s.generation + 1
    files := Function.update s.files path (some [])
    fd := some path
    last := none
    started := s.started + 1
    timerDrain := some (s.started + 1)
    armed := Function.update s.armed (s.started + 1) (s.generation + 1)
    pc := Function.update s.pc (.timer (s.started + 1)) .asleep }

/-- The section of `start_impl` that begins the recording; `refused` is the error of `ftruncate`. -/
def commit (i : ℕ) (refused : Option String) : Option System :=
  match s.starter i with
  | .committing path =>
    if s.core.state ≠ .idle then some (s.setStarter i (.rejected "trace recording already in progress"))
    else
      match refused with
      | some error =>
        some (s.setStarter i (.rejected ("cannot truncate trace output " ++ String.ofList path ++ ": " ++ error)))
      | none => some ((s.beginRecording path).setStarter i .accepted)
  | _ => none

end System

/-! ### Runs -/

/-- What can happen. -/
inductive Act
  | record (read : Read)
  | start (i : ℕ) (path : Path) (duration : ℕ) (inCallback : Bool)
  | gate (i : ℕ)
  | drainStale (i : ℕ)
  | openOutput (i : ℕ) (refused : Option String)
  | commit (i : ℕ) (refused : Option String)
  | wake (n : ℕ)
  | check (n : ℕ)
  | stop (i : ℕ) (reason : String)
  | stopSection (a : Actor)
  | drainQueue (a : Actor)
  | write (a : Actor) (failure : Option (String × List UInt8))
  | publish (a : Actor)
  | leave (a : Actor)

/-- One step. -/
def step (s : System) : Act → Option System
  | .record read => some { s with core := s.core.record read }
  | .start i path duration inCallback => s.start i path duration inCallback
  | .gate i => s.gate i
  | .drainStale i => s.drainStale i
  | .openOutput i refused => s.openOutput i refused
  | .commit i refused => s.commit i refused
  | .wake n => s.wake n
  | .check n => s.check n
  | .stop i reason =>
    match s.pc (.stop i) with
    | .out => some (s.setPc (.stop i) (.enter reason))
    | _ => none
  | .stopSection a => s.stopSection a
  | .drainQueue a => s.drainQueue a
  | .write a failure => s.write a failure
  | .publish a => s.publish a
  | .leave a => s.leave a

/-- The step as a relation. -/
abbrev Steps (s : System) (a : Act) (s' : System) : Prop := step s a = some s'

/-- **A recording begins calmly**: where its last section finds no recording, the timer of the one before is drained. -/
def Calm (s : System) : Act → Prop
  | .commit _ _ => s.core.state = .idle → s.timerDrain.all s.drained = true
  | _ => True

instance (s : System) (a : Act) : Decidable (Calm s a) := by
  cases a <;> unfold Calm <;> infer_instance

/-! ### What every section keeps -/

/-- A timer that has been armed and not returned. -/
def Pc.Alive : Pc → Prop
  | .out => False
  | .gone _ _ => False
  | _ => True

/-- The completion an owner works on. -/
def Pc.owns : Pc → Option ℕ
  | .claimed c _ _ => some c
  | .drained c _ _ _ => some c
  | .written c _ => some c
  | _ => none

/-- The completion a waiter has joined. -/
def Pc.joined : Pc → Option ℕ
  | .waiting c => some c
  | _ => none

/-- The completion and the result that is returned. -/
def Pc.returns : Pc → Option (ℕ × FinalizeResult)
  | .leaving (some c) res => some (c, res)
  | .gone (some c) (some res) => some (c, res)
  | _ => none

/-- The recordings that have been claimed. -/
def System.claimed (s : System) : List ℕ := s.completions.map Completion.recording

/-- **The timers**: one that has not returned is that of the latest recording, and is still to be drained. -/
structure Timers (s : System) : Prop where
  begun : ∀ k, s.pc (.timer k) ≠ .out → k ≤ s.started
  alive : ∀ k, (s.pc (.timer k)).Alive → k = s.started ∧ s.timerDrain = some k
  drained : ∀ d, s.drained d = true → s.pc (.timer d) ≠ .out ∧ ¬ (s.pc (.timer d)).Alive

/-- **The completions**: one for each recording but the active one, without a result exactly while its owner works on it. -/
structure Claims (s : System) : Prop where
  recording : s.core.state = .recording → 1 ≤ s.started ∧ ∃ path, s.fd = some path ∧ s.files path ≠ none
  finalizing : s.core.state = .finalizing →
    ∃ c f, s.finalizing = some c ∧ s.completions[c]? = some f ∧ f.recording = s.started
  owns : ∀ a c, (s.pc a).owns = some c → s.core.state = .finalizing ∧ s.finalizing = some c ∧
    ∃ f, s.completions[c]? = some f ∧ f.owner = a
  results : ∀ c f, s.completions[c]? = some f →
    (f.result = none ↔ s.core.state = .finalizing ∧ s.finalizing = some c)
  once : s.claimed.Nodup
  settled : ∀ k, k ∈ s.claimed ↔ 1 ≤ k ∧ k ≤ s.started ∧ ¬ (s.core.state = .recording ∧ k = s.started)
  joined : ∀ a c, (s.pc a).joined = some c → c < s.completions.length
  returns : ∀ a c res, (s.pc a).returns = some (c, res) → ∃ f, s.completions[c]? = some f ∧ f.result = some res

/-- A recording is finalised by a stop or by its own timer. -/
def Owners (s : System) : Prop := ∀ f ∈ s.completions, ∀ k, f.owner = .timer k → f.recording = k

variable {s s' t : System} {a : Actor} {p : Pc} {i n d : ℕ}

theorem timers_init (maxPending : ℕ) : Timers (System.init maxPending) := by
  constructor
  all_goals simp [System.init, Pc.Alive]

theorem claims_init (maxPending : ℕ) : Claims (System.init maxPending) := by
  constructor
  all_goals simp [System.init, Pc.owns, Pc.joined, Pc.returns, System.claimed]
  omega

/-! ### The timers -/

/-- An actor moves; a timer does so only while it is alive. -/
theorem Timers.move (h : Timers s) (hpc : t.pc = Function.update s.pc a p)
    (halive : ∀ n, a = .timer n → (s.pc a).Alive) (hnew : p ≠ .out) (hst : t.started = s.started)
    (htd : t.timerDrain = s.timerDrain) (hdr : t.drained = s.drained) : Timers t := by
  have hupd : ∀ b, t.pc b = if b = a then p else s.pc b := fun b => by rw [hpc, Function.update_apply]
  refine ⟨fun k hk => ?_, fun k hk => ?_, fun d hd => ?_⟩
  · rw [hst]
    rw [hupd] at hk
    by_cases heq : Actor.timer k = a
    · exact (h.alive k (heq ▸ halive k heq.symm)).1.le
    · rw [if_neg heq] at hk
      exact h.begun k hk
  · rw [hst, htd]
    rw [hupd] at hk
    by_cases heq : Actor.timer k = a
    · exact h.alive k (heq ▸ halive k heq.symm)
    · rw [if_neg heq] at hk
      exact h.alive k hk
  · rw [hdr] at hd
    obtain ⟨hne, hdead⟩ := h.drained d hd
    rw [hupd]
    by_cases heq : Actor.timer d = a
    · exact absurd (heq ▸ halive d heq.symm) hdead
    · rw [if_neg heq]
      exact ⟨hne, hdead⟩

/-- Nothing of it changes. -/
theorem Timers.congr (h : Timers s) (hpc : t.pc = s.pc) (hst : t.started = s.started) (htd : t.timerDrain = s.timerDrain)
    (hdr : t.drained = s.drained) : Timers t := by
  constructor
  · simpa only [hpc, hst] using h.begun
  · simpa only [hpc, hst, htd] using h.alive
  · simpa only [hpc, hdr] using h.drained

/-- A timer that has returned is drained. -/
theorem Timers.drainTimer (h : Timers s) (hd : s.drainTimer d = some t) : Timers t := by
  unfold System.drainTimer at hd
  split at hd
  · rename_i c res hgone
    obtain rfl := Option.some.inj hd
    refine ⟨h.begun, fun k hk => ?_, fun e he => ?_⟩
    · obtain ⟨hlast, hdrain⟩ := h.alive k hk
      have hne : k ≠ d := by
        rintro rfl
        have hk' : (s.pc (.timer k)).Alive := hk
        simp [hgone, Pc.Alive] at hk'
      refine ⟨hlast, ?_⟩
      simp only [hdrain]
      rw [if_neg (by simpa using hne)]
    · by_cases hed : e = d
      · subst hed
        simp [hgone, Pc.Alive]
      · have he' : Function.update s.drained d true e = true := he
        rw [Function.update_of_ne hed] at he'
        exact h.drained e he'
  · exact nomatch hd

/-- A recording begins where no timer is left. -/
theorem Timers.begin (h : Timers s) (hcalm : s.timerDrain.all s.drained = true)
    (hpc : t.pc = Function.update s.pc (.timer (s.started + 1)) .asleep) (hst : t.started = s.started + 1)
    (htd : t.timerDrain = some (s.started + 1)) (hdr : t.drained = s.drained) : Timers t := by
  have hdead : ∀ k, ¬ (s.pc (.timer k)).Alive := by
    intro k hk
    rw [(h.alive k hk).2] at hcalm
    exact (h.drained k (by simpa using hcalm)).2 hk
  have hupd : ∀ k, t.pc (.timer k) = if k = s.started + 1 then .asleep else s.pc (.timer k) := by
    intro k
    rw [hpc, Function.update_apply]
    simp
  refine ⟨fun k hk => ?_, fun k hk => ?_, fun d hd => ?_⟩
  · rw [hst]
    rw [hupd] at hk
    by_cases heq : k = s.started + 1
    · exact heq.le
    · rw [if_neg heq] at hk
      exact (h.begun k hk).trans (Nat.le_succ _)
  · rw [hst, htd]
    rw [hupd] at hk
    by_cases heq : k = s.started + 1
    · exact ⟨heq, by rw [heq]⟩
    · rw [if_neg heq] at hk
      exact absurd hk (hdead k)
  · rw [hdr] at hd
    obtain ⟨hne, hgone⟩ := h.drained d hd
    have hle := h.begun d hne
    rw [hupd, if_neg (by omega)]
    exact ⟨hne, hgone⟩

/-! ### The completions -/

/-- Nothing of it changes. -/
theorem Claims.congr (h : Claims s) (hpc : t.pc = s.pc) (hst : t.started = s.started)
    (hcore : t.core.state = s.core.state) (hfd : t.fd = s.fd)
    (hfiles : ∀ path, s.files path ≠ none → t.files path ≠ none) (hfin : t.finalizing = s.finalizing)
    (hcom : t.completions = s.completions) : Claims t := by
  constructor
  · rw [hcore, hst, hfd]
    intro hr
    obtain ⟨hone, path, hpath, hex⟩ := h.recording hr
    exact ⟨hone, path, hpath, hfiles path hex⟩
  · simpa only [hcore, hfin, hcom, hst] using h.finalizing
  · simpa only [hpc, hcore, hfin, hcom] using h.owns
  · simpa only [hcom, hcore, hfin] using h.results
  · simpa only [System.claimed, hcom] using h.once
  · simpa only [System.claimed, hcom, hst, hcore] using h.settled
  · simpa only [hpc, hcom] using h.joined
  · simpa only [hpc, hcom] using h.returns

/-- An actor moves: it owns no more than before, joins a completion and returns a published result. -/
theorem Claims.move (h : Claims s) (howns : ∀ c, p.owns = some c → (s.pc a).owns = some c)
    (hjoined : ∀ c, p.joined = some c → c < s.completions.length)
    (hreturns : ∀ c res, p.returns = some (c, res) → ∃ f, s.completions[c]? = some f ∧ f.result = some res) :
    Claims (s.setPc a p) := by
  have hupd : ∀ b, (s.setPc a p).pc b = if b = a then p else s.pc b := fun b => Function.update_apply ..
  refine ⟨h.recording, h.finalizing, fun b c hb => ?_, h.results, h.once, h.settled, fun b c hb => ?_,
    fun b c res hb => ?_⟩
  · rw [hupd] at hb
    by_cases heq : b = a
    · rw [if_pos heq] at hb
      exact heq ▸ h.owns a c (howns c hb)
    · rw [if_neg heq] at hb
      exact h.owns b c hb
  · rw [hupd] at hb
    by_cases heq : b = a
    · rw [if_pos heq] at hb
      exact hjoined c hb
    · rw [if_neg heq] at hb
      exact h.joined b c hb
  · rw [hupd] at hb
    by_cases heq : b = a
    · rw [if_pos heq] at hb
      exact hreturns c res hb
    · rw [if_neg heq] at hb
      exact h.returns b c res hb

/-- The recording is claimed. -/
theorem Claims.claim (h : Claims s) (hs : s.core.state = .recording) (a : Actor) (reason : String) :
    Claims (s.claim a reason) := by
  have hnone : ∀ b c, (s.pc b).owns ≠ some c := fun b c hb => by simp [(h.owns b c hb).1] at hs
  have hget : ∀ c, (s.claim a reason).completions[c]? =
      if c = s.completions.length then some ⟨s.started, a, none⟩ else s.completions[c]? := by
    intro c
    rw [System.claim]
    split_ifs with hc
    · rw [hc, List.getElem?_concat_length]
    · rcases Nat.lt_or_gt_of_ne hc with hlt | hgt
      · rw [List.getElem?_append_left hlt]
      · rw [List.getElem?_eq_none (by simp; omega), List.getElem?_eq_none (by omega)]
  have hupd : ∀ b, (s.claim a reason).pc b =
      if b = a then .claimed s.completions.length s.fd reason else s.pc b := fun b => Function.update_apply ..
  have hclaimed : (s.claim a reason).claimed = s.claimed ++ [s.started] := by
    simp [System.claimed, System.claim]
  obtain ⟨hone, -⟩ := h.recording hs
  have hfresh : s.started ∉ s.claimed := fun hin => ((h.settled _).mp hin).2.2 ⟨hs, rfl⟩
  refine ⟨(by rintro ⟨⟩), fun _ => ⟨_, _, rfl, by rw [hget, if_pos rfl], rfl⟩, fun b c hb => ?_,
    fun c f hf => ?_, ?_, fun k => ?_, fun b c hb => ?_, fun b c res hb => ?_⟩
  · rw [hupd] at hb
    by_cases heq : b = a
    · rw [if_pos heq] at hb
      obtain rfl := Option.some.inj hb
      exact ⟨rfl, rfl, _, by rw [hget, if_pos rfl], heq.symm⟩
    · rw [if_neg heq] at hb
      exact absurd hb (hnone b c)
  · rw [hget] at hf
    by_cases hc : c = s.completions.length
    · rw [if_pos hc] at hf
      obtain rfl := Option.some.inj hf
      simp [System.claim, hc]
    · rw [if_neg hc] at hf
      refine iff_of_false (fun hr => ?_) fun hr => hc (Option.some.inj hr.2).symm
      simp [((h.results c f hf).mp hr).1] at hs
  · rw [hclaimed]
    refine List.nodup_append.mpr ⟨h.once, List.nodup_singleton _, ?_⟩
    rintro k hk _ hk' rfl
    rw [List.mem_singleton.mp hk'] at hk
    exact hfresh hk
  · rw [hclaimed, List.mem_append, h.settled, List.mem_singleton]
    simp only [hs, true_and, System.claim, reduceCtorEq, false_and, not_false_eq_true, and_true]
    omega
  · rw [hupd] at hb
    by_cases heq : b = a
    · rw [if_pos heq] at hb
      cases hb
    · rw [if_neg heq] at hb
      have := h.joined b c hb
      simp only [System.claim, List.length_append, List.length_singleton]
      omega
  · rw [hupd] at hb
    by_cases heq : b = a
    · rw [if_pos heq] at hb
      cases hb
    · rw [if_neg heq] at hb
      obtain ⟨f, hf, hres⟩ := h.returns b c res hb
      have hlt := (List.getElem?_eq_some_iff.mp hf).1
      exact ⟨f, by rw [hget, if_neg (by omega), hf], hres⟩

/-- What publishing makes of the completions. -/
theorem getElem?_publish (l : List Completion) (c e : ℕ) (res : FinalizeResult) :
    (l.modify c fun f => { f with result := some res })[e]? =
      (l[e]?).map fun f => if c = e then { f with result := some res } else f := by
  rw [List.getElem?_modify]
  rfl

/-- The owner publishes its result. -/
theorem Claims.publish (h : Claims s) (hp : s.publish a = some s') : Claims s' := by
  unfold System.publish at hp
  split at hp
  · rename_i c res hpc
    obtain rfl := Option.some.inj hp
    obtain ⟨hstate, hfin, f, hf, howner⟩ := h.owns a c (by rw [hpc]; rfl)
    set t : System := { s with
      last := some res
      completions := s.completions.modify c fun f => { f with result := some res }
      finalizing := if s.finalizing = some c then none else s.finalizing
      core := { s.core with state := .idle } } with ht
    have hupd : ∀ b, (t.setPc a (.leaving (some c) res)).pc b = if b = a then .leaving (some c) res else s.pc b :=
      fun b => Function.update_apply ..
    have hget : ∀ e, (t.setPc a (.leaving (some c) res)).completions[e]? =
        (s.completions[e]?).map fun f => if c = e then { f with result := some res } else f := fun e =>
      getElem?_publish s.completions c e res
    have hclaimed : (t.setPc a (.leaving (some c) res)).claimed = s.claimed := by
      refine List.ext_getElem? fun e => ?_
      rw [System.claimed, System.claimed, List.getElem?_map, List.getElem?_map, hget, Option.map_map]
      congr 1
      funext f
      simp only [Function.comp]
      split_ifs <;> rfl
    -- the publisher is the only owner
    have hsole : ∀ b e, (s.pc b).owns = some e → b = a := by
      intro b e hb
      obtain ⟨-, hfin', f', hf', howner'⟩ := h.owns b e hb
      obtain rfl := Option.some.inj (hfin.symm.trans hfin')
      rw [← howner, ← howner', Option.some.inj (hf.symm.trans hf')]
    refine ⟨fun hr => (nomatch hr), fun hr => (nomatch hr), fun b e hb => ?_, fun e g hg => ?_, hclaimed ▸ h.once,
      fun k => ?_, fun b e hb => ?_, fun b e r hb => ?_⟩
    · rw [hupd] at hb
      by_cases heq : b = a
      · rw [if_pos heq] at hb
        exact nomatch hb
      · rw [if_neg heq] at hb
        exact absurd (hsole b e hb) heq
    · rw [hget] at hg
      obtain ⟨g', hg', rfl⟩ := Option.map_eq_some_iff.mp hg
      refine iff_of_false ?_ fun hr => (nomatch hr.1)
      split_ifs with hce
      · simp
      · rw [h.results e g' hg']
        rintro ⟨-, hfin'⟩
        exact hce (Option.some.inj (hfin.symm.trans hfin'))
    · rw [hclaimed, h.settled]
      simp [hstate, ht, System.setPc]
    · rw [hupd] at hb
      by_cases heq : b = a
      · rw [if_pos heq] at hb
        exact nomatch hb
      · rw [if_neg heq] at hb
        show e < t.completions.length
        rw [ht, List.length_modify]
        exact h.joined b e hb
    · rw [hupd] at hb
      by_cases heq : b = a
      · rw [if_pos heq] at hb
        simp only [Pc.returns, Option.some.injEq, Prod.mk.injEq] at hb
        obtain ⟨rfl, rfl⟩ := hb
        refine ⟨{ f with result := some res }, ?_, rfl⟩
        rw [hget, hf]
        simp
      · rw [if_neg heq] at hb
        obtain ⟨g, hg, hres⟩ := h.returns b e r hb
        have hce : c ≠ e := by
          rintro rfl
          simp [(h.results c g hg).mpr ⟨hstate, hfin⟩] at hres
        refine ⟨g, ?_, hres⟩
        rw [hget, hg]
        simp [hce]
  · exact nomatch hp

/-- A recording begins. -/
theorem Claims.begin (h : Claims s) (hidle : s.core.state = .idle) {path : Path}
    (hpc : t.pc = Function.update s.pc (.timer (s.started + 1)) .asleep) (hst : t.started = s.started + 1)
    (hcore : t.core.state = .recording) (hfd : t.fd = some path) (hfile : t.files path ≠ none)
    (hfin : t.finalizing = s.finalizing) (hcom : t.completions = s.completions) : Claims t := by
  have hupd : ∀ b, t.pc b = if b = .timer (s.started + 1) then .asleep else s.pc b := fun b => by
    rw [hpc, Function.update_apply]
  have hclaimed : t.claimed = s.claimed := by rw [System.claimed, hcom, System.claimed]
  refine ⟨fun _ => ⟨by omega, path, hfd, hfile⟩, fun hr => ?_, fun b c hb => ?_, fun c f hf => ?_, hclaimed ▸ h.once,
    fun k => ?_, fun b c hb => ?_, fun b c res hb => ?_⟩
  · rw [hcore] at hr
    exact nomatch hr
  · rw [hupd] at hb
    by_cases heq : b = .timer (s.started + 1)
    · rw [if_pos heq] at hb
      exact nomatch hb
    · rw [if_neg heq] at hb
      have := (h.owns b c hb).1
      simp [hidle] at this
  · rw [hcom] at hf
    rw [h.results c f hf, hcore, hidle]
    simp
  · rw [hclaimed, h.settled, hst, hcore, hidle]
    simp only [reduceCtorEq, false_and, not_false_eq_true, and_true, true_and]
    omega
  · rw [hcom]
    rw [hupd] at hb
    by_cases heq : b = .timer (s.started + 1)
    · rw [if_pos heq] at hb
      exact nomatch hb
    · rw [if_neg heq] at hb
      exact h.joined b c hb
  · rw [hcom]
    rw [hupd] at hb
    by_cases heq : b = .timer (s.started + 1)
    · rw [if_pos heq] at hb
      exact nomatch hb
    · rw [if_neg heq] at hb
      exact h.returns b c res hb

/-! ### One step -/

/-- **What holds outside the sections.** -/
structure Inv (s : System) : Prop where
  timers : Timers s
  claims : Claims s
  owners : Owners s

theorem inv_init (maxPending : ℕ) : Inv (System.init maxPending) :=
  ⟨timers_init maxPending, claims_init maxPending, by simp [Owners, System.init]⟩

theorem Inv.quiet (h : Inv s) (hpc : t.pc = s.pc) (hst : t.started = s.started) (htd : t.timerDrain = s.timerDrain)
    (hdr : t.drained = s.drained) (hcore : t.core.state = s.core.state) (hfd : t.fd = s.fd)
    (hfiles : ∀ path, s.files path ≠ none → t.files path ≠ none) (hfin : t.finalizing = s.finalizing)
    (hcom : t.completions = s.completions) : Inv t :=
  ⟨h.timers.congr hpc hst htd hdr, h.claims.congr hpc hst hcore hfd hfiles hfin hcom, by
    rw [Owners, hcom]
    exact h.owners⟩

theorem Inv.setStarter (h : Inv s) (i : ℕ) (p : StartPc) : Inv (s.setStarter i p) :=
  h.quiet rfl rfl rfl rfl rfl rfl (fun _ hf => hf) rfl rfl

theorem Inv.keepDrain (h : Inv s) (a : Actor) : Inv (s.keepDrain a) := by
  cases a with
  | timer => exact h
  | stop i => exact h.quiet rfl rfl rfl rfl rfl rfl (fun _ hf => hf) rfl rfl

theorem keepDrain_eq (s : System) (a : Actor) : (s.keepDrain a).pc = s.pc ∧ (s.keepDrain a).core = s.core ∧
    (s.keepDrain a).completions = s.completions := by
  cases a <;> exact ⟨rfl, rfl, rfl⟩

theorem Inv.drainTimer (h : Inv s) (hd : s.drainTimer d = some t) : Inv t ∧ t.pc = s.pc ∧ t.core = s.core ∧
    t.completions = s.completions ∧ t.files = s.files := by
  have htimers := h.timers.drainTimer hd
  unfold System.drainTimer at hd
  split at hd
  · obtain rfl := Option.some.inj hd
    exact ⟨⟨htimers, h.claims.congr rfl rfl rfl rfl (fun _ hf => hf) rfl rfl, h.owners⟩, rfl, rfl, rfl, rfl⟩
  · exact nomatch hd

/-- An actor that is alive moves. -/
theorem Inv.move (h : Inv s) (halive : (s.pc a).Alive) (hnew : p ≠ .out)
    (howns : ∀ c, p.owns = some c → (s.pc a).owns = some c)
    (hjoined : ∀ c, p.joined = some c → c < s.completions.length)
    (hreturns : ∀ c res, p.returns = some (c, res) → ∃ f, s.completions[c]? = some f ∧ f.result = some res) :
    Inv (s.setPc a p) :=
  ⟨h.timers.move rfl (fun _ _ => halive) hnew rfl rfl rfl, h.claims.move howns hjoined hreturns, h.owners⟩

/-- A section of `stop_impl`. -/
theorem Inv.stopSection (h : Inv s) (hs : s.stopSection a = some s') : Inv s' := by
  unfold System.stopSection at hs
  split at hs
  · rename_i c hpc
    split at hs
    · rename_i res hres
      obtain rfl := Option.some.inj hs
      obtain ⟨f, hf, hfres⟩ := Option.bind_eq_some_iff.mp hres
      refine h.move (by simp [hpc, Pc.Alive]) (by simp) (by simp [Pc.owns]) (by simp [Pc.joined]) ?_
      rintro c' res' hret
      simp only [Pc.returns, Option.some.injEq, Prod.mk.injEq] at hret
      obtain ⟨rfl, rfl⟩ := hret
      exact ⟨f, hf, hfres⟩
    · exact Option.some.inj hs ▸ h
  · rename_i reason hpc
    obtain ⟨hkpc, hkcore, hkcom⟩ := keepDrain_eq s a
    have hk := h.keepDrain a
    have halive : ((s.keepDrain a).pc a).Alive := by simp [hkpc, hpc, Pc.Alive]
    split at hs
    · -- another one finalises
      rename_i hstate
      obtain ⟨c, hc, rfl⟩ := Option.map_eq_some_iff.mp hs
      obtain ⟨c', f, hc', hf, -⟩ := h.claims.finalizing hstate
      obtain rfl := Option.some.inj (hc.symm.trans hc')
      refine hk.move halive (by simp) (by simp [Pc.owns]) (fun e he => ?_) (by simp [Pc.returns])
      simp only [Pc.joined, Option.some.injEq] at he
      rw [hkcom, ← he]
      exact (List.getElem?_eq_some_iff.mp hf).1
    · obtain rfl := Option.some.inj hs
      exact hk.move halive (by simp) (by simp [Pc.owns]) (by simp [Pc.joined]) (by simp [Pc.returns])
    · rename_i hstate
      obtain rfl := Option.some.inj hs
      have hkstate : (s.keepDrain a).core.state = .recording := by rw [hkcore, hstate]
      refine ⟨hk.timers.move rfl (fun _ _ => halive) (by simp) rfl rfl rfl, hk.claims.claim hkstate a reason,
        fun f hf k hfk => ?_⟩
      rcases List.mem_append.mp hf with hf | hf
      · exact hk.owners f hf k hfk
      · -- a timer that gets here is that of the recording it claims
        obtain rfl := List.mem_singleton.mp hf
        have ha : a = .timer k := hfk
        exact (hk.timers.alive k (ha ▸ halive)).1.symm
  · exact nomatch hs

/-- The owner publishes. -/
theorem Inv.publish (h : Inv s) (hp : s.publish a = some s') : Inv s' := by
  have hclaims := h.claims.publish hp
  unfold System.publish at hp
  split at hp
  · rename_i c res hpc
    obtain rfl := Option.some.inj hp
    have halive : (s.pc a).Alive := by simp [hpc, Pc.Alive]
    refine ⟨h.timers.move rfl (fun _ _ => halive) (by simp) rfl rfl rfl, hclaims, fun f hf k hk => ?_⟩
    obtain ⟨e, he⟩ := List.mem_iff_getElem?.mp hf
    have he' : (s.completions.modify c fun f => { f with result := some res })[e]? = some f := he
    rw [getElem?_publish] at he'
    obtain ⟨g, hg, rfl⟩ := Option.map_eq_some_iff.mp he'
    have howner := h.owners g (List.mem_of_getElem? hg) k
    by_cases hce : c = e
    · rw [if_pos hce] at hk ⊢
      exact howner hk
    · rw [if_neg hce] at hk ⊢
      exact howner hk
  · exact nomatch hp

/-- A start begins its recording, or not. -/
theorem Inv.commit (h : Inv s) {refused : Option String} (hcalm : Calm s (.commit i refused))
    (hc : s.commit i refused = some s') : Inv s' := by
  unfold System.commit at hc
  split at hc
  · rename_i path hpc
    by_cases hidle : s.core.state = .idle
    · rw [if_neg (by simp [hidle])] at hc
      split at hc
      · exact Option.some.inj hc ▸ h.setStarter i _
      · obtain rfl := Option.some.inj hc
        have hfile : (s.beginRecording path).files path ≠ none := by simp [System.beginRecording]
        have hbegun : Inv (s.beginRecording path) :=
          ⟨h.timers.begin (hcalm hidle) rfl rfl rfl rfl, h.claims.begin hidle rfl rfl rfl rfl hfile rfl rfl, h.owners⟩
        exact hbegun.setStarter i _
    · rw [if_pos hidle] at hc
      exact Option.some.inj hc ▸ h.setStarter i _
  · exact nomatch hc

theorem record_state (r : Recorder) (read : Read) : (r.record read).state = r.state := by
  unfold Recorder.record
  split_ifs
  · rfl
  · rfl
  · rfl
  · exact recordLoop_frame.2

theorem Inv.start (h : Inv s) {path : Path} {duration : ℕ} {inCallback : Bool}
    (hs : s.start i path duration inCallback = some s') : Inv s' := by
  unfold System.start at hs
  split at hs
  · split_ifs at hs
    all_goals exact Option.some.inj hs ▸ h.setStarter i _
  · exact nomatch hs

theorem Inv.gate (h : Inv s) (hs : s.gate i = some s') : Inv s' := by
  unfold System.gate at hs
  split at hs
  · by_cases hidle : s.core.state = .idle
    · rw [if_neg (by simp [hidle])] at hs
      split at hs
      · split at hs
        · exact Option.some.inj hs ▸ h.setStarter i _
        · exact Option.some.inj hs ▸ h.setStarter i _
      · exact Option.some.inj hs ▸ h.setStarter i _
    · rw [if_pos hidle] at hs
      exact Option.some.inj hs ▸ h.setStarter i _
  · exact nomatch hs

theorem Inv.drainStale (h : Inv s) (hs : s.drainStale i = some s') : Inv s' := by
  unfold System.drainStale at hs
  split at hs
  · obtain ⟨t, ht, rfl⟩ := Option.map_eq_some_iff.mp hs
    exact (h.drainTimer ht).1.setStarter i _
  · exact nomatch hs

theorem Inv.openOutput (h : Inv s) {refused : Option String} (hs : s.openOutput i refused = some s') : Inv s' := by
  unfold System.openOutput at hs
  split at hs
  · rename_i path hpc
    split at hs
    · exact Option.some.inj hs ▸ h.setStarter i _
    · obtain rfl := Option.some.inj hs
      have hopened : Inv { s with files := Function.update s.files path (some ((s.files path).getD [])) } := by
        refine h.quiet rfl rfl rfl rfl rfl rfl (fun path' hf => ?_) rfl rfl
        simp only [Function.update_apply]
        split_ifs
        · simp
        · exact hf
      exact hopened.setStarter i _
  · exact nomatch hs

/-- The timer before it enters `stop_impl`. -/
theorem Inv.timer (h : Inv s) (hs : s.wake n = some s' ∨ s.check n = some s') : Inv s' := by
  rcases hs with hs | hs
  · unfold System.wake at hs
    split at hs
    · rename_i hpc
      obtain rfl := Option.some.inj hs
      have halive : (s.pc (.timer n)).Alive := by simp [hpc, Pc.Alive]
      by_cases hcan : s.cancelled n = true
      · rw [if_pos hcan]
        exact h.move halive (by simp) (by simp [Pc.owns]) (by simp [Pc.joined]) (by simp [Pc.returns])
      · rw [if_neg hcan]
        exact h.move halive (by simp) (by simp [Pc.owns]) (by simp [Pc.joined]) (by simp [Pc.returns])
    · exact nomatch hs
  · unfold System.check at hs
    split at hs
    · rename_i hpc
      have halive : (s.pc (.timer n)).Alive := by simp [hpc, Pc.Alive]
      split_ifs at hs
      all_goals
        obtain rfl := Option.some.inj hs
        exact h.move halive (by simp) (by simp [Pc.owns]) (by simp [Pc.joined]) (by simp [Pc.returns])
    · exact nomatch hs

/-- The owner between its two sections. -/
theorem Inv.owner (h : Inv s) {failure : Option (String × List UInt8)}
    (hs : s.drainQueue a = some s' ∨ s.write a failure = some s') : Inv s' := by
  rcases hs with hs | hs
  · unfold System.drainQueue at hs
    split at hs
    · rename_i c fd reason hpc
      obtain rfl := Option.some.inj hs
      have hq : Inv { s with core := { s.core with pending := [] } } :=
        h.quiet rfl rfl rfl rfl rfl rfl (fun _ hf => hf) rfl rfl
      refine hq.move (by simp [hpc, Pc.Alive]) (by simp) ?_ (by simp [Pc.joined]) (by simp [Pc.returns])
      simp [hpc, Pc.owns]
    · exact nomatch hs
  · unfold System.write at hs
    split at hs
    · rename_i c fd reason f hpc
      obtain rfl := Option.some.inj hs
      refine Inv.move (h.quiet rfl rfl rfl rfl rfl rfl (fun path hf => ?_) rfl rfl) (by simp [hpc, Pc.Alive]) (by simp) ?_
        (by simp [Pc.joined]) (by simp [Pc.returns])
      · cases fd with
        | none => exact hf
        | some out =>
          show Function.update s.files out _ path ≠ none
          rw [Function.update_apply]
          split_ifs
          · simp
          · exact hf
      · simp [hpc, Pc.owns]
    · exact nomatch hs

theorem Inv.leave (h : Inv s) (hs : s.leave a = some s') : Inv s' := by
  unfold System.leave at hs
  split at hs
  · rename_i c res hpc
    -- what is returned was published
    have hgone : ∀ {t : System}, Inv t → t.pc = s.pc → t.completions = s.completions →
        Inv (t.setPc a (.gone c (some res))) := by
      intro t ht htpc htcom
      refine ht.move (by simp [htpc, hpc, Pc.Alive]) (by simp) (by simp [Pc.owns]) (by simp [Pc.joined]) ?_
      rintro c' res' hret
      rw [htcom]
      refine h.claims.returns a c' res' ?_
      cases c with
      | none => exact nomatch hret
      | some c => rw [hpc]; exact hret
    split at hs
    · obtain rfl := Option.some.inj hs
      exact hgone h rfl rfl
    · split at hs
      · obtain ⟨t, ht, rfl⟩ := Option.map_eq_some_iff.mp hs
        obtain ⟨hi, hpc', -, hcom, -⟩ := h.drainTimer ht
        exact hgone hi hpc' hcom
      · obtain rfl := Option.some.inj hs
        exact hgone h rfl rfl
  · exact nomatch hs

/-- **Every step keeps it**, if recordings begin calmly. -/
theorem Inv.step (h : Inv s) {act : Act} (hcalm : Calm s act) (hs : step s act = some s') : Inv s' := by
  cases act with
  | record read =>
    obtain rfl := Option.some.inj hs
    exact h.quiet rfl rfl rfl rfl (record_state _ _) rfl (fun _ hf => hf) rfl rfl
  | start i path duration inCallback => exact h.start hs
  | gate i => exact h.gate hs
  | drainStale i => exact h.drainStale hs
  | openOutput i refused => exact h.openOutput hs
  | commit i refused => exact h.commit hcalm hs
  | wake n => exact h.timer (.inl hs)
  | check n => exact h.timer (.inr hs)
  | stop i reason =>
    simp only [Tracing.step] at hs
    split at hs
    · rename_i hpc
      obtain rfl := Option.some.inj hs
      exact ⟨h.timers.move rfl (by simp) (by simp) rfl rfl rfl,
        h.claims.move (by simp [Pc.owns]) (by simp [Pc.joined]) (by simp [Pc.returns]), h.owners⟩
    · exact nomatch hs
  | stopSection a => exact h.stopSection hs
  | drainQueue a => exact @Inv.owner _ _ _ h none (.inl hs)
  | write a failure => exact h.owner (.inr hs)
  | publish a => exact h.publish hs
  | leave a => exact h.leave hs

/-! ### Whole runs -/

/-- The start whose section this is. -/
def Act.starter : Act → Option ℕ
  | .start i _ _ _ => some i
  | .gate i => some i
  | .drainStale i => some i
  | .openOutput i _ => some i
  | .commit i _ => some i
  | _ => none

/-- **A start that is refused** changes neither queue nor state, and no file that is there. -/
theorem refused_start {act : Act} (hi : act.starter = some i) (hs : step s act = some s')
    (href : s'.starter i ≠ .accepted) :
    s'.core = s.core ∧ s'.fd = s.fd ∧ ∀ path, s.files path ≠ none → s'.files path = s.files path := by
  have hmove : ∀ p, (s.setStarter i p).core = s.core ∧ (s.setStarter i p).fd = s.fd ∧
      ∀ path, s.files path ≠ none → (s.setStarter i p).files path = s.files path := fun p => ⟨rfl, rfl, fun _ _ => rfl⟩
  cases act with
  | record | wake | check | stop | stopSection | drainQueue | write | publish | leave => exact nomatch hi
  | start j path duration inCallback =>
    obtain rfl := Option.some.inj hi
    simp only [step, System.start] at hs
    split at hs
    · split_ifs at hs
      all_goals exact Option.some.inj hs ▸ hmove _
    · exact nomatch hs
  | gate j =>
    obtain rfl := Option.some.inj hi
    simp only [step, System.gate] at hs
    split at hs
    · split at hs
      · exact Option.some.inj hs ▸ hmove _
      · split at hs
        · split at hs
          · exact Option.some.inj hs ▸ hmove _
          · exact Option.some.inj hs ▸ hmove _
        · exact Option.some.inj hs ▸ hmove _
    · exact nomatch hs
  | drainStale j =>
    simp only [step, System.drainStale] at hs
    split at hs
    · obtain ⟨t, ht, rfl⟩ := Option.map_eq_some_iff.mp hs
      unfold System.drainTimer at ht
      split at ht
      · obtain rfl := Option.some.inj ht
        exact ⟨rfl, rfl, fun _ _ => rfl⟩
      · exact nomatch ht
    · exact nomatch hs
  | openOutput j refused =>
    obtain rfl := Option.some.inj hi
    simp only [step, System.openOutput] at hs
    split at hs
    · rename_i path hpc
      split at hs
      · exact Option.some.inj hs ▸ hmove _
      · obtain rfl := Option.some.inj hs
        refine ⟨rfl, rfl, fun path' hf => ?_⟩
        simp only [System.setStarter, Function.update_apply]
        split_ifs with heq
        · -- opened without truncation
          obtain ⟨content, hcontent⟩ := Option.ne_none_iff_exists'.mp hf
          rw [← heq, hcontent]
          rfl
        · rfl
    · exact nomatch hs
  | commit j refused =>
    obtain rfl := Option.some.inj hi
    simp only [step, System.commit] at hs
    split at hs
    · split at hs
      · exact Option.some.inj hs ▸ hmove _
      · split at hs
        · exact Option.some.inj hs ▸ hmove _
        · obtain rfl := Option.some.inj hs
          simp [System.setStarter] at href
    · exact nomatch hs

/-- **Recordings and their owners.** -/
structure Owned (s : System) : Prop where
  /-- No recording is claimed twice, and each but the active one has been. -/
  once : s.claimed.Nodup
  settled : ∀ k, k ∈ s.claimed ↔ 1 ≤ k ∧ k ≤ s.started ∧ ¬ (s.core.state = .recording ∧ k = s.started)
  /-- A claimed recording has its result unless it is being finalised. -/
  results : ∀ c f, s.completions[c]? = some f →
    (f.result = none ↔ s.core.state = .finalizing ∧ s.finalizing = some c)
  /-- A timer finalises only the recording it was armed for. -/
  owners : ∀ f ∈ s.completions, ∀ k, f.owner = .timer k → f.recording = k
  /-- A stop that joined a finalisation, or owned it, returns its result. -/
  returns : ∀ i c res, s.pc (.stop i) = .gone (some c) (some res) → ∃ f, s.completions[c]? = some f ∧ f.result = some res
  /-- The file of the active recording is there. -/
  file : s.core.state = .recording → ∃ path, s.fd = some path ∧ s.files path ≠ none

/-- **Every recording is finalised by its own owner**: along every run whose recordings begin calmly, each is finalised once,
by a stop or by its own timer, who joins a finalisation returns its result, and a refused start changes neither the queue nor
a file that is there. -/
theorem recordings_owned {maxPending : ℕ} (h : Reaches Steps Calm (System.init maxPending) s) :
    Owned s ∧ ∀ act i s', act.starter = some i → step s act = some s' → s'.starter i ≠ .accepted →
      s'.core = s.core ∧ s'.fd = s.fd ∧ ∀ path, s.files path ≠ none → s'.files path = s.files path := by
  have hinv : Inv s := h.invariant (inv_init maxPending) fun s a s' hi hcalm hs => hi.step hcalm hs
  refine ⟨⟨hinv.claims.once, hinv.claims.settled, hinv.claims.results, hinv.owners, fun i c res hpc => ?_, fun hr => ?_⟩,
    fun act i s' hi hs href => refused_start hi hs href⟩
  · exact hinv.claims.returns (.stop i) c res (by rw [hpc]; rfl)
  · exact (hinv.claims.recording hr).2

/-- A timer that finalises its recording, and a stop that joins it. -/
def calmRun : List Act :=
  [.start 1 ['/'] 1 false, .gate 1, .openOutput 1 none, .gate 1, .commit 1 none, .wake 1, .check 1,
   .stopSection (.timer 1), .stop 0 "stopped", .stopSection (.stop 0), .drainQueue (.timer 1), .write (.timer 1) none,
   .publish (.timer 1), .stopSection (.stop 0), .leave (.timer 1), .leave (.stop 0)]

theorem recordings_owned_joined : ∃ s, Reaches Steps Calm (System.init 4) s ∧ s.claimed = [1] ∧ Owned s := by
  have h : ((exec step Calm (System.init 4) calmRun).map System.claimed) = some [1] := by rfl
  obtain ⟨s, hs, hclaimed⟩ := Option.map_eq_some_iff.mp h
  exact ⟨s, reaches_of_exec hs, hclaimed, (recordings_owned (reaches_of_exec hs)).1⟩

/-- The timer of one recording claims the next. -/
def staleRun : List Act :=
  [.start 1 ['/'] 1 false, .gate 1, .openOutput 1 none, .gate 1,
   .start 2 ['/'] 1 false, .gate 2, .openOutput 2 none, .gate 2, .commit 2 none,
   .wake 1, .check 1,
   .stop 0 "stopped", .stopSection (.stop 0), .drainQueue (.stop 0), .write (.stop 0) none, .publish (.stop 0),
   .commit 1 none, .stopSection (.timer 1)]

/-- **The timer of one recording finalises the next**: start 1 has passed its check, start 2 records, its timer passes the
check of the generation, a stop finalises the recording, start 1 begins another, and the timer claims that one. -/
theorem stale_timer_finalises :
    ∃ s, Reaches Steps always (System.init 4) s ∧ ∃ f ∈ s.completions, f.owner = .timer 1 ∧ f.recording = 2 := by
  have h : ((exec step always (System.init 4) staleRun).map fun s =>
      s.completions.map fun f => (f.owner, f.recording)) = some [(.stop 0, 1), (.timer 1, 2)] := by rfl
  obtain ⟨s, hs, hmap⟩ := Option.map_eq_some_iff.mp h
  refine ⟨s, reaches_of_exec hs, ?_⟩
  have hmem : (Actor.timer 1, 2) ∈ s.completions.map fun f => (f.owner, f.recording) := by
    rw [hmap]
    simp
  obtain ⟨f, hf, heq⟩ := List.mem_map.mp hmem
  simp only [Prod.mk.injEq] at heq
  exact ⟨f, hf, heq⟩

end OverlayBD.Tracing
