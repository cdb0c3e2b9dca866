import Mathlib.Algebra.GroupWithZero.Nat
import OverlayBD.Lib.Transition

/-!
# Commands of a device and their replies (`supervisor/daemon.cpp`)

The supervisor forwards one command at a time to a device.  An admitted command occupies the slot `active_command` of its
entry until one of four parties gives it up under the registry mutex: the router with the reply that carries its number, the
router with a reply past the deadline, the handler of a closed channel, or the command's own handler.  The handler keeps the
operation object across its suspensions and takes its result from there.

## The model

* `Entry` — one device entry, the operation of every handler and where the handler stands; a handler and its operation have
  one name.
* `Reply` — a line of the device with the fields the supervisor looks at; lines may be late, duplicated, stale or malformed.
* `Act`, `step` — the sections under the mutex, and what happens between them.

## What is proved

* `Inv.step` — the slot holds the one operation that is running and not terminal.
* `commands_correlate` — every command completes once, with the reply that carries its number or with an error; a reply
  completes no other command; and a finished command does not hold the slot.
-/

namespace OverlayBD.DeviceCommand

open Transition

/-! ### Replies -/

/-- The kind of a command. -/
inductive Kind
  | traceStart
  | traceStop
  | resize
deriving DecidableEq, Repr

/-- The name of a kind. -/
def Kind.name : Kind → String
  | traceStart => "trace_start"
  | traceStop => "trace_stop"
  | resize => "resize"

/-- A line with a `reply` field.  A field is `none` where it is missing or has the wrong type. -/
structure Reply where
  reply : String
  seq : Option ℕ := none
  ok : Option Bool := none
  error : Option String := none
  path : Option String := none
  duration : Option ℕ := none
  sha256 : Option String := none
  size : Option ℕ := none
  records : Option ℕ := none
  dropped : Option ℕ := none
deriving DecidableEq, Repr

/-- `bool_or(reply, "ok", false)`. -/
def Reply.isOk (r : Reply) : Bool := r.ok.getD false

/-- `trace_reply_validation_error`. -/
def traceReplyValidationError (kind : Kind) (r : Reply) : Option String :=
  if kind = .resize then none
  else if r.reply ≠ kind.name then some ("malformed " ++ kind.name ++ " reply")
  else if r.isOk = false then none
  else if kind = .traceStart then
    if r.path.isNone ∨ r.duration.isNone then some "malformed trace_start reply" else none
  else if r.path.isNone ∨ r.sha256.isNone ∨ r.size.isNone ∨ r.records.isNone ∨ r.dropped.isNone then
    some "malformed trace_stop reply"
  else none

/-- What a client gets. -/
inductive Outcome
  | reply (r : Reply)
  | error (what : String)
deriving DecidableEq, Repr

/-- The end of `execute`, on the reply it took. -/
def Outcome.ofReply : Option Reply → Outcome
  | some r => if r.isOk then .reply r else .error (r.error.getD "device rejected the command")
  | none => .error "device rejected the command"

/-! ### The entry -/

/-- `DeviceCommand`. -/
structure Operation where
  seq : ℕ := 0
  kind : Kind := .resize
  /-- `waiter` is set. -/
  signalled : Bool := false
  terminal : Bool := false
  reply : Option Reply := none
  /-- `reply_deadline` is set. -/
  deadline : Bool := false

/-- Where a handler stands. -/
inductive Pc
  | out
  | rejected (what : String)
  /-- In front of the write of the command. -/
  | admitted
  /-- In front of the section that sets the deadline. -/
  | written
  /-- In `with_timeout`. -/
  | waiting
  /-- In front of the section that takes the reply. -/
  | woken (got : Bool)
  /-- In front of the last `fail_pending`. -/
  | finishing (o : Outcome)
  | done (o : Outcome)
deriving DecidableEq

namespace Pc

/-- The command is admitted and the handler has not returned. -/
def running : Pc → Bool
  | admitted => true
  | written => true
  | waiting => true
  | woken _ => true
  | finishing _ => true
  | _ => false

/-- The command was admitted. -/
def entered : Pc → Bool
  | out => false
  | rejected _ => false
  | _ => true

/-- The result the handler has. -/
def outcome : Pc → Option Outcome
  | finishing o => some o
  | done o => some o
  | _ => none

/-- How many steps the handler still takes. -/
def rank : Pc → ℕ
  | admitted => 5
  | written => 4
  | waiting => 3
  | woken _ => 2
  | finishing _ => 1
  | _ => 0

/-- How often the handler returned with a result. -/
def completed : Pc → ℕ
  | done _ => 1
  | _ => 0

end Pc

/-- `DeviceEntry`. -/
structure Entry where
  id : String
  /-- `active_command`. -/
  active : Option ℕ
  cmdSeq : ℕ
  /-- `control` is there and the device is ready. -/
  control : Bool
  op : ℕ → Operation
  pc : ℕ → Pc
  /-- `closing_operation` of the monitor. -/
  closing : Option ℕ

namespace Entry

variable (s : Entry)

/-- An entry without commands. -/
def init (id : String) : Entry := ⟨id, none, 0, true, fun _ => {}, fun _ => .out, none⟩

/-- A handler moves. -/
def setPc (i : ℕ) (p : Pc) : Entry := { s with pc := Function.update s.pc i p }

/-- An operation changes. -/
def setOp (i : ℕ) (o : Operation) : Entry := { s with op := Function.update s.op i o }

/-- The operation is terminal and the slot is free. -/
def retire (i : ℕ) : Entry := { s.setOp i { s.op i with terminal := true } with active := none }

/-- `fail_pending`: a handler retires its own operation, if it is in the slot. -/
def failPending (i : ℕ) : Entry := if s.active = some i then s.retire i else s

/-- The admission of `forward_device_command`. -/
def forward (i : ℕ) (kind : Kind) : Option Entry :=
  match s.pc i with
  | .out =>
    match s.active with
    | some _ => some (s.setPc i (.rejected ("another device command is in flight: " ++ s.id)))
    | none =>
      if s.control then
        some { s with
          active := some i
          cmdSeq := s.cmdSeq + 1
          op := Function.update s.op i { seq := s.cmdSeq + 1, kind := kind }
          pc := Function.update s.pc i .admitted }
      else some (s.setPc i (.rejected ("device control channel unavailable: " ++ s.id)))
  | _ => none

/-- `write_device_line`. -/
def write (i : ℕ) (ok : Bool) : Option Entry :=
  match s.pc i with
  | .admitted =>
    if ok then some (s.setPc i .written)
    else some ((s.failPending i).setPc i (.finishing (.error ("cannot reach the device control channel: " ++ s.id))))
  | _ => none

/-- The section that sets the deadline. -/
def setDeadline (i : ℕ) : Option Entry :=
  match s.pc i with
  | .written =>
    let t := if s.active = some i then s.setOp i { s.op i with deadline := true } else s
    some (t.setPc i .waiting)
  | _ => none

/-- The end of `with_timeout`. -/
def wake (i : ℕ) (got : Bool) : Option Entry :=
  match s.pc i with
  | .waiting => if got && !(s.op i).signalled then none else some (s.setPc i (.woken got))
  | _ => none

/-- The section that takes the reply. -/
def collect (i : ℕ) : Option Entry :=
  match s.pc i with
  | .woken got =>
    if got then some (s.setPc i (.finishing (.ofReply (if (s.op i).terminal then (s.op i).reply else none))))
    else some ((s.failPending i).setPc i (.finishing (.error ("device control channel timeout: " ++ s.id))))
  | _ => none

/-- An exception in `execute`. -/
def raise (i : ℕ) (what : String) : Option Entry :=
  match s.pc i with
  | .admitted => some (s.setPc i (.finishing (.error what)))
  | .written => some (s.setPc i (.finishing (.error what)))
  | .waiting => some (s.setPc i (.finishing (.error what)))
  | .woken _ => some (s.setPc i (.finishing (.error what)))
  | _ => none

/-- The last `fail_pending`, and the return. -/
def finish (i : ℕ) : Option Entry :=
  match s.pc i with
  | .finishing o => some ((s.failPending i).setPc i (.done o))
  | _ => none

/-- What the router puts into the operation. -/
def routed (o : Operation) (r : Reply) : Operation :=
  { o with
    reply := some (match traceReplyValidationError o.kind r with
      | some error => { reply := r.reply, ok := some false, error := some error }
      | none => r)
    terminal := true
    signalled := true }

/-- `route_device_reply` on a command reply; `late` is the clock past a deadline. -/
def route (r : Reply) (late : Bool) : Entry :=
  match s.active with
  | none => s
  | some i =>
    -- a missing `seq` is 0, which no command has
    if r.seq.getD 0 = (s.op i).seq then
      if late && (s.op i).deadline then s.retire i
      else { s.setOp i (routed (s.op i) r) with active := none }
    else s

/-- The section of `supervise_entry` after the channel is closed. -/
def eof : Entry :=
  match s.active with
  | none => { s with control := false }
  | some i =>
    { s.setOp i { s.op i with
        reply := some { reply := "", ok := some false, error := some "device control channel closed" }, terminal := true } with
      active := none
      control := false
      closing := some i }

/-- The monitor wakes the handler of the operation it closed. -/
def eofSignal : Option Entry :=
  s.closing.map fun i => { s.setOp i { s.op i with signalled := true } with closing := none }

end Entry

/-! ### Runs -/

/-- What can happen. -/
inductive Act
  | forward (i : ℕ) (kind : Kind)
  | write (i : ℕ) (ok : Bool)
  | setDeadline (i : ℕ)
  | wake (i : ℕ) (got : Bool)
  | collect (i : ℕ)
  | raise (i : ℕ) (what : String)
  | finish (i : ℕ)
  | route (r : Reply) (late : Bool)
  | eof
  | eofSignal
  | respawn

/-- The handler that acts. -/
def Act.handler : Act → Option ℕ
  | .forward i _ => some i
  | .write i _ => some i
  | .setDeadline i => some i
  | .wake i _ => some i
  | .collect i => some i
  | .raise i _ => some i
  | .finish i => some i
  | _ => none

/-- The command of `i` completes. -/
def Act.completes (i : ℕ) : Act → ℕ
  | .finish j => if j = i then 1 else 0
  | _ => 0

/-- One step. -/
def step (s : Entry) : Act → Option Entry
  | .forward i kind => s.forward i kind
  | .write i ok => s.write i ok
  | .setDeadline i => s.setDeadline i
  | .wake i got => s.wake i got
  | .collect i => s.collect i
  | .raise i what => s.raise i what
  | .finish i => s.finish i
  | .route r late => some (s.route r late)
  | .eof => some s.eof
  | .eofSignal => s.eofSignal
  | .respawn => some { s with control := true }

/-- The step as a relation. -/
abbrev Steps (s : Entry) (a : Act) (s' : Entry) : Prop := step s a = some s'

/-! ### What every section keeps -/

/-- **The slot and the operations.** -/
structure Inv (s : Entry) : Prop where
  /-- The slot holds exactly the running operation that is not terminal. -/
  slot : ∀ i, s.active = some i ↔ (s.pc i).running = true ∧ (s.op i).terminal = false
  /-- Who returned is terminal. -/
  returned : ∀ i, (s.pc i).entered = true → (s.pc i).running = false → (s.op i).terminal = true
  bound : ∀ i, (s.pc i).entered = true → 1 ≤ (s.op i).seq ∧ (s.op i).seq ≤ s.cmdSeq
  distinct : ∀ i j, (s.pc i).entered = true → (s.pc j).entered = true → (s.op i).seq = (s.op j).seq → i = j
  /-- A reply that says ok carries the number of its operation. -/
  replies : ∀ i r, (s.op i).reply = some r → r.isOk = true → r.seq = some (s.op i).seq
  signalled : ∀ i, (s.op i).signalled = true → (s.op i).terminal = true
  closing : ∀ i, s.closing = some i → (s.pc i).entered = true ∧ (s.op i).terminal = true
  outcomes : ∀ i r, (s.pc i).outcome = some (.reply r) → r.seq = some (s.op i).seq

theorem inv_init (id : String) : Inv (Entry.init id) := by
  constructor <;> simp [Entry.init, Pc.running, Pc.entered, Pc.outcome]

variable {s s' : Entry} {i j : ℕ} {p : Pc}

theorem entered_of_running (h : p.running = true) : p.entered = true := by
  cases p <;> first | rfl | exact nomatch h

/-- A handler moves, and stays in the slot or is terminal. -/
theorem Inv.move (h : Inv s) (hent : p.entered = (s.pc i).entered)
    (hrun : p.running = (s.pc i).running ∨ (s.op i).terminal = true)
    (hout : ∀ r, p.outcome = some (.reply r) → r.seq = some (s.op i).seq) : Inv (s.setPc i p) := by
  have hpc : ∀ j, (s.setPc i p).pc j = if j = i then p else s.pc j := fun j => Function.update_apply ..
  have hrun' : ∀ j, ((s.setPc i p).pc j).running = (s.pc j).running ∨ (s.op j).terminal = true := by
    intro j
    rw [hpc]
    split_ifs with hj
    · exact hj ▸ hrun
    · exact .inl rfl
  have hent' : ∀ j, ((s.setPc i p).pc j).entered = (s.pc j).entered := by
    intro j
    rw [hpc]
    split_ifs with hj
    · rw [hent, hj]
    · rfl
  refine ⟨fun j => ?_, fun j he hr => ?_, fun j => ?_, fun j k => ?_, h.replies, h.signalled, fun j => ?_, fun j r hr => ?_⟩
  · rcases hrun' j with hsame | hterm
    · rw [hsame]
      exact h.slot j
    · exact iff_of_false (fun ha => nomatch hterm.symm.trans ((h.slot j).mp ha).2) fun hx => nomatch hterm.symm.trans hx.2
  · rcases hrun' j with hsame | hterm
    · rw [hent'] at he
      exact h.returned j he (hsame ▸ hr)
    · exact hterm
  · rw [hent']
    exact h.bound j
  · rw [hent', hent']
    exact h.distinct j k
  · rw [hent']
    exact h.closing j
  · rw [hpc] at hr
    by_cases hj : j = i
    · rw [if_pos hj] at hr
      exact hj ▸ hout r hr
    · rw [if_neg hj] at hr
      exact h.outcomes j r hr

/-- **The operation in the slot ends**, with a reply or without one. -/
theorem Inv.retire (h : Inv s) (ha : s.active = some i) {o : Operation} (hop : s'.op = Function.update s.op i o)
    (hseq : o.seq = (s.op i).seq) (hterm : o.terminal = true)
    (hreply : ∀ r, o.reply = some r → r.isOk = true → r.seq = some o.seq) (hpc : s'.pc = s.pc) (hact : s'.active = none)
    (hcmd : s'.cmdSeq = s.cmdSeq) (hclosing : ∀ j, s'.closing = some j → s.closing = some j ∨ j = i) : Inv s' := by
  have hops : ∀ j, s'.op j = if j = i then o else s.op j := fun j => by rw [hop, Function.update_apply]
  have hseq' : ∀ j, (s'.op j).seq = (s.op j).seq := by
    intro j
    rw [hops]
    split_ifs with hj
    · rw [hseq, hj]
    · rfl
  have hrun := ((h.slot i).mp ha).1
  refine ⟨fun j => ?_, fun j hent hnot => ?_, fun j => ?_, fun j k => ?_, fun j r hr hok => ?_, fun j hs => ?_,
    fun j hc => ?_, fun j r => ?_⟩
  · rw [hact, hpc, hops]
    refine iff_of_false nofun fun hx => ?_
    by_cases hj : j = i
    · simp [hj, hterm] at hx
    · rw [if_neg hj] at hx
      have := ((h.slot j).mpr hx).symm.trans ha
      exact hj (Option.some.inj this)
  · rw [hpc] at hent hnot
    rw [hops]
    by_cases hj : j = i
    · rw [if_pos hj]
      exact hterm
    · rw [if_neg hj]
      exact h.returned j hent hnot
  · rw [hpc, hseq', hcmd]
    exact h.bound j
  · rw [hpc, hseq', hseq']
    exact h.distinct j k
  · rw [hops] at hr ⊢
    by_cases hj : j = i
    · rw [if_pos hj] at hr ⊢
      exact hreply r hr hok
    · rw [if_neg hj] at hr ⊢
      exact h.replies j r hr hok
  · rw [hops] at hs ⊢
    by_cases hj : j = i
    · rw [if_pos hj]
      exact hterm
    · rw [if_neg hj] at hs ⊢
      exact h.signalled j hs
  · rw [hops, hpc]
    by_cases hj : j = i
    · rw [if_pos hj, hj]
      exact ⟨entered_of_running hrun, hterm⟩
    · rw [if_neg hj]
      exact h.closing j ((hclosing j hc).resolve_right hj)
  · rw [hpc, hseq']
    exact h.outcomes j r

/-- A handler gives up its own operation only. -/
theorem Inv.failPending (h : Inv s) (i : ℕ) : Inv (s.failPending i) ∧ (s.failPending i).pc = s.pc ∧
    (∀ j, ((s.failPending i).op j).seq = (s.op j).seq) ∧
    ((s.pc i).running = true → ((s.failPending i).op i).terminal = true) := by
  unfold Entry.failPending
  split_ifs with ha
  · refine ⟨h.retire ha rfl rfl rfl (h.replies i) rfl rfl rfl fun j hj => .inl hj, rfl, fun j => ?_, fun _ => ?_⟩
    · simp only [Entry.retire, Entry.setOp, Function.update_apply]
      split_ifs with hj
      · rw [hj]
      · rfl
    · simp [Entry.retire, Entry.setOp]
  · refine ⟨h, rfl, fun _ => rfl, fun hrun => ?_⟩
    cases hterm : (s.op i).terminal with
    | true => rfl
    | false => exact absurd ((h.slot i).mpr ⟨hrun, hterm⟩) ha

/-- A command is admitted. -/
theorem Inv.admitted (h : Inv s) {kind : Kind} (ha : s.active = none) (hout : s.pc i = .out) :
    Inv { s with
      active := some i
      cmdSeq := s.cmdSeq + 1
      op := Function.update s.op i { seq := s.cmdSeq + 1, kind := kind }
      pc := Function.update s.pc i .admitted } := by
  have hclosed : ∀ j, ¬ ((s.pc j).running = true ∧ (s.op j).terminal = false) := fun j hj => by
    simp [(h.slot j).mpr hj] at ha
  refine ⟨fun j => ?_, fun j => ?_, fun j => ?_, fun j k => ?_, fun j r => ?_, fun j => ?_, fun j hc => ?_, fun j r => ?_⟩
  all_goals simp only [Function.update_apply]
  · by_cases hj : j = i
    · simp [hj, Pc.running]
    · simp only [if_neg hj]
      exact iff_of_false (fun hx => hj (Option.some.inj hx).symm) (hclosed j)
  · by_cases hj : j = i
    · simp [hj, Pc.running]
    · simp only [if_neg hj]
      exact h.returned j
  · by_cases hj : j = i
    · simp [hj]
    · simp only [if_neg hj]
      intro hent
      have := h.bound j hent
      omega
  · have hfresh : ∀ l, (s.pc l).entered = true → (s.op l).seq ≠ s.cmdSeq + 1 := fun l hl => by
      have := h.bound l hl
      omega
    by_cases hj : j = i
    · by_cases hk : k = i
      · exact fun _ _ _ => hj.trans hk.symm
      · simp only [if_pos hj, if_neg hk]
        exact fun _ hent heq => absurd heq.symm (hfresh k hent)
    · by_cases hk : k = i
      · simp only [if_pos hk, if_neg hj]
        exact fun hent _ heq => absurd heq (hfresh j hent)
      · simp only [if_neg hj, if_neg hk]
        exact h.distinct j k
  · by_cases hj : j = i
    · simp [hj]
    · simp only [if_neg hj]
      exact h.replies j r
  · by_cases hj : j = i
    · simp [hj]
    · simp only [if_neg hj]
      exact h.signalled j
  · by_cases hj : j = i
    · have := (h.closing j hc).1
      simp [hj, hout, Pc.entered] at this
    · simp only [if_neg hj]
      exact h.closing j hc
  · by_cases hj : j = i
    · simp [hj, Pc.outcome]
    · simp only [if_neg hj]
      exact h.outcomes j r

/-- An operation changes in nothing the sections compare. -/
theorem Inv.touch (h : Inv s) {o : Operation} (hseq : o.seq = (s.op i).seq) (hterm : o.terminal = (s.op i).terminal)
    (hreply : o.reply = (s.op i).reply) (hsig : o.signalled = true → o.terminal = true) : Inv (s.setOp i o) := by
  have hops : ∀ j, (s.setOp i o).op j = if j = i then o else s.op j := fun j => Function.update_apply ..
  have hseq' : ∀ j, ((s.setOp i o).op j).seq = (s.op j).seq := by
    intro j
    rw [hops]
    split_ifs with hj
    · rw [hseq, hj]
    · rfl
  have hterm' : ∀ j, ((s.setOp i o).op j).terminal = (s.op j).terminal := by
    intro j
    rw [hops]
    split_ifs with hj
    · rw [hterm, hj]
    · rfl
  refine ⟨fun j => ?_, fun j => ?_, fun j => ?_, fun j k => ?_, fun j r hr => ?_, fun j hs => ?_, fun j => ?_, fun j r => ?_⟩
  · rw [hterm']
    exact h.slot j
  · rw [hterm']
    exact h.returned j
  · rw [hseq']
    exact h.bound j
  · rw [hseq', hseq']
    exact h.distinct j k
  · rw [hseq']
    refine h.replies j r ?_
    rw [hops] at hr
    by_cases hj : j = i
    · rw [if_pos hj, hreply] at hr
      exact hj ▸ hr
    · rwa [if_neg hj] at hr
  · rw [hops] at hs ⊢
    by_cases hj : j = i
    · rw [if_pos hj] at hs ⊢
      exact hsig hs
    · rw [if_neg hj] at hs ⊢
      exact h.signalled j hs
  · rw [hterm']
    exact h.closing j
  · rw [hseq']
    exact h.outcomes j r

/-- A missing number matches no command. -/
theorem Inv.seq_of_echoed (h : Inv s) {r : Reply} (ha : s.active = some i) (hseq : r.seq.getD 0 = (s.op i).seq) :
    r.seq = some (s.op i).seq := by
  have hone := (h.bound i (entered_of_running ((h.slot i).mp ha).1)).1
  cases hr : r.seq with
  | none =>
    rw [hr, Option.getD_none] at hseq
    omega
  | some q =>
    rw [hr, Option.getD_some] at hseq
    rw [hseq]

/-- The router. -/
theorem Inv.route (h : Inv s) (r : Reply) (late : Bool) : Inv (s.route r late) := by
  unfold Entry.route
  split
  · exact h
  · rename_i i ha
    split_ifs with hseq hlate
    · exact h.retire ha rfl rfl rfl (h.replies i) rfl rfl rfl fun j hj => .inl hj
    · refine h.retire ha rfl rfl rfl (fun r' hr' hok => ?_) rfl rfl rfl fun j hj => .inl hj
      -- a reply that is kept as it is carries the number of the operation
      simp only [Entry.routed, Option.some.injEq] at hr'
      subst hr'
      split at hok
      · exact nomatch hok
      · rename_i herr
        simp only [Entry.routed, herr]
        exact h.seq_of_echoed ha hseq
    · exact h

/-- The channel is closed. -/
theorem Inv.eof (h : Inv s) : Inv s.eof := by
  unfold Entry.eof
  split
  · exact ⟨h.slot, h.returned, h.bound, h.distinct, h.replies, h.signalled, h.closing, h.outcomes⟩
  · rename_i i ha
    refine h.retire ha rfl rfl rfl (fun r hr hok => ?_) rfl rfl rfl fun j hj => .inr (Option.some.inj hj).symm
    obtain rfl := Option.some.inj hr
    exact nomatch hok

theorem ofReply_eq_reply {o : Option Reply} {r : Reply} (h : Outcome.ofReply o = .reply r) : o = some r ∧ r.isOk = true := by
  unfold Outcome.ofReply at h
  split at h
  · split_ifs at h with hok
    simp only [Outcome.reply.injEq] at h
    exact ⟨by rw [h], h ▸ hok⟩
  · exact nomatch h

/-! ### The sections of a handler -/

/-- The handler `i` goes to `p` while the entry becomes `t`. -/
structure Moves (s : Entry) (i : ℕ) (t : Entry) (p : Pc) : Prop where
  pc : t.pc = s.pc
  entered : p.entered = true
  rank : p.rank < (s.pc i).rank
  kept : Inv s → Inv t ∧ (t.op i).seq = (s.op i).seq ∧ (p.running = true ∨ (t.op i).terminal = true)
  /-- A reply is the one of the operation. -/
  result : ∀ r, p.outcome = some (.reply r) →
    (s.pc i).outcome = some (.reply r) ∨ (s.op i).reply = some r ∧ r.isOk = true

/-- A section that leaves the entry alone. -/
theorem Moves.stay (hent : p.entered = true) (hrun : p.running = true) (hrank : p.rank < (s.pc i).rank)
    (hres : ∀ r, p.outcome = some (.reply r) → (s.pc i).outcome = some (.reply r) ∨ (s.op i).reply = some r ∧ r.isOk = true) :
    Moves s i s p :=
  ⟨rfl, hent, hrank, fun h => ⟨h, rfl, .inl hrun⟩, hres⟩

/-- A section that gives the operation up. -/
theorem Moves.giveUp (hrun : (s.pc i).running = true) (hent : p.entered = true) (hrank : p.rank < (s.pc i).rank)
    (hres : ∀ r, p.outcome = some (.reply r) → (s.pc i).outcome = some (.reply r)) : Moves s i (s.failPending i) p where
  pc := by
    unfold Entry.failPending
    split_ifs <;> rfl
  entered := hent
  rank := hrank
  kept h := by
    obtain ⟨hi, -, hseq, hterm⟩ := h.failPending i
    exact ⟨hi, hseq i, .inr (hterm hrun)⟩
  result r hr := .inl (hres r hr)

/-- The section that sets the deadline. -/
theorem Moves.deadline (hpc : s.pc i = .written) :
    Moves s i (if s.active = some i then s.setOp i { s.op i with deadline := true } else s) .waiting := by
  split_ifs
  · refine ⟨rfl, rfl, by simp [hpc, Pc.rank], fun h => ⟨h.touch rfl rfl rfl (h.signalled i), ?_, .inl rfl⟩, (by simp [Pc.outcome])⟩
    simp [Entry.setOp]
  · exact .stay rfl rfl (by simp [hpc, Pc.rank]) (by simp [Pc.outcome])

/-- What a step of a handler does. -/
inductive HandlerStep (s : Entry) (i : ℕ) : Act → Entry → Prop
  | refused {kind : Kind} (what : String) (hpc : s.pc i = .out) : HandlerStep s i (.forward i kind) (s.setPc i (.rejected what))
  | admitted {kind : Kind} (hpc : s.pc i = .out) (ha : s.active = none) :
    HandlerStep s i (.forward i kind) { s with
      active := some i
      cmdSeq := s.cmdSeq + 1
      op := Function.update s.op i { seq := s.cmdSeq + 1, kind := kind }
      pc := Function.update s.pc i .admitted }
  | moved {a : Act} {t : Entry} {p : Pc} (hrun : (s.pc i).running = true) (hm : Moves s i t p)
    (hdone : p.completed = a.completes i) : HandlerStep s i a (t.setPc i p)

theorem handlerStep_of_step {a : Act} (hs : step s a = some s') (ha : a.handler = some i) : HandlerStep s i a s' := by
  cases a with
  | forward j kind =>
    obtain rfl : j = i := Option.some.inj ha
    simp only [step, Entry.forward] at hs
    split at hs
    · rename_i hpc
      split at hs
      · obtain rfl := Option.some.inj hs
        exact .refused _ hpc
      · rename_i hact
        split at hs
        · obtain rfl := Option.some.inj hs
          exact .admitted hpc hact
        · obtain rfl := Option.some.inj hs
          exact .refused _ hpc
    · exact nomatch hs
  | write j ok =>
    obtain rfl : j = i := Option.some.inj ha
    simp only [step, Entry.write] at hs
    split at hs
    · rename_i hpc
      have hrun : (s.pc j).running = true := by rw [hpc]; rfl
      split at hs
      · obtain rfl := Option.some.inj hs
        exact .moved hrun (.stay rfl rfl (by simp [hpc, Pc.rank]) (by simp [Pc.outcome])) rfl
      · obtain rfl := Option.some.inj hs
        exact .moved hrun (.giveUp hrun rfl (by simp [hpc, Pc.rank]) (by simp [Pc.outcome])) rfl
    · exact nomatch hs
  | setDeadline j =>
    obtain rfl : j = i := Option.some.inj ha
    simp only [step, Entry.setDeadline] at hs
    split at hs
    · rename_i hpc
      obtain rfl := Option.some.inj hs
      exact .moved (by rw [hpc]; rfl) (.deadline hpc) rfl
    · exact nomatch hs
  | wake j got =>
    obtain rfl : j = i := Option.some.inj ha
    simp only [step, Entry.wake] at hs
    split at hs
    · rename_i hpc
      split at hs
      · exact nomatch hs
      · obtain rfl := Option.some.inj hs
        exact .moved (by rw [hpc]; rfl) (.stay rfl rfl (by simp [hpc, Pc.rank]) (by simp [Pc.outcome])) rfl
    · exact nomatch hs
  | collect j =>
    obtain rfl : j = i := Option.some.inj ha
    simp only [step, Entry.collect] at hs
    split at hs
    · rename_i got hpc
      have hrun : (s.pc j).running = true := by rw [hpc]; rfl
      split at hs
      · obtain rfl := Option.some.inj hs
        refine .moved hrun (.stay rfl rfl (by simp [hpc, Pc.rank]) fun r hr => ?_) rfl
        simp only [Pc.outcome, Option.some.injEq] at hr
        obtain ⟨htaken, hok⟩ := ofReply_eq_reply hr
        split at htaken
        · exact .inr ⟨htaken, hok⟩
        · exact nomatch htaken
      · obtain rfl := Option.some.inj hs
        exact .moved hrun (.giveUp hrun rfl (by simp [hpc, Pc.rank]) (by simp [Pc.outcome])) rfl
    · exact nomatch hs
  | raise j what =>
    obtain rfl : j = i := Option.some.inj ha
    simp only [step, Entry.raise] at hs
    split at hs
    case h_5 => exact nomatch hs
    all_goals
      rename_i hpc
      obtain rfl := Option.some.inj hs
      refine .moved (by rw [hpc]; rfl) (.stay rfl rfl (by simp [hpc, Pc.rank]) fun r hr => ?_) rfl
      simp [Pc.outcome] at hr
  | finish j =>
    obtain rfl : j = i := Option.some.inj ha
    simp only [step, Entry.finish] at hs
    split at hs
    · rename_i o hpc
      have hrun : (s.pc j).running = true := by rw [hpc]; rfl
      obtain rfl := Option.some.inj hs
      refine .moved hrun (.giveUp hrun rfl (by simp [hpc, Pc.rank]) fun r hr => ?_) (by simp [Pc.completed, Act.completes])
      rw [hpc]
      exact hr
    · exact nomatch hs
  | route r late => exact nomatch ha
  | eof => exact nomatch ha
  | eofSignal => exact nomatch ha
  | respawn => exact nomatch ha

/-- Who is in front of no handler leaves the handlers alone. -/
theorem pc_of_handler_none {a : Act} (hs : step s a = some s') (ha : a.handler = none) : s'.pc = s.pc := by
  cases a with
  | route r late =>
    obtain rfl := Option.some.inj hs
    unfold Entry.route
    split
    · rfl
    · split_ifs <;> rfl
  | eof =>
    obtain rfl := Option.some.inj hs
    unfold Entry.eof
    split <;> rfl
  | eofSignal =>
    obtain ⟨i, -, rfl⟩ := Option.map_eq_some_iff.mp hs
    rfl
  | respawn =>
    obtain rfl := Option.some.inj hs
    rfl
  | _ => exact nomatch ha

/-- **A handler moves by its own steps only.** -/
theorem pc_of_handler_ne {a : Act} (hs : step s a = some s') (ha : a.handler ≠ some i) : s'.pc i = s.pc i := by
  cases hact : a.handler with
  | none => rw [pc_of_handler_none hs hact]
  | some j =>
    have hij : i ≠ j := fun he => ha (he ▸ hact)
    cases handlerStep_of_step hs hact with
    | refused => exact Function.update_of_ne hij ..
    | admitted => exact Function.update_of_ne hij ..
    | moved _ hm => exact (Function.update_of_ne hij ..).trans (congrFun hm.pc i)

/-- **Every step keeps it.** -/
theorem Inv.step (h : Inv s) {a : Act} (hs : step s a = some s') : Inv s' := by
  cases hact : a.handler with
  | some i =>
    cases handlerStep_of_step hs hact with
    | refused what hpc => exact h.move (by rw [hpc]; rfl) (.inl (by rw [hpc]; rfl)) (by simp [Pc.outcome])
    | admitted hpc ha => exact h.admitted ha hpc
    | moved hrun hm =>
      obtain ⟨ht, hseq, hend⟩ := hm.kept h
      refine ht.move ?_ ?_ fun r hr => ?_
      · rw [hm.pc, hm.entered, entered_of_running hrun]
      · rw [hm.pc, hrun]
        exact hend
      · rw [hseq]
        rcases hm.result r hr with hold | ⟨hreply, hok⟩
        · exact h.outcomes i r hold
        · exact h.replies i r hreply hok
  | none =>
    cases a with
    | route r late =>
      obtain rfl := Option.some.inj hs
      exact h.route r late
    | eof =>
      obtain rfl := Option.some.inj hs
      exact h.eof
    | eofSignal =>
      obtain ⟨i, hc, rfl⟩ := Option.map_eq_some_iff.mp hs
      have ht : Inv (s.setOp i { s.op i with signalled := true }) := h.touch rfl rfl rfl fun _ => (h.closing i hc).2
      exact ⟨ht.slot, ht.returned, ht.bound, ht.distinct, ht.replies, ht.signalled, nofun, ht.outcomes⟩
    | respawn =>
      obtain rfl := Option.some.inj hs
      exact ⟨h.slot, h.returned, h.bound, h.distinct, h.replies, h.signalled, h.closing, h.outcomes⟩
    | _ => exact nomatch hact

/-! ### Completion -/

theorem completed_step {a : Act} (hs : step s a = some s') : (s'.pc i).completed = (s.pc i).completed + a.completes i := by
  by_cases ha : a.handler = some i
  · cases handlerStep_of_step hs ha with
    | refused what hpc => simp [Entry.setPc, hpc, Pc.completed, Act.completes]
    | admitted hpc _ => simp [hpc, Pc.completed, Act.completes]
    | @moved _ _ p hrun _ hdone =>
      have hzero : (s.pc i).completed = 0 := by
        cases hpc : s.pc i <;> first | rfl | simp [hpc, Pc.running] at hrun
      simp [Entry.setPc, hdone, hzero]
  · have hzero : a.completes i = 0 := by
      cases a with
      | finish j => exact if_neg fun hj => ha (congrArg some hj)
      | _ => rfl
    rw [pc_of_handler_ne hs ha, hzero, Nat.add_zero]

/-- **A handler's own step brings it nearer to its end**, and nobody else's step moves it. -/
theorem rank_step {a : Act} (hs : step s a = some s') (hent : (s.pc i).entered = true) :
    (s'.pc i).entered = true ∧ (if a.handler = some i then 1 else 0) + (s'.pc i).rank ≤ (s.pc i).rank := by
  split_ifs with ha
  · cases handlerStep_of_step hs ha with
    | refused what hpc => simp [hpc, Pc.entered] at hent
    | admitted hpc _ => simp [hpc, Pc.entered] at hent
    | moved _ hm =>
      simp only [Entry.setPc, Function.update_self]
      exact ⟨hm.entered, by have := hm.rank; omega⟩
  · rw [pc_of_handler_ne hs ha]
    exact ⟨hent, by omega⟩

/-- A running handler is never stuck. -/
theorem exists_step (hrun : (s.pc i).running = true) : ∃ a, a.handler = some i ∧ (step s a).isSome = true := by
  cases hpc : s.pc i with
  | admitted => exact ⟨.write i true, rfl, by simp [step, Entry.write, hpc]⟩
  | written => exact ⟨.setDeadline i, rfl, by simp [step, Entry.setDeadline, hpc]⟩
  | waiting => exact ⟨.wake i false, rfl, by simp [step, Entry.wake, hpc]⟩
  | woken got => exact ⟨.collect i, rfl, by cases got <;> simp [step, Entry.collect, hpc]⟩
  | finishing o => exact ⟨.finish i, rfl, by simp [step, Entry.finish, hpc]⟩
  | _ => simp [hpc, Pc.running] at hrun

/-- The router touches the operation whose number the reply carries, and no other. -/
theorem Inv.route_op (h : Inv s) {r : Reply} {late : Bool} (hne : (s.route r late).op i ≠ s.op i) :
    s.active = some i ∧ r.seq = some (s.op i).seq := by
  unfold Entry.route at hne
  split at hne
  · exact absurd rfl hne
  · rename_i j ha
    by_cases hseq : r.seq.getD 0 = (s.op j).seq
    · have hij : i = j := by
        by_contra hij
        rw [if_pos hseq] at hne
        split_ifs at hne
        · exact hne (Function.update_of_ne hij ..)
        · exact hne (Function.update_of_ne hij ..)
      exact hij ▸ ⟨ha, h.seq_of_echoed ha hseq⟩
    · rw [if_neg hseq] at hne
      exact absurd rfl hne

/-- How many steps of a run are of a handler. -/
def ownSteps (i : ℕ) (run : List Act) : ℕ := run.countP fun a => a.handler = some i

/-- How often the command of `i` completes in a run. -/
def completions (i : ℕ) (run : List Act) : ℕ := (run.map (Act.completes i)).sum

theorem completed_exec {run : List Act} (h : exec step always s run = some s') :
    (s'.pc i).completed = (s.pc i).completed + completions i run := by
  induction run generalizing s with
  | nil =>
    obtain rfl := Option.some.inj h
    rfl
  | cons a run ih =>
    obtain ⟨-, mid, hmid, hrest⟩ := exec_cons.mp h
    rw [ih hrest, completed_step hmid, completions, completions, List.map_cons, List.sum_cons, Nat.add_assoc]

theorem ownSteps_exec {run : List Act} (h : exec step always s run = some s') (hent : (s.pc i).entered = true) :
    (s'.pc i).entered = true ∧ ownSteps i run + (s'.pc i).rank ≤ (s.pc i).rank := by
  induction run generalizing s with
  | nil =>
    obtain rfl := Option.some.inj h
    exact ⟨hent, by simp [ownSteps]⟩
  | cons a run ih =>
    obtain ⟨-, mid, hmid, hrest⟩ := exec_cons.mp h
    obtain ⟨hment, hmrank⟩ := rank_step hmid hent
    obtain ⟨hsent, hsrank⟩ := ih hrest hment
    refine ⟨hsent, ?_⟩
    simp only [ownSteps, List.countP_cons, decide_eq_true_eq] at hsrank ⊢
    omega

theorem rank_le (p : Pc) : p.rank ≤ 5 := by
  cases p <;> simp [Pc.rank]

theorem done_exec {o : Outcome} {run : List Act} (h : exec step always s run = some s') (hpc : s.pc i = .done o) :
    s'.pc i = .done o := by
  induction run generalizing s with
  | nil =>
    obtain rfl := Option.some.inj h
    exact hpc
  | cons a run ih =>
    obtain ⟨-, mid, hmid, hrest⟩ := exec_cons.mp h
    refine ih hrest ?_
    by_cases ha : a.handler = some i
    · cases handlerStep_of_step hmid ha with
      | refused what hout => simp [hout] at hpc
      | admitted hout _ => simp [hout] at hpc
      | moved hrun _ => simp [hpc, Pc.running] at hrun
    · rw [pc_of_handler_ne hmid ha, hpc]

/-- **Commands and replies.**  In every state a run reaches: a command completes once at most, and as soon as its handler took
its steps, of which there is always one to take and never more than five; the result is an error or the reply with the
command's own number, and no two commands share one; a reply touches no command but the one whose number it carries; the slot
holds exactly the one command that nobody has completed yet, so a command that returned does not hold it. -/
theorem commands_correlate (id : String) (run : List Act) (s : Entry) (hrun : exec step always (Entry.init id) run = some s) :
    (∀ i, completions i run = (s.pc i).completed) ∧
    (∀ i, (s.pc i).entered = true → ∀ run' s', exec step always s run' = some s' →
      ownSteps i run' ≤ 5 ∧ ((∃ o, s'.pc i = .done o) ∨ ∃ a, a.handler = some i ∧ (step s' a).isSome = true)) ∧
    (∀ i o, s.pc i = .done o → ∀ run' s', exec step always s run' = some s' → s'.pc i = .done o) ∧
    (∀ i r, s.pc i = .done (.reply r) → r.seq = some (s.op i).seq) ∧
    (∀ i j, (s.pc i).entered = true → (s.pc j).entered = true → (s.op i).seq = (s.op j).seq → i = j) ∧
    (∀ r late i, (s.route r late).op i ≠ s.op i → s.active = some i ∧ r.seq = some (s.op i).seq) ∧
    (∀ i, s.active = some i ↔ (s.pc i).running = true ∧ (s.op i).terminal = false) ∧
    (∀ i o, s.pc i = .done o → s.active ≠ some i) ∧
    ∀ i kind, s.active = none → s.control = true → s.pc i = .out →
      ∃ s', step s (.forward i kind) = some s' ∧ s'.pc i = .admitted := by
  have h : Inv s := (reaches_of_exec hrun).invariant (inv_init id) fun s a s' hi _ hs => hi.step hs
  refine ⟨fun i => ?_, fun i hent run' s' hrun' => ?_, fun i o hpc run' s' hrun' => ?_, fun i r hpc => ?_, h.distinct,
    fun r late i hne => h.route_op hne, h.slot, fun i o hpc ha => ?_, fun i kind ha hc hpc => ?_⟩
  · have := completed_exec (i := i) hrun
    rw [this]
    simp [Entry.init, Pc.completed]
  · obtain ⟨hent', hrank⟩ := ownSteps_exec hrun' hent
    refine ⟨?_, ?_⟩
    · have := rank_le (s.pc i)
      omega
    · cases hpc : s'.pc i with
      | done o => exact .inl ⟨o, rfl⟩
      | out => simp [hpc, Pc.entered] at hent'
      | rejected what => simp [hpc, Pc.entered] at hent'
      | _ => exact .inr (exists_step (by rw [hpc]; rfl))
  · exact done_exec hrun' hpc
  · exact h.outcomes i r (by rw [hpc]; rfl)
  · have := ((h.slot i).mp ha).1
    simp [hpc, Pc.running] at this
  · simp [step, Entry.forward, hpc, ha, hc]

/-- The first command runs into its timeout; the reply to it arrives while the second one waits. -/
def lateRun : List Act :=
  [.forward 0 .resize, .write 0 true, .setDeadline 0, .wake 0 false, .collect 0, .finish 0,
   .forward 1 .resize, .write 1 true, .setDeadline 1, .route { reply := "resize", seq := some 1, ok := some true } false,
   .route { reply := "resize", seq := some 2, ok := some true } false, .wake 1 true, .collect 1, .finish 1]

/-- The late reply is dropped, and each command has its own result. -/
theorem commands_correlate_late : ∃ s, exec step always (Entry.init "vda") lateRun = some s ∧
    s.pc 0 = .done (.error "device control channel timeout: vda") ∧
    s.pc 1 = .done (.reply { reply := "resize", seq := some 2, ok := some true }) ∧
    completions 0 lateRun = (s.pc 0).completed ∧ completions 1 lateRun = (s.pc 1).completed ∧ s.active ≠ some 1 := by
  have h : (exec step always (Entry.init "vda") lateRun).map (fun s => (s.pc 0, s.pc 1)) =
      some (.done (.error "device control channel timeout: vda"),
        .done (.reply { reply := "resize", seq := some 2, ok := some true })) := by rfl
  obtain ⟨s, hs, hpcs⟩ := Option.map_eq_some_iff.mp h
  obtain ⟨hzero, hone⟩ := Prod.mk.inj hpcs
  obtain ⟨hcount, -, -, -, -, -, -, hslot, -⟩ := commands_correlate "vda" lateRun s hs
  exact ⟨s, hs, hzero, hone, hcount 0, hcount 1, hslot 1 _ hone⟩

end OverlayBD.DeviceCommand
