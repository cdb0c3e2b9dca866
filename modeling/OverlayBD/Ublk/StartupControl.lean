import OverlayBD.Lib.Seqlock
import OverlayBD.Lib.Transition

/-!
# The startup mailbox

`StartupControl` (`src/src/ublk/startup_control.hpp`) stands between the owner of a device that is starting
and everybody else.  The owner publishes records of facts through a sequence lock.  Any number of callers may
ask it to release the device: a request is accepted by a compare-and-swap on `requested_`, whose top bit
closes the mailbox for good, and is settled when the owner stores its number into `acknowledged_`.  An
observer takes snapshots; an accepted request that the owner has not yet written into its record is *projected*
into the snapshot as a pending release, one revision above the record.

The owner is the process before the device exists (`release_before_start`, `finish_before_start`) and then
`Device` (`src/src/ublk/device.cpp`: `try_publish_ready`, `fail_startup`, `drain_sources`,
`retained_startup`, `publish_pending_release`).

## The model

Every atomic operation of the source is one step: the loads and stores of `version_`, of each word of
`fields_`, of `requested_` and of `acknowledged_`, and the three compare-and-swaps.  All are sequentially
consistent in the source.  The owner is one thread of control; what `Device` does between its calls of this
class (the kernel, the queues, the clock) is left open: between calls it may publish any facts, provided they
carry the release state of its own record `startup_state_`, which only the release paths change.

* `requested_` is its number and its closed bit.
* `OwnerPc`, `RequesterPc`, `ObserverPc` say where in its code each party is.
* `accepted`, `published` and `reports` record what has happened; only the specification reads them.
* Revisions are natural numbers; the release numbers are below the closed bit by `request_release`'s check.
-/

namespace OverlayBD.Ublk.Startup

open Seqlock

/-! ### The facts -/

inductive Phase where
  | preparing | controlPending | retained | releasing | ready | released
  deriving DecidableEq, Repr

inductive Operation where
  | none | start | endRecovery | stop | remove
  deriving DecidableEq, Repr

inductive Release where
  | none | pending | refused | released
  deriving DecidableEq, Repr

inductive RequestResult where
  | accepted | stale | busy | notStartup
  deriving DecidableEq, Repr

/-- `StartupSnapshot` without its generation and version, which `publish` does not store. -/
structure Facts where
  phase : Phase := .preparing
  operation : Operation := .none
  deviceId : ℕ := 2 ^ 32 - 1
  queueId : ℕ := 2 ^ 16 - 1
  reasonErrno : ℤ := 0
  originalResult : ℤ := 0
  cancelResult : ℤ := 0
  originalKnown : Bool := false
  cancelKnown : Bool := false
  controlPending : Bool := false
  kernelDebtKnown : Bool := true
  rawPublished : ℕ := 0
  rawRetired : ℕ := 0
  releaseSequence : ℕ := 0
  release : Release := .none
  releaseErrno : ℤ := 0
  deriving DecidableEq, Repr

/-- `StartupSnapshot`. -/
structure Snapshot where
  generation : ℕ
  version : ℕ
  facts : Facts
  deriving DecidableEq, Repr

/-! ### The words -/

def Phase.code : Phase → ℕ
  | .preparing => 0
  | .controlPending => 1
  | .retained => 2
  | .releasing => 3
  | .ready => 4
  | .released => 5

def Phase.ofCode : ℕ → Phase
  | 0 => .preparing
  | 1 => .controlPending
  | 2 => .retained
  | 3 => .releasing
  | 4 => .ready
  | _ => .released

def Operation.code : Operation → ℕ
  | .none => 0
  | .start => 1
  | .endRecovery => 2
  | .stop => 3
  | .remove => 4

def Operation.ofCode : ℕ → Operation
  | 0 => .none
  | 1 => .start
  | 2 => .endRecovery
  | 3 => .stop
  | _ => .remove

def Release.code : Release → ℕ
  | .none => 0
  | .pending => 1
  | .refused => 2
  | .released => 3

def Release.ofCode : ℕ → Release
  | 0 => .none
  | 1 => .pending
  | 2 => .refused
  | _ => .released

/-- `static_cast<uint64_t>` of an `int`. -/
def ofInt (z : ℤ) : ℕ := (z % 2 ^ 64).toNat

/-- `static_cast<int>(static_cast<int64_t>(w))`. -/
def toInt (w : ℕ) : ℤ := Int.bmod (Int.bmod w (2 ^ 64)) (2 ^ 32)

/-- `StartupControl::Field`. -/
inductive Field where
  | phase | operation | device | queue | reason | original | cancel
  | originalKnown | cancelKnown | controlPending | debtKnown
  | published | retired | releaseSequence | release | releaseError
  deriving DecidableEq, Repr

/-- The order in which both loops go over `fields_`. -/
def Field.all : List Field :=
  [.phase, .operation, .device, .queue, .reason, .original, .cancel, .originalKnown, .cancelKnown,
    .controlPending, .debtKnown, .published, .retired, .releaseSequence, .release, .releaseError]

theorem Field.mem_all (i : Field) : i ∈ Field.all := by
  cases i <;> decide

/-- The array `values` of `publish`. -/
def Facts.words (f : Facts) : Field → ℕ
  | .phase => f.phase.code
  | .operation => f.operation.code
  | .device => f.deviceId
  | .queue => f.queueId
  | .reason => ofInt f.reasonErrno
  | .original => ofInt f.originalResult
  | .cancel => ofInt f.cancelResult
  | .originalKnown => f.originalKnown.toNat
  | .cancelKnown => f.cancelKnown.toNat
  | .controlPending => f.controlPending.toNat
  | .debtKnown => f.kernelDebtKnown.toNat
  | .published => f.rawPublished
  | .retired => f.rawRetired
  | .releaseSequence => f.releaseSequence
  | .release => f.release.code
  | .releaseError => ofInt f.releaseErrno

/-- The assignments of `snapshot`. -/
def Facts.ofWords (w : Field → ℕ) : Facts where
  phase := .ofCode (w .phase)
  operation := .ofCode (w .operation)
  deviceId := w .device % 2 ^ 32
  queueId := w .queue % 2 ^ 16
  reasonErrno := toInt (w .reason)
  originalResult := toInt (w .original)
  cancelResult := toInt (w .cancel)
  originalKnown := w .originalKnown != 0
  cancelKnown := w .cancelKnown != 0
  controlPending := w .controlPending != 0
  kernelDebtKnown := w .debtKnown != 0
  rawPublished := w .published
  rawRetired := w .retired
  releaseSequence := w .releaseSequence
  release := .ofCode (w .release)
  releaseErrno := toInt (w .releaseError)

@[simp] theorem releaseSequence_ofWords_words (f : Facts) :
    (Facts.ofWords f.words).releaseSequence = f.releaseSequence := rfl

@[simp] theorem release_ofWords_words (f : Facts) : (Facts.ofWords f.words).release = f.release := by
  show Release.ofCode f.release.code = f.release
  cases f.release <;> rfl

/-- The snapshot's value of a pending release it projects over the record. -/
def Facts.project (f : Facts) (request : ℕ) : Facts :=
  { f with phase := .releasing, releaseSequence := request, release := .pending, releaseErrno := 0 }

/-- The record already tells of the request. -/
def Facts.persisted (f : Facts) (request : ℕ) : Bool :=
  f.releaseSequence = request ∧ (f.release = .pending ∨ f.release = .refused ∨ f.release = .released)

/-- What `snapshot` makes of the values its loop ends with. -/
def snapshotOf (generation version : ℕ) (f : Facts) (closed : Bool) (request acknowledged : ℕ) : Snapshot :=
  if closed = false ∧ request ≠ acknowledged ∧ f.persisted request = false then
    { generation, version := version + 1, facts := f.project request }
  else
    { generation, version, facts := f }

/-! ### The parties -/

/-- The calls in which the owner loads `requested_`. -/
inductive Job where
  /-- `release_before_start` -/
  | releaseBeforeStart
  /-- `finish_before_start` -/
  | finishBeforeStart
  /-- `close_release_admission` in `try_publish_ready` -/
  | ready
  /-- `close_release_admission` in `fail_startup` -/
  | cleanup
  /-- `publish_pending_release` -/
  | pending
  /-- `finish_release_admission` in `retained_startup` -/
  | finish
  deriving DecidableEq, Repr

/-- What the owner does once a record is published. -/
inductive Cont where
  | idle
  /-- `acknowledge_release` of a refused request -/
  | acknowledge (sequence : ℕ)
  | cleaning
  | leave
  deriving DecidableEq, Repr

/-- Where the owner is. -/
inductive OwnerPc where
  /-- between two calls -/
  | idle
  /-- has loaded `requested_`; about to load `acknowledged_` -/
  | haveRequest (job : Job) (current : ℕ)
  /-- about to set the closed bit by compare-and-swap -/
  | closing (job : Job) (current : ℕ)
  /-- `finish_before_start`, closed; about to load `acknowledged_` -/
  | closedUp (current : ℕ)
  /-- about to store `acknowledged_` behind the closed bit -/
  | acking (job : Job) (current : ℕ) (accepted : Bool)
  /-- `publish_pending_release` found this request outstanding -/
  | persist (current : ℕ)
  /-- `retained_startup` has finished admission and is about to publish the release -/
  | finishing
  /-- `try_publish_ready` has closed admission -/
  | readying
  /-- `fail_startup` has closed admission and is releasing the device -/
  | cleaning
  /-- `publish`, about to make the version odd -/
  | begin (f : Facts) (k : Cont)
  /-- `publish`, about to store the words of `todo`, or to make the version even if there are none -/
  | storing (f : Facts) (todo : List Field) (k : Cont)
  /-- `retained_startup` has published a refusal and is about to acknowledge it -/
  | refusing (sequence : ℕ)
  /-- the startup lifecycle is over -/
  | left
  deriving DecidableEq, Repr

/-- Where a caller of `request_release` is. -/
inductive RequesterPc where
  | idle (last : Option RequestResult)
  /-- about to load `acknowledged_` -/
  | loaded (sequence current : ℕ)
  /-- about to exchange `requested_` -/
  | matched (sequence current : ℕ)
  deriving DecidableEq, Repr

/-- Where the observer is in `snapshot`. -/
inductive ObserverPc where
  | idle
  /-- loading the words of `todo`; with none left, about to load `requested_` -/
  | loading (version : ℕ) (values : Field → ℕ) (todo : List Field)
  /-- about to load `acknowledged_` -/
  | haveRequest (version : ℕ) (values : Field → ℕ) (closed : Bool) (request : ℕ)
  /-- about to look at the version again -/
  | checking (version : ℕ) (values : Field → ℕ) (closed : Bool) (request acknowledged : ℕ)

/-- A snapshot the observer was given, with the records published by then. -/
structure Report where
  snapshot : Snapshot
  published : List Facts

/-- `requested_`, taken apart into its number and its closed bit, and `acknowledged_`. -/
structure Mailbox where
  requested : ℕ := 0
  closed : Bool := false
  acknowledged : ℕ := 0
  deriving DecidableEq, Repr

/-- The owner's own state: `owner_entered_`, and the release state of the record it last handed to `publish`
(the one of `startup_state_` once the device exists). -/
structure Owner where
  entered : Bool := false
  sequence : ℕ := 0
  release : Release := .none
  deriving DecidableEq, Repr

/-- The control, its parties and what has happened. -/
structure State (ι : Type) where
  cell : Cell Field ℕ
  mail : Mailbox
  owner : Owner
  pc : OwnerPc
  requester : ι → RequesterPc
  observer : ObserverPc
  /-- the requests accepted, newest first -/
  accepted : List ℕ
  /-- the records published, newest first -/
  published : List Facts
  /-- what the observer was given, newest first -/
  reports : List Report

/-- The record as the words have it. -/
def State.shown {ι : Type} (s : State ι) : Facts := .ofWords s.cell.words

/-- `StartupControl(generation)`: the three words the constructor stores are those of the default record. -/
def start (ι : Type) : State ι where
  cell := { version := 0, words := ({} : Facts).words }
  mail := {}
  owner := {}
  pc := .idle
  requester := fun _ => .idle none
  observer := .idle
  accepted := []
  published := []
  reports := []

/-! ### The owner -/

inductive OwnerAct where
  /-- `owner_entered_.exchange(true)` -/
  | enter
  /-- a call that begins with a load of `requested_`, or with `finish_release_admission` -/
  | call (job : Job)
  /-- a record is handed to `publish` -/
  | publish (f : Facts)
  /-- `publish_pending_release` finds the request in the record already -/
  | skip
  /-- `retained_startup`'s attempt failed -/
  | refuse (f : Facts)
  /-- the next atomic operation of the call in progress -/
  | next
  deriving DecidableEq, Repr

/-- The record carries the release state of the last one. -/
def Owner.Carries (o : Owner) (f : Facts) : Prop := f.releaseSequence = o.sequence ∧ f.release = o.release

instance (o : Owner) (f : Facts) : Decidable (o.Carries f) := inferInstanceAs (Decidable (_ ∧ _))

/-- The record is the last one now. -/
def Owner.take (o : Owner) (f : Facts) : Owner :=
  { o with sequence := f.releaseSequence, release := f.release }

/-- The first atomic operation of a call: the load of `requested_`.  `finish_release_admission` has none; it
starts at its compare-and-swap, with the request the record calls pending. -/
def Owner.call (o : Owner) (m : Mailbox) : Job → Option OwnerPc
  | .releaseBeforeStart =>
    if o.entered then none
    else if m.closed then some .idle
    else some (.haveRequest .releaseBeforeStart m.requested)
  | .finishBeforeStart =>
    if o.entered then none
    else if m.closed then some .left
    else some (.closing .finishBeforeStart m.requested)
  | .ready =>
    if o.entered = false then none
    else if m.closed then some .readying
    else some (.haveRequest .ready m.requested)
  | .cleanup =>
    if o.entered = false then none
    else if m.closed then some .cleaning
    else some (.haveRequest .cleanup m.requested)
  | .pending =>
    if o.entered = false then none
    else if m.closed then some .idle
    else some (.haveRequest .pending m.requested)
  | .finish => if o.release = .pending then some (.closing .finish o.sequence) else none

/-- The load of `acknowledged_` that follows the load of `requested_`. -/
def Mailbox.compare (m : Mailbox) (current : ℕ) : Job → OwnerPc
  | .releaseBeforeStart => if current = m.acknowledged then .idle else .closing .releaseBeforeStart current
  | .ready => if current = m.acknowledged then .closing .ready current else .idle
  | .cleanup => if current = m.acknowledged then .closing .cleanup current else .idle
  | .pending => if current = m.acknowledged then .idle else .persist current
  | .finishBeforeStart => .idle
  | .finish => .idle

/-- The compare-and-swap on `requested_` succeeds. -/
def Mailbox.swaps (m : Mailbox) (current : ℕ) : Bool := m.closed = false ∧ m.requested = current

/-- The mailbox behind the compare-and-swap that sets the closed bit. -/
def Mailbox.closeAt (m : Mailbox) (current : ℕ) : Mailbox := { m with closed := m.closed || m.swaps current }

/-- Where the compare-and-swap that sets the closed bit leads.  `finish_release_admission` ignores its result,
`close_release_admission` returns it, `finish_before_start` tries again with the value it found. -/
def Mailbox.close (m : Mailbox) (current : ℕ) : Job → OwnerPc
  | .releaseBeforeStart => .acking .releaseBeforeStart current true
  | .finish => .acking .finish current true
  | .finishBeforeStart =>
    if m.swaps current then .closedUp current
    else if m.closed then .left
    else .closing .finishBeforeStart m.requested
  | .ready => if m.swaps current then .readying else .idle
  | .cleanup => if m.swaps current then .cleaning else .idle
  | .pending => .idle

/-- Which records may be handed to `publish`, and what follows: between calls anything but the two last phases;
behind a call what that call is about. -/
def Owner.publishes (o : Owner) (f : Facts) : OwnerPc → Option Cont
  | .idle => if o.entered ∧ o.Carries f ∧ f.phase ≠ .ready ∧ f.phase ≠ .released then some .idle else none
  | .persist current =>
    if f.releaseSequence = current ∧ f.release = .pending ∧ f.phase = .releasing ∧ f.releaseErrno = 0 then
      some .idle
    else none
  | .finishing =>
    if f.releaseSequence = o.sequence ∧ f.release = .released ∧ f.phase = .released ∧ f.releaseErrno = 0 then
      some .leave
    else none
  | .readying => if o.Carries f ∧ f.phase = .ready then some .leave else none
  | .cleaning =>
    if o.Carries f ∧ f.phase ≠ .ready then some (if f.phase = .released then .leave else .cleaning) else none
  | _ => none

/-- The record `release_before_start` and `finish_before_start` publish. -/
def releasedBeforeStart (accepted : Bool) (current : ℕ) : Facts :=
  if accepted then { phase := .released, releaseSequence := current, release := .released }
  else { phase := .released }

/-- Where the owner goes once the version is even again. -/
def Cont.pc : Cont → OwnerPc
  | .idle => .idle
  | .acknowledge n => .refusing n
  | .cleaning => .cleaning
  | .leave => .left

variable {ι : Type}

/-- Hand a record to `publish`. -/
def State.hand (s : State ι) (f : Facts) (k : Cont) : State ι :=
  { s with pc := .begin f k, owner := s.owner.take f }

/-- The next atomic operation of the owner's call in progress. -/
def State.ownerNext (s : State ι) : Option (State ι) :=
  match s.pc with
  | .haveRequest job current => some { s with pc := s.mail.compare current job }
  | .closing job current =>
    some { s with mail := s.mail.closeAt current, pc := s.mail.close current job }
  | .closedUp current =>
    some { s with pc := .acking .finishBeforeStart current (current ≠ s.mail.acknowledged) }
  | .acking job current accepted =>
    let s' := { s with mail := { s.mail with acknowledged := current } }
    some (if job = .finish then { s' with pc := .finishing }
      else s'.hand (releasedBeforeStart accepted current) .leave)
  | .begin f k => some { s with cell := s.cell.bump, pc := .storing f Field.all k }
  | .storing f (i :: todo) k => some { s with cell := s.cell.store i (f.words i), pc := .storing f todo k }
  | .storing f [] k => some { s with cell := s.cell.bump, pc := k.pc, published := f :: s.published }
  | .refusing n => some { s with mail := { s.mail with acknowledged := n }, pc := .idle }
  | _ => none

def State.ownerStep (s : State ι) : OwnerAct → Option (State ι)
  | .enter =>
    if s.pc = .idle ∧ s.owner.entered = false then some { s with owner := { s.owner with entered := true } }
    else none
  | .call job => if s.pc = .idle then (s.owner.call s.mail job).map fun pc => { s with pc := pc } else none
  | .publish f => (s.owner.publishes f s.pc).map (s.hand f)
  | .skip =>
    if s.pc = .persist s.owner.sequence ∧ s.owner.release = .pending then some { s with pc := .idle } else none
  | .refuse f =>
    if s.pc = .idle ∧ s.owner.release = .pending ∧ f.releaseSequence = s.owner.sequence ∧
        f.release = .refused ∧ f.phase = .retained then
      some (s.hand f (.acknowledge s.owner.sequence))
    else none
  | .next => s.ownerNext

/-! ### The callers and the observer -/

variable [DecidableEq ι]

/-- `closed_bit`. -/
def closedBit : ℕ := 2 ^ 63

/-- `request_release` up to its load of `requested_`. -/
def Mailbox.request (m : Mailbox) (generation g sequence : ℕ) : RequesterPc :=
  if g ≠ generation ∨ sequence = 0 ∨ closedBit ≤ sequence then .idle (some .stale)
  else if m.closed then .idle (some .notStartup)
  else if sequence ≤ m.requested then .idle (some .stale)
  else .loaded sequence m.requested

/-- The rest of `request_release`: the load of `acknowledged_`, then the compare-and-swap. -/
def State.requesterNext (s : State ι) (i : ι) : Option (State ι) :=
  match s.requester i with
  | .idle _ => none
  | .loaded sequence current =>
    let pc : RequesterPc :=
      if current ≠ s.mail.acknowledged then .idle (some .busy) else .matched sequence current
    some { s with requester := Function.update s.requester i pc }
  | .matched sequence current =>
    if s.mail.swaps current then
      some { s with
        mail := { s.mail with requested := sequence }
        accepted := sequence :: s.accepted
        requester := Function.update s.requester i (.idle (some .accepted)) }
    else
      let result : RequestResult := if s.mail.closed then .notStartup else .busy
      some { s with requester := Function.update s.requester i (.idle (some result)) }

/-- The next atomic operation of the observer. -/
def State.observe (generation : ℕ) (s : State ι) : State ι :=
  match s.observer with
  | .idle =>
    -- an odd version is not worth reading under
    if s.cell.version % 2 = 1 then s
    else { s with observer := .loading s.cell.version (fun _ => 0) Field.all }
  | .loading version values (i :: todo) =>
    { s with observer := .loading version (Function.update values i (s.cell.words i)) todo }
  | .loading version values [] =>
    { s with observer := .haveRequest version values s.mail.closed s.mail.requested }
  | .haveRequest version values closed request =>
    { s with observer := .checking version values closed request s.mail.acknowledged }
  | .checking version values closed request acknowledged =>
    if version = s.cell.version then
      { s with
        observer := .idle
        reports :=
          ⟨snapshotOf generation version (.ofWords values) closed request acknowledged, s.published⟩ ::
            s.reports }
    else { s with observer := .idle }

/-! ### The system -/

inductive Act (ι : Type) where
  | owner (a : OwnerAct)
  /-- a caller enters `request_release` -/
  | request (i : ι) (generation sequence : ℕ)
  /-- a caller's next operation -/
  | requester (i : ι)
  | observe

def step (generation : ℕ) (s : State ι) : Act ι → Option (State ι)
  | .owner a => s.ownerStep a
  | .request i g sequence =>
    match s.requester i with
    | .idle _ =>
      some { s with requester := Function.update s.requester i (s.mail.request generation g sequence) }
    | _ => none
  | .requester i => s.requesterNext i
  | .observe => some (s.observe generation)

/-- One step of the system. -/
def Step (generation : ℕ) (s : State ι) (a : Act ι) (s' : State ι) : Prop := step generation s a = some s'

end OverlayBD.Ublk.Startup
