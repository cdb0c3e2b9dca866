import OverlayBD.Ublk.ExactlyOnce

/-!
# The owner pump of a ublk queue

`run_owner_pump` (`src/src/ublk/elio_bridge.cpp`) is the coroutine that drives a queue's raw ring on its fixed
worker.  In its steady loop it collects what foreign workers left in the mailbox, submits the replies that were
batched, drains the completion queue, admits the requests found there and, with nothing more to do, parks on an
eventfd.  That one eventfd carries every kind of wake: the kernel's completions, the owner's own note that a
batch waits, a foreign handler's note that a result waits, and control.

## The model

* `RawSlot`, `Queue` — the owner's side of the raw ring (`src/src/ublk/queue.cpp`): `prepIoCmd`, `submitOwner`,
  `completeOnOwner`, `flushOwnerCompletions`, `dispatchCqe`.  What the kernel does is an outcome (`Io`, `Cqe`):
  any batch of completions, any shortage, any error.
* `PumpPc`, `Pump` — the loop's place, with the tag engine (`Engine`), the eventfd's counter and the owner's
  writes to it that are under way.
* `PStep` — the steps.  A write to the eventfd, a read of it inside `drive_owner_cq`, the parking read and each
  store of a foreign guard is a step of its own.  The worker runs one coroutine at a time: a handler gets it
  only where the pump is suspended.

A guard that leaves a result behind it makes a `Note`, which is `marked` once `handler_failed` is stored,
`pended` once `foreign_pending` is, and `notified` once the eventfd is written; only the specification reads
these three lists.

The engine's own steps are those of `EStep`.  A step that does not move the owner's place is somebody else's or
does not matter to the pump; one that does belongs to the coroutine that has the worker.  The sink of this pump
never throws: `complete_on_owner` reports what is wrong by `fail`.
-/

namespace OverlayBD.Ublk

open Errno

variable {n : ℕ}

/-! ### The raw ring -/

/-- `Queue::RawSlot`. -/
structure RawSlot where
  cookie : ℕ := 0
  pending : Bool := false
  delivered : Bool := false
  completing : Bool := false
  replyReady : Bool := false
  reply : ℤ := 0

/-- What the owner keeps of its queue. -/
structure Queue (n : ℕ) where
  raw : Fin n → RawSlot
  /-- `owner_pending_`, the requests delivered and not yet admitted. -/
  ring : List IoRequest
  nextCookie : ℕ
  /-- Commands prepared and not yet submitted, by their cookies. -/
  prepared : List ℕ
  deliveredCount : ℕ
  completionPending : Bool
  debtKnown : Bool
  failed : Bool
  stop : Bool
  releasing : Bool
  /-- Writes to the eventfd that the owner's code has got to and not yet made. -/
  owed : ℕ

/-- What the kernel makes of one preparation and one submission. -/
structure Io where
  /-- There is a free submission entry. -/
  room : Bool
  /-- If not, `io_uring_submit` takes some, perhaps fails, and there is one now or not. -/
  flushed : ℕ
  flushError : Bool
  again : Bool
  /-- `submit_owner` gets everything out, or an error after some. -/
  submitError : Bool
  submitted : ℕ

/-- A completion, with the request the kernel describes in the command buffer. -/
structure Cqe where
  userData : ℕ
  res : ℤ
  more : Bool
  request : IoRequest

namespace Queue

/-- `fail`, called on the owner: its wake goes to the eventfd. -/
def fail (q : Queue n) : Queue n := { q with failed := true, owed := q.owed + 1 }

/-- `debt_known_ = false; fail(EPROTO)`. -/
def disown (q : Queue n) : Queue n := { q with debtKnown := false }.fail

def setRaw (q : Queue n) (t : Fin n) (x : RawSlot) : Queue n := { q with raw := Function.update q.raw t x }

/-- `prep_io_cmd` from `io_uring_get_sqe` on, where it may have to make room first. -/
def makeRoom (q : Queue n) (io : Io) : Queue n :=
  if io.room then q
  else if io.flushError then { q with prepared := q.prepared.drop io.flushed }.fail
  else { q with prepared := q.prepared.drop io.flushed }

/-- `prep_io_cmd` of a `COMMIT_AND_FETCH`. -/
def prepIoCmd (q : Queue n) (t : Fin n) (io : Io) : Queue n :=
  if (q.raw t).pending ∨ 2 ^ 47 ≤ q.nextCookie then q.disown
  else if io.room = false ∧ io.again = false then (q.makeRoom io).fail
  else
    let q := q.makeRoom io
    let cookie := q.nextCookie * 2 ^ 16 + t.val
    { q.setRaw t { q.raw t with
        cookie := cookie, pending := true, completing := true, delivered := false, replyReady := false } with
      nextCookie := q.nextCookie + 1
      prepared := q.prepared ++ [cookie]
      deliveredCount := if (q.raw t).delivered then q.deliveredCount - 1 else q.deliveredCount }

/-- `submit_owner`. -/
def submitOwner (q : Queue n) (io : Io) : Queue n :=
  if io.submitError then { q with prepared := q.prepared.drop io.submitted }.fail else { q with prepared := [] }

/-- `complete_on_owner`.  Batching is closed only behind the steady loop. -/
def completeOnOwner (q : Queue n) (t : Fin n) (result : ℤ) (io : Io) : Queue n :=
  if (q.raw t).delivered = false ∨ (q.raw t).pending ∨ (q.raw t).replyReady then q.disown
  else
    let q := (q.setRaw t { q.raw t with reply := result, replyReady := true }).prepIoCmd t io
    if q.deliveredCount = 0 ∨ q.failed then { q with completionPending := false }.submitOwner io
    else if q.completionPending then q
    else { q with completionPending := true, owed := q.owed + 1 }

/-- `flush_owner_completions`. -/
def flushOwnerCompletions (q : Queue n) (io : Io) : Queue n :=
  if q.completionPending then { q with completionPending := false }.submitOwner io else q

/-- `kPollMarker`. -/
def kPollMarker : ℕ := 2 ^ 63

/-- `dispatch_cqe` of a completion that is the slot's own. -/
def dispatchOwn (q : Queue n) (t : Fin n) (c : Cqe) : Queue n :=
  let x := { q.raw t with pending := false, completing := false }
  if c.res < 0 then
    let q₁ := if (q.raw t).completing ∧ c.res ≠ -enodev then
        { q.setRaw t { x with delivered := true } with
          deliveredCount := q.deliveredCount + 1, debtKnown := false }
      else q.setRaw t x
    if c.res ≠ -enodev ∧ c.res ≠ -eintr ∧ c.res ≠ -ecanceled then q₁.fail else q₁
  else
    let q₁ := { q with deliveredCount := q.deliveredCount + 1 }
    if q.releasing ∨ q.failed then
      q₁.setRaw t { x with delivered := true, reply := -ecanceled, replyReady := true }
    else if q.ring.length = n then
      -- the ring is full; the exception ends in `fail(EIO)`
      (q₁.setRaw t { x with delivered := true, reply := -enomem, replyReady := true }).fail
    else { q₁.setRaw t { x with delivered := true } with ring := q.ring ++ [{ c.request with tag := t.val }] }

/-- The body of the drain loop, `dispatch_cqe` among it. -/
def dispatchCqe (q : Queue n) (c : Cqe) : Queue n :=
  if kPollMarker ≤ c.userData then q.disown
  else if h : c.userData % 2 ^ 16 < n then
    let t : Fin n := ⟨c.userData % 2 ^ 16, h⟩
    if (q.raw t).pending = false ∨ (q.raw t).cookie ≠ c.userData ∨ c.more then q.disown else q.dispatchOwn t c
  else q.disown

end Queue

/-! ### The loop -/

/-- `kCqTurn`. -/
def kCqTurn : ℕ := 32

/-- Where the steady loop is. -/
inductive PumpPc where
  /-- at the loop's condition -/
  | top
  /-- in its first `collect_foreign_results` -/
  | collecting
  /-- about to call `flush_owner_completions` -/
  | flushing
  /-- in `drain_owner_cq_turn`, about to enter the ring -/
  | entering (consumed hints : ℕ)
  /-- in `drain_owner_cq_turn`, about to read the eventfd -/
  | hinting (consumed hints : ℕ)
  /-- about to call `try_pop_request` -/
  | popping (more : Bool)
  /-- collects before it admits the request -/
  | collectingFor (request : IoRequest) (more : Bool)
  /-- in `admit` -/
  | admitting (more : Bool)
  /-- suspended; `admit` could not signal the handler -/
  | yielding (tag : ℕ) (more : Bool)
  /-- about to look at `stop` and `failed` -/
  | deciding (more : Bool)
  /-- suspended in `sleep_for(1ns)` -/
  | sleeping
  /-- suspended in the read of the eventfd -/
  | parked
  /-- the read is done, the coroutine not yet back on its worker -/
  | awake
  /-- the loop is over -/
  | exited

/-- The pump does not have the worker. -/
def PumpPc.suspended : PumpPc → Bool
  | .yielding _ _ | .sleeping | .parked | .awake => true
  | _ => false

/-- What a guard leaves for the owner: its tag, and the generation of its result if there is one. -/
abbrev Note (n : ℕ) := Fin n × Option ℕ

/-- The pump and all it works with. -/
structure Pump (n : ℕ) where
  engine : Engine n
  queue : Queue n
  pc : PumpPc
  /-- The eventfd. -/
  counter : ℕ
  marked : List (Note n)
  pended : List (Note n)
  notified : List (Note n)

namespace Pump

/-- The sink's `fail`, on the owner. -/
def failures (s : Pump n) (e : Engine n) : Queue n :=
  if e.failures = s.engine.failures then s.queue else s.queue.fail

/-- A step of the engine on the owner: what the sink was given goes to the queue. -/
def absorb (s : Pump n) (e : Engine n) (io : Io) : Pump n :=
  { s with
    engine := e
    queue :=
      match e.published.drop s.engine.published.length with
      | [] => s.failures e
      | p :: _ => (s.failures e).completeOnOwner p.tag p.result io }

/-- A step of the engine elsewhere: nothing is published there, and a failure's wake is one of the control's. -/
def outside (s : Pump n) (e : Engine n) : Pump n :=
  { s with
    engine := e
    queue := if e.failures = s.engine.failures then s.queue else { s.queue with failed := true } }

/-- `queue->fail(EIO)` in the loop's `catch`. -/
def caught (s : Pump n) : Pump n := { s with queue := s.queue.fail, pc := .top }

/-- Where `drain_owner_cq_turn` goes on behind a drain. -/
def drained (consumed hints : ℕ) (more : Bool) : PumpPc :=
  if more ∨ consumed = kCqTurn then .popping true
  else if hints = kCqTurn then .popping true
  else .hinting consumed hints

end Pump

/-- The result a guard has left in the tag's slot. -/
def Tag.left (x : Tag) : Option ℕ :=
  if x.slot.state = mailboxState x.generation kReady then some x.generation else none

/-- The owner is in a call of the pump's. -/
def Owner.ofPump : Owner n → Bool
  | .collecting _ _ | .taking _ _ | .settling _ _ _ | .admitting _ | .activating _ | .signalling _ => true
  | _ => false

/-- The owner is in a handler's completion. -/
def Owner.ofHandler : Owner n → Bool
  | .retiring _ _ | .deactivating _ => true
  | _ => false

/-- The steps that the property's condition speaks of, and the others. -/
inductive PumpAct where
  /-- `drive_owner_cq` takes the eventfd's counter. -/
  | hint
  | other
  deriving DecidableEq

/-- A new batch of completions is drained. -/
def Queue.drain (q : Queue n) (batch : List Cqe) : Queue n := batch.foldl Queue.dispatchCqe q

/-- **The steps.**  Those of the owner's worker wait for a write to the eventfd it has got to. -/
inductive PStep : Pump n → PumpAct → Pump n → Prop
  /-- The loop goes round: `collect_foreign_results` begins. -/
  | loop {s : Pump n} (hpc : s.pc = .top) (ho : s.queue.owed = 0) (hs : s.queue.stop = false)
      (hf : s.queue.failed = false) :
      PStep s .other { s with engine := s.engine.beginCollect none, pc := .collecting }
  | leave {s : Pump n} (hpc : s.pc = .top) (ho : s.queue.owed = 0)
      (hs : s.queue.stop = true ∨ s.queue.failed = true) : PStep s .other { s with pc := .exited }
  /-- A step of `collect_foreign_results`, in the loop or in `admit`. -/
  | collect {s : Pump n} {e : Engine n} {io : Io} (ho : s.queue.owed = 0)
      (hpc : s.pc = .collecting ∨ (∃ r more, s.pc = .collectingFor r more) ∨ ∃ more, s.pc = .admitting more)
      (hp : s.engine.owner.scanFrom.isSome) (hstep : EStep s.engine e) (hmove : e.owner ≠ s.engine.owner)
      (hquiet : ∀ t q r, s.engine.owner = .settling t q (some r) → e = s.engine.settle t q (some r) false) :
      PStep s .other (s.absorb e io)
  | collected {s : Pump n} (hpc : s.pc = .collecting) (ho : s.queue.owed = 0) (hi : s.engine.owner = .idle) :
      PStep s .other { s with pc := .flushing }
  | flush {s : Pump n} {io : Io} (hpc : s.pc = .flushing) (ho : s.queue.owed = 0) :
      PStep s .other { s with queue := s.queue.flushOwnerCompletions io, pc := .entering 0 0 }
  /-- `GETEVENTS` and a drain of at most what is left of the budget. -/
  | enter {s : Pump n} {consumed hints : ℕ} {batch : List Cqe} {more : Bool}
      (hpc : s.pc = .entering consumed hints) (ho : s.queue.owed = 0)
      (hb : consumed + batch.length ≤ kCqTurn) :
      PStep s .other
        { s with queue := s.queue.drain batch, pc := Pump.drained (consumed + batch.length) hints more }
  | enterFail {s : Pump n} {consumed hints : ℕ} (hpc : s.pc = .entering consumed hints)
      (ho : s.queue.owed = 0) : PStep s .other { s with queue := s.queue.fail, pc := .popping false }
  | hint {s : Pump n} {consumed hints : ℕ} (hpc : s.pc = .hinting consumed hints) (ho : s.queue.owed = 0)
      (hc : 0 < s.counter) : PStep s .hint { s with counter := 0, pc := .entering consumed (hints + 1) }
  | noHint {s : Pump n} {consumed hints : ℕ} (hpc : s.pc = .hinting consumed hints) (ho : s.queue.owed = 0)
      (hc : s.counter = 0) : PStep s .other { s with pc := .popping false }
  | hintFail {s : Pump n} {consumed hints : ℕ} (hpc : s.pc = .hinting consumed hints)
      (ho : s.queue.owed = 0) : PStep s .other { s with queue := s.queue.fail, pc := .popping false }
  /-- `try_pop_request` finds a request, and the loop collects before it admits it. -/
  | pop {s : Pump n} {more : Bool} {r : IoRequest} {rest : List IoRequest} (hpc : s.pc = .popping more)
      (ho : s.queue.owed = 0) (hr : s.queue.releasing = false) (hring : s.queue.ring = r :: rest) :
      PStep s .other
        { s with
          engine := s.engine.beginCollect none
          queue := { s.queue with ring := rest }
          pc := .collectingFor r more }
  | popNone {s : Pump n} {more : Bool} (hpc : s.pc = .popping more) (ho : s.queue.owed = 0)
      (hr : s.queue.releasing = true ∨ s.queue.ring = []) : PStep s .other { s with pc := .deciding more }
  | admitCall {s : Pump n} {more : Bool} {r : IoRequest} (hpc : s.pc = .collectingFor r more)
      (ho : s.queue.owed = 0) (hi : s.engine.owner = .idle) :
      PStep s .other { s with engine := s.engine.beginCollect (some r), pc := .admitting more }
  /-- `admit` accepts the request, or throws. -/
  | admission {s : Pump n} {more : Bool} {r : IoRequest} (hpc : s.pc = .admitting more)
      (ho : s.queue.owed = 0) (hi : s.engine.owner = .admitting r) :
      PStep s .other
        (if (s.engine.admission r).owner.ofPump then { s with engine := s.engine.admission r }
          else { s with engine := s.engine.admission r }.caught)
  | activate {s : Pump n} {more : Bool} {t : Fin n} (hpc : s.pc = .admitting more) (ho : s.queue.owed = 0)
      (hi : s.engine.owner = .activating t) :
      PStep s .other
        { s with engine := { s.engine.setTag t (s.engine.tags t).activate with owner := .signalling t } }
  | signal {s : Pump n} {more : Bool} {t : Fin n} (hpc : s.pc = .admitting more) (ho : s.queue.owed = 0)
      (hi : s.engine.owner = .signalling t) :
      PStep s .other
        { s with
          engine := { s.engine.setTag t { s.engine.tags t with ready := true } with owner := .idle }
          pc := .popping more }
  | signalFail {s : Pump n} {more : Bool} {t : Fin n} (hpc : s.pc = .admitting more) (ho : s.queue.owed = 0)
      (hi : s.engine.owner = .signalling t) :
      PStep s .other { s with engine := { s.engine with owner := .idle }, pc := .yielding t more }
  /-- The spawn of the handler threw. -/
  | spawnThrows {s : Pump n} {more : Bool} {t : Fin n} (hpc : s.pc = .admitting more)
      (ho : s.queue.owed = 0) (hi : s.engine.owner = .signalling t) :
      PStep s .other { s with engine := { s.engine with owner := .idle } }.caught
  /-- `retry_signal` sets the event; if it cannot, the pump stays suspended. -/
  | retry {s : Pump n} {more : Bool} {t : Fin n} (hpc : s.pc = .yielding t more) (ho : s.queue.owed = 0)
      (hi : s.engine.owner = .idle) :
      PStep s .other
        { s with engine := s.engine.setTag t { s.engine.tags t with ready := true }, pc := .popping more }
  | stopNow {s : Pump n} {more : Bool} (hpc : s.pc = .deciding more) (ho : s.queue.owed = 0)
      (hs : s.queue.stop = true ∨ s.queue.failed = true) : PStep s .other { s with pc := .exited }
  | sleep {s : Pump n} (hpc : s.pc = .deciding true) (ho : s.queue.owed = 0) (hs : s.queue.stop = false)
      (hf : s.queue.failed = false) : PStep s .other { s with pc := .sleeping }
  | park {s : Pump n} (hpc : s.pc = .deciding false) (ho : s.queue.owed = 0) (hs : s.queue.stop = false)
      (hf : s.queue.failed = false) : PStep s .other { s with pc := .parked }
  /-- The parking read completes. -/
  | unpark {s : Pump n} (hpc : s.pc = .parked) (hc : 0 < s.counter) :
      PStep s .other { s with counter := 0, pc := .awake }
  | unparkFail {s : Pump n} (hpc : s.pc = .parked) (ho : s.queue.owed = 0) (hi : s.engine.owner = .idle) :
      PStep s .other { s with queue := s.queue.fail, pc := .awake }
  | resume {s : Pump n} (hpc : s.pc = .awake ∨ s.pc = .sleeping) (ho : s.queue.owed = 0)
      (hi : s.engine.owner = .idle) : PStep s .other { s with pc := .top }
  /-- The pump is suspended and a handler has the worker. -/
  | handler {s : Pump n} {e : Engine n} {io : Io} (hpc : s.pc.suspended = true) (ho : s.queue.owed = 0)
      (hstep : EStep s.engine e)
      (hmove : (s.engine.owner = .idle ∧ e.owner.ofHandler = true) ∨
        (s.engine.owner.ofHandler = true ∧ e.owner ≠ s.engine.owner)) : PStep s .other (s.absorb e io)
  /-- The owner writes the eventfd. -/
  | write {s : Pump n} (ho : 0 < s.queue.owed) :
      PStep s .other { s with queue := { s.queue with owed := s.queue.owed - 1 }, counter := s.counter + 1 }
  /-- A step that does not move the owner: a frame is woken or destroyed, a guard claims and fills its slot. -/
  | background {s : Pump n} {e : Engine n} (hstep : EStep s.engine e) (hsame : e.owner = s.engine.owner)
      (hlate : e.late = s.engine.late) (hclosed : e.closed = s.engine.closed) : PStep s .other (s.outside e)
  /-- A guard stores `handler_failed`. -/
  | mark {s : Pump n} {t : Fin n} (hh : (s.engine.tags t).handler = .marking) :
      PStep s .other
        { s with
          engine := { s.engine.setTag t { s.engine.tags t with handlerFailed := true, handler := .absent } with
            late := s.engine.late + 1 }
          marked := (t, (s.engine.tags t).left) :: s.marked }
  /-- A guard stores `foreign_pending`. -/
  | pend {s : Pump n} {a : Note n} (ha : a ∈ s.marked) :
      PStep s .other
        { s with
          engine := { s.engine with late := s.engine.late - 1, foreignPending := true }
          marked := s.marked.erase a
          pended := a :: s.pended }
  /-- A guard writes the eventfd. -/
  | notify {s : Pump n} {a : Note n} (ha : a ∈ s.pended) :
      PStep s .other
        { s with counter := s.counter + 1, pended := s.pended.erase a, notified := a :: s.notified }
  /-- The kernel or the control writes the eventfd. -/
  | signalled {s : Pump n} : PStep s .other { s with counter := s.counter + 1 }
  /-- Someone else fails the queue. -/
  | failed {s : Pump n} : PStep s .other { s with queue := { s.queue with failed := true } }
  | stop {s : Pump n} : PStep s .other { s with queue := { s.queue with stop := true } }
  /-- `request_release`; `Device` has set `stop` before. -/
  | release {s : Pump n} (hs : s.queue.stop = true) :
      PStep s .other { s with queue := { s.queue with releasing := true } }

/-- The steady loop begins: the initial commands are out and nothing has been delivered. -/
def Pump.start (n : ℕ) : Pump n where
  engine := Engine.create n
  queue :=
    { raw := fun t => { cookie := (t.val + 1) * 2 ^ 16 + t.val, pending := true }
      ring := []
      nextCookie := n + 1
      prepared := []
      deliveredCount := 0
      completionPending := false
      debtKnown := true
      failed := false
      stop := false
      releasing := false
      owed := 0 }
  pc := .top
  counter := 0
  marked := []
  pended := []
  notified := []

end OverlayBD.Ublk
