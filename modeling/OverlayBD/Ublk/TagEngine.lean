import Mathlib.Logic.Function.Basic
import OverlayBD.Lib.Bytes
import OverlayBD.Lib.Transition

/-!
# The tag engine of a ublk queue

One reusable handler coroutine serves each tag of a queue.  The owner worker admits requests, runs the
handlers' owner sections and is the only caller of the result sink.  A handler frame may be destroyed on any
worker; its guard then leaves an error result for the owner in the tag's mailbox slot.

## The model

* `Slot` — a mailbox slot, one word for generation and phase and one for the result; `arm`, `retire`, `claim`
  (the exchange `publish` starts with), `fill`, `ready` (its two stores) and `take`.
* `IoRequest`, `serve` — a request and the result `run_tag` computes for it from what the source did.
* `Tag` — the state of one tag: the owner's fields, the two atomics shared with the guard, the wake event, the
  mailbox slot and the place of its handler frame (`Handler`).
* `Owner` — the place of the owner worker inside `collect_foreign_results`, `admit` or a handler's completion.
* `Engine`, `EStep` — all tags, the sink and the steps.  Each step performs at most one operation on state the
  guard shares with the owner, so a guard that runs on another worker interleaves with the owner at the grain
  of atomic operations.  A frame may be destroyed whenever its handler is suspended; an exception that leaves
  the handler ends in the same guard.

The sink records what it was given: `published`, with the generation the result was produced for and the one
admitted at that moment, and `failures`.  It may throw from `publish`, before it has taken the result.
-/

namespace OverlayBD.Ublk

open Errno

/-! ### The mailbox -/

def kStateBits : ℕ := 2
def kArmed : ℕ := 1
def kWriting : ℕ := 2
def kReady : ℕ := 3
def kMaxGeneration : ℕ := (2 ^ 64 - 1) >>> kStateBits

/-- `mailbox_state`. -/
def mailboxState (generation state : ℕ) : ℕ := generation <<< kStateBits ||| state

/-- One slot of the `ForeignResultMailbox`. -/
structure Slot where
  state : ℕ
  result : ℤ
  /-- The generation the stored result was produced for; only the specification reads it. -/
  producedFor : ℕ

namespace Slot

/-- `generation == 0 || generation > kMaxGeneration`, negated. -/
def ValidGeneration (generation : ℕ) : Prop := generation ≠ 0 ∧ generation ≤ kMaxGeneration

instance (generation : ℕ) : Decidable (ValidGeneration generation) := inferInstanceAs (Decidable (_ ∧ _))

/-- `ForeignResultMailbox::arm`; `none` when it returns `false`. -/
def arm (s : Slot) (generation : ℕ) : Option Slot :=
  if ValidGeneration generation ∧ s.state = 0 then some { s with state := mailboxState generation kArmed }
  else none

/-- `ForeignResultMailbox::retire`. -/
def retire (s : Slot) (generation : ℕ) : Option Slot :=
  if ValidGeneration generation ∧ s.state = mailboxState generation kArmed then some { s with state := 0 }
  else none

/-- The exchange that starts `ForeignResultMailbox::publish`. -/
def claim (s : Slot) (generation : ℕ) : Option Slot :=
  if ValidGeneration generation ∧ s.state = mailboxState generation kArmed then
    some { s with state := mailboxState generation kWriting }
  else none

/-- Its store of the result. -/
def fill (s : Slot) (generation : ℕ) (result : ℤ) : Slot := { s with result := result, producedFor := generation }

/-- Its store of the final state. -/
def ready (s : Slot) (generation : ℕ) : Slot := { s with state := mailboxState generation kReady }

/-- `ForeignResultMailbox::take`.  Nobody but the owner moves a slot that is ready, so its load and its
exchange are one step. -/
def take (s : Slot) (generation : ℕ) : Option (Slot × ℤ × ℕ) :=
  if ValidGeneration generation ∧ s.state = mailboxState generation kReady then
    some ({ s with state := 0 }, s.result, s.producedFor)
  else none

end Slot

/-! ### Requests -/

/-- `UBLK_IO_OP_*`. -/
inductive IoOp where
  | read | write | flush | discard | writeZeroes | writeSame | other
  deriving DecidableEq

/-- `IoRequest`; of its flags the handler reads `UBLK_IO_F_NOUNMAP` only. -/
structure IoRequest where
  tag : ℕ
  op : IoOp
  noUnmap : Bool
  startSector : ℕ
  nrSectors : ℕ

/-- `byte_len`, a 32-bit product. -/
def IoRequest.byteLen (r : IoRequest) : ℕ := r.nrSectors * 512 % 2 ^ 32

/-- What the awaited source call did. -/
inductive Outcome where
  | returned (value : ℤ)
  | threw
  /-- The handler was cancelled and made no call. -/
  | cancelled

/-- `static_cast<int32_t>` of a length. -/
def lengthResult (n : ℕ) : ℤ := (n : ℤ).bmod (2 ^ 32)

/-- The result `run_tag` publishes. -/
def serve (writable : Bool) (r : IoRequest) : Outcome → ℤ
  | .cancelled => -eio
  | .threw =>
    match r.op, writable with
    | .read, _ => -eio
    | .flush, true | .write, true | .discard, true | .writeZeroes, true => -eio
    | .flush, false => 0
    | .write, false | .discard, false | .writeZeroes, false => -erofs
    | .writeSame, _ | .other, _ => -eopnotsupp
  | .returned v =>
    match r.op, writable with
    | .read, _ => if v < 0 then v else lengthResult r.byteLen
    | .flush, true => v
    | .flush, false => 0
    | .write, true => if v < 0 then v else lengthResult r.byteLen
    | .discard, true => v
    | .writeZeroes, true => if r.noUnmap then (if v < 0 then v else 0) else v
    | .write, false | .discard, false | .writeZeroes, false => -erofs
    | .writeSame, _ | .other, _ => -eopnotsupp

/-! ### The state -/

/-- Where a handler frame is. -/
inductive Handler where
  /-- No frame, or one that finished. -/
  | absent
  /-- Spawned, not yet at its loop. -/
  | fresh
  /-- Waits for `ready`. -/
  | waiting
  /-- The wait returned; it restores its worker. -/
  | woken
  /-- Serves a request, captured with its generation. -/
  | serving (generation : ℕ) (request : IoRequest)
  /-- On the owner, its result published. -/
  | finishing
  /-- `mark_failed` starts: `active_generation` is loaded next. -/
  | dying
  /-- The mailbox slot is claimed next. -/
  | claiming (generation : ℕ)
  | filling (generation : ℕ)
  | readying (generation : ℕ)
  /-- `handler_failed` is stored next. -/
  | marking

/-- `TagState`, with the tag's mailbox slot and handler frame. -/
structure Tag where
  request : IoRequest
  ready : Bool
  generation : ℕ
  nextGeneration : ℕ
  busy : Bool
  started : Bool
  closing : Bool
  /-- `active_generation`. -/
  active : ℕ
  handlerFailed : Bool
  slot : Slot
  handler : Handler

/-- A result the owner took out of a slot. -/
structure Taken where
  result : ℤ
  producedFor : ℕ

/-- Where the owner worker is. -/
inductive Owner (n : ℕ) where
  | idle
  /-- `collect_foreign_results` looks at tag `k` next; afterwards `admit` may go on with its request. -/
  | collecting (k : ℕ) (pending : Option IoRequest)
  /-- It found a failed handler; `take` comes next. -/
  | taking (t : Fin n) (pending : Option IoRequest)
  | settling (t : Fin n) (pending : Option IoRequest) (result : Option Taken)
  /-- `admit`, past its collection. -/
  | admitting (request : IoRequest)
  /-- The slot is armed; `active_generation` is stored next. -/
  | activating (t : Fin n)
  | signalling (t : Fin n)
  /-- A handler published; its slot is retired next. -/
  | retiring (t : Fin n) (generation : ℕ)
  | deactivating (t : Fin n)

/-- A result the sink took. -/
structure Publication (n : ℕ) where
  tag : Fin n
  generation : ℕ
  result : ℤ
  /-- The generation whose request or whose failure produced the result. -/
  producedFor : ℕ
  /-- The generation admitted for the tag at that moment, if any. -/
  current : Option ℕ

/-- The obligation a publication discharges. -/
def Publication.key {n : ℕ} (p : Publication n) : Fin n × ℕ := (p.tag, p.generation)

/-- `TagEngine` and its sink. -/
structure Engine (n : ℕ) where
  tags : Fin n → Tag
  foreignPending : Bool
  /-- Guards that have stored `handler_failed` and have yet to store `foreign_pending`. -/
  late : ℕ
  owner : Owner n
  closed : Bool
  published : List (Publication n)
  /-- Errors reported to `sink.fail`. -/
  failures : List ℤ
  /-- Every obligation admitted so far. -/
  admitted : List (Fin n × ℕ)

variable {n : ℕ}

namespace Engine

/-- Replace one tag. -/
def setTag (s : Engine n) (t : Fin n) (x : Tag) : Engine n := { s with tags := Function.update s.tags t x }

/-- `sink.fail`. -/
def fail (s : Engine n) (error : ℤ) : Engine n := { s with failures := s.failures ++ [error] }

/-- Sticky: the sink was told of a failure. -/
def Failed (s : Engine n) : Prop := s.failures ≠ []

/-- The obligations discharged so far. -/
def keys (s : Engine n) : List (Fin n × ℕ) := s.published.map Publication.key

end Engine

/-- A tag never used. -/
def Tag.unused : Tag where
  request := ⟨0, .read, false, 0, 0⟩
  ready := false
  generation := 0
  nextGeneration := 1
  busy := false
  started := false
  closing := false
  active := 0
  handlerFailed := false
  slot := ⟨0, 0, 0⟩
  handler := .absent

/-- The engine as constructed. -/
def Engine.create (n : ℕ) : Engine n where
  tags := fun _ => Tag.unused
  foreignPending := false
  late := 0
  owner := .idle
  closed := false
  published := []
  failures := []
  admitted := []

/-- The generation admitted for a tag, if any. -/
def Tag.current (x : Tag) : Option ℕ := if x.busy then some x.generation else none

/-! ### What the owner computes -/

/-- Where the owner goes on when a collection is over. -/
def Owner.resume : Option IoRequest → Owner n
  | none => .idle
  | some r => .admitting r

/-- `collect_foreign_results` up to its loop. -/
def Engine.beginCollect (s : Engine n) (pending : Option IoRequest) : Engine n :=
  if s.foreignPending then { s with foreignPending := false, owner := .collecting 0 pending }
  else { s with owner := .resume pending }

/-- The rest of an iteration of `collect_foreign_results`, for a handler that failed. -/
def Engine.settle (s : Engine n) (t : Fin n) (pending : Option IoRequest) (result : Option Taken)
    (throws : Bool) : Engine n :=
  let x := s.tags t
  let s₁ := if x.busy ≠ result.isSome then s.fail eproto else s
  let s₂ := { s₁.setTag t { x with active := 0, started := false, busy := false, ready := false } with
    owner := .collecting (t.val + 1) pending }
  match result with
  | none => s₂
  | some r =>
    if throws then s₂.fail eio
    else { s₂ with published := s₂.published ++ [⟨t, x.generation, r.result, r.producedFor, x.current⟩] }

/-- `admit` from its checks to the store of `active_generation`. -/
def Engine.admission (s : Engine n) (r : IoRequest) : Engine n :=
  let s₀ := { s with owner := .idle }
  if h : r.tag < n then
    let t : Fin n := ⟨r.tag, h⟩
    let x := s.tags t
    if x.busy then s₀.fail eio
    else if x.nextGeneration = 0 ∨ kMaxGeneration < x.nextGeneration then s₀.fail eoverflow
    else
      let generation := x.nextGeneration
      match x.slot.arm generation with
      | none => (s₀.setTag t { x with nextGeneration := generation + 1 }).fail eproto
      | some slot =>
        { s.setTag t { x with
            nextGeneration := generation + 1
            slot := slot
            request := r
            generation := generation
            busy := true } with
          owner := .activating t
          admitted := s.admitted ++ [(t, generation)] }
  else s₀.fail eio

/-- A tag whose obligation is made known to its handler; `admit` spawns one if there is none. -/
def Tag.activate (x : Tag) : Tag :=
  { x with
    active := x.generation
    started := true
    handler := if x.started then x.handler else .fresh }

/-- The handler's loop from its top to the wait. -/
def Tag.loopTop (x : Tag) : Tag :=
  { x with handler := if x.closing = true ∧ x.busy = false then .absent else .waiting }

/-- The handler's loop from the wait to the call into the source. -/
def Tag.enter (x : Tag) : Tag :=
  let y := { x with ready := false }
  if y.busy then { y with handler := .serving y.generation y.request } else y.loopTop

/-- The end of a completion. -/
def Tag.release (x : Tag) : Tag := Tag.loopTop { x with active := 0, busy := false }

/-- A handler frame that is suspended. -/
def Handler.Suspended : Handler → Prop
  | .fresh | .waiting | .woken | .serving _ _ => True
  | _ => False

/-! ### The steps -/

/-- The interleaved system.  Steps that touch the owner's fields of a tag require the owner worker. -/
inductive EStep : Engine n → Engine n → Prop
  /-- The owner calls `collect_foreign_results`. -/
  | collect {s : Engine n} (ho : s.owner = .idle) : EStep s (s.beginCollect none)
  /-- The owner calls `admit`, which collects first. -/
  | admitCall {s : Engine n} {r : IoRequest} (ho : s.owner = .idle) (hc : s.closed = false) :
      EStep s (s.beginCollect (some r))
  | admitClosed {s : Engine n} (ho : s.owner = .idle) (hc : s.closed = true) : EStep s (s.fail eshutdown)
  /-- `begin_close`. -/
  | beginClose {s : Engine n} (ho : s.owner = .idle) :
      EStep s { s with closed := true, tags := fun t => { s.tags t with closing := true } }
  /-- `retry_signal` or `retry_close_signal` sets the event. -/
  | retrySignal {s : Engine n} {t : Fin n} (ho : s.owner = .idle) :
      EStep s (s.setTag t { s.tags t with ready := true })
  | retryOutOfRange {s : Engine n} (ho : s.owner = .idle) : EStep s (s.fail eio)
  /-- The collection passes a tag whose handler has not failed. -/
  | scanNext {s : Engine n} {t : Fin n} {q : Option IoRequest} (ho : s.owner = .collecting t q)
      (hf : (s.tags t).handlerFailed = false) : EStep s { s with owner := .collecting (t.val + 1) q }
  | scanHit {s : Engine n} {t : Fin n} {q : Option IoRequest} (ho : s.owner = .collecting t q)
      (hf : (s.tags t).handlerFailed = true) :
      EStep s { s.setTag t { s.tags t with handlerFailed := false } with owner := .taking t q }
  | scanEnd {s : Engine n} {q : Option IoRequest} (ho : s.owner = .collecting n q) :
      EStep s { s with owner := .resume q }
  /-- `take` finds a result of the tag's generation. -/
  | takeSome {s : Engine n} {t : Fin n} {q : Option IoRequest} {slot : Slot} {result : ℤ} {producedFor : ℕ}
      (ho : s.owner = .taking t q) (hg : (s.tags t).generation ≠ 0)
      (ht : (s.tags t).slot.take (s.tags t).generation = some (slot, result, producedFor)) :
      EStep s
        { s.setTag t { s.tags t with slot := slot } with owner := .settling t q (some ⟨result, producedFor⟩) }
  | takeNone {s : Engine n} {t : Fin n} {q : Option IoRequest} (ho : s.owner = .taking t q)
      (ht : (s.tags t).generation = 0 ∨ (s.tags t).slot.take (s.tags t).generation = none) :
      EStep s { s with owner := .settling t q none }
  | settle {s : Engine n} {t : Fin n} {q : Option IoRequest} {result : Option Taken} {throws : Bool}
      (ho : s.owner = .settling t q result) : EStep s (s.settle t q result throws)
  | admission {s : Engine n} {r : IoRequest} (ho : s.owner = .admitting r) : EStep s (s.admission r)
  | activate {s : Engine n} {t : Fin n} (ho : s.owner = .activating t) :
      EStep s { s.setTag t (s.tags t).activate with owner := .signalling t }
  /-- The event is set; or it is not, for want of memory or because the spawn threw. -/
  | signal {s : Engine n} {t : Fin n} (ho : s.owner = .signalling t) :
      EStep s { s.setTag t { s.tags t with ready := true } with owner := .idle }
  | signalFail {s : Engine n} {t : Fin n} (ho : s.owner = .signalling t) : EStep s { s with owner := .idle }
  /-- A new handler reaches its loop. -/
  | loopTop {s : Engine n} {t : Fin n} (ho : s.owner = .idle) (hh : (s.tags t).handler = .fresh) :
      EStep s (s.setTag t (s.tags t).loopTop)
  | wake {s : Engine n} {t : Fin n} (hh : (s.tags t).handler = .waiting) (hr : (s.tags t).ready = true) :
      EStep s (s.setTag t { s.tags t with handler := .woken })
  | enter {s : Engine n} {t : Fin n} (ho : s.owner = .idle) (hh : (s.tags t).handler = .woken) :
      EStep s (s.setTag t (s.tags t).enter)
  /-- A handler, back on the owner with what the source did, publishes its result. -/
  | publish {s : Engine n} {t : Fin n} {generation : ℕ} {writable : Bool} {r : IoRequest} {o : Outcome}
      (ho : s.owner = .idle) (hh : (s.tags t).handler = .serving generation r) :
      EStep s
        { s.setTag t { s.tags t with handler := .finishing } with
          owner := .retiring t generation
          published := s.published ++ [⟨t, generation, serve writable r o, generation, (s.tags t).current⟩] }
  | retire {s : Engine n} {t : Fin n} {generation : ℕ} {slot : Slot} (ho : s.owner = .retiring t generation)
      (hr : (s.tags t).slot.retire generation = some slot) :
      EStep s { s.setTag t { s.tags t with slot := slot } with owner := .deactivating t }
  | retireFail {s : Engine n} {t : Fin n} {generation : ℕ} (ho : s.owner = .retiring t generation)
      (hr : (s.tags t).slot.retire generation = none) :
      EStep s { s.fail eproto with owner := .deactivating t }
  | deactivate {s : Engine n} {t : Fin n} (ho : s.owner = .deactivating t) :
      EStep s { s.setTag t (s.tags t).release with owner := .idle }
  /-- A suspended frame is destroyed, or an exception leaves it (the sink's, from `publish`, among them). -/
  | destroy {s : Engine n} {t : Fin n} (hh : (s.tags t).handler.Suspended) :
      EStep s (s.setTag t { s.tags t with handler := .dying })
  /-- The guard loads `active_generation`. -/
  | load {s : Engine n} {t : Fin n} (hh : (s.tags t).handler = .dying) :
      EStep s (s.setTag t
        { s.tags t with handler := if (s.tags t).active = 0 then .marking else .claiming (s.tags t).active })
  | claim {s : Engine n} {t : Fin n} {generation : ℕ} {slot : Slot}
      (hh : (s.tags t).handler = .claiming generation) (hc : (s.tags t).slot.claim generation = some slot) :
      EStep s (s.setTag t { s.tags t with slot := slot, handler := .filling generation })
  | claimFail {s : Engine n} {t : Fin n} {generation : ℕ} (hh : (s.tags t).handler = .claiming generation)
      (hc : (s.tags t).slot.claim generation = none) :
      EStep s ((s.setTag t { s.tags t with handler := .marking }).fail eproto)
  | fill {s : Engine n} {t : Fin n} {generation : ℕ} (hh : (s.tags t).handler = .filling generation) :
      EStep s (s.setTag t
        { s.tags t with slot := (s.tags t).slot.fill generation (-eio), handler := .readying generation })
  | ready {s : Engine n} {t : Fin n} {generation : ℕ} (hh : (s.tags t).handler = .readying generation) :
      EStep s (s.setTag t { s.tags t with slot := (s.tags t).slot.ready generation, handler := .marking })
  /-- `handler_failed` is stored; the frame is gone. -/
  | mark {s : Engine n} {t : Fin n} (hh : (s.tags t).handler = .marking) :
      EStep s
        { s.setTag t { s.tags t with handlerFailed := true, handler := .absent } with late := s.late + 1 }
  /-- `foreign_pending` is stored and the owner notified. -/
  | pend {s : Engine n} (hl : 0 < s.late) : EStep s { s with late := s.late - 1, foreignPending := true }

/-- The steps of a run. -/
abbrev Run : Engine n → Engine n → Prop := Relation.ReflTransGen EStep

end OverlayBD.Ublk
