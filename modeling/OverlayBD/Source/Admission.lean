import OverlayBD.Lib.Transition

/-!
# The read admission funnel (`source/admission.cpp`)

Every remote request of a device passes one funnel.  A guest miss enters at once; a scavenger, prefetch or fill,
enters only while no miss is in flight and the window has room, else it queues until a releaser reserves a slot for
it.  A bounded acquire may time out, or fail, at any moment of that wait.

## The model

* `Config`, `Aimd`, `applySample` — the window and how a latency sample moves it, in 32- and 64-bit arithmetic.
* `Pc` — where one request stands: before, inside and behind `acquire` or `acquire_scavenger_bounded`.
* `State` — the counters, the two queues, the waiters ever made, the mutex and the requests, any finite number of
  them.  A waiter is a number; `reserved` and `admitted` are its two flags.
* `Act`, `Step` — one section under the mutex, one turn of the loop in `admit_locked`, or one action outside.  A
  section that ends in `admit_locked` leaves the mutex taken until the loop stops.

The counters exported for observation only are left out.
-/

namespace OverlayBD.Admission

/-- The traffic class of a request. -/
inductive ReadClass where
  | onDemand
  | prefetch
  | fill
deriving DecidableEq, Repr

/-- The two scavenger queues, `prefetch_q_` and `fill_q_`. -/
inductive Queue where
  | prefetch
  | fill
deriving DecidableEq, Repr

/-- `cls == ReadClass::Prefetch ? prefetch_q_ : fill_q_`. -/
def ReadClass.queue : ReadClass → Queue
  | .prefetch => .prefetch
  | _ => .fill

/-- The class a queue is for. -/
def Queue.cls : Queue → ReadClass
  | .prefetch => .prefetch
  | .fill => .fill

@[simp] theorem Queue.queue_cls (q : Queue) : q.cls.queue = q := by cases q <;> rfl

@[simp] theorem Queue.cls_ne_onDemand (q : Queue) : q.cls ≠ .onDemand := by cases q <;> simp [cls]

theorem ReadClass.cls_queue {c : ReadClass} (h : c ≠ .onDemand) : c.queue.cls = c := by
  cases c with
  | onDemand => exact absurd rfl h
  | prefetch => rfl
  | fill => rfl

/-! ### The window -/

/-- `AdmissionFunnel::Config`. -/
structure Config where
  windowInit : UInt32 := 2
  windowMin : UInt32 := 1
  windowMax : UInt32 := 32
  aiStep : UInt32 := 1
  mdPercent : UInt32 := 50
  risePercent : UInt32 := 150
  /-- Nanoseconds. -/
  baselineFloor : ℤ := 1000 * 1000

/-- The floor of the window. -/
def Config.lo (cfg : Config) : ℕ := max cfg.windowMin.toNat 1

/-- The ceiling of the window. -/
def Config.hi (cfg : Config) : ℕ := max cfg.windowMax.toNat cfg.lo

/-- The controller's state. -/
structure Aimd where
  window : ℕ
  /-- `baseline_ns_`. -/
  baseline : ℕ
  /-- `baseline_valid_`. -/
  valid : Bool

/-- The constructor. -/
def Aimd.start (cfg : Config) : Aimd := ⟨min (max cfg.windowInit.toNat cfg.lo) cfg.hi, 0, false⟩

/-- The sample as `apply_sample` takes it. -/
def clampSample (cfg : Config) (sample : ℤ) : ℕ := (max sample cfg.baselineFloor % 2 ^ 64).toNat

/-- The sample exceeds the baseline by more than the rise. -/
def Rises (cfg : Config) (a : Aimd) (sample : ℤ) : Prop :=
  a.baseline * cfg.risePercent.toNat % 2 ^ 64 / 100 < clampSample cfg sample

instance (cfg : Config) (a : Aimd) (sample : ℤ) : Decidable (Rises cfg a sample) := inferInstanceAs (Decidable (_ < _))

/-- `apply_sample`. -/
def applySample (cfg : Config) (a : Aimd) (sample : ℤ) : Aimd :=
  if a.valid = false then { a with baseline := clampSample cfg sample, valid := true }
  else
    { window :=
        if Rises cfg a sample then max cfg.lo (a.window * cfg.mdPercent.toNat % 2 ^ 32 / 100)
        else min cfg.hi ((a.window + cfg.aiStep.toNat) % 2 ^ 32)
      baseline := (7 * a.baseline + clampSample cfg sample) % 2 ^ 64 / 8
      valid := true }

/-! ### Requests -/

/-- Where a request stands. -/
inductive Pc where
  | idle
  /-- The fast path found the gate closed; the waiter is made and queued next. -/
  | slow (cls : ReadClass) (bounded : Bool)
  /-- A bounded acquire behind its `admit_locked`; the lock-free look at `reserved` comes next. -/
  | pushed (cls : ReadClass) (w : ℕ)
  /-- Waiting for the event of `w`. -/
  | parked (cls : ReadClass) (bounded : Bool) (w : ℕ)
  /-- The bounded wait ended without the event. -/
  | expired (cls : ReadClass) (w : ℕ)
  /-- The bounded wait threw. -/
  | failed (cls : ReadClass) (w : ℕ)
  /-- The handler found a slot reserved and gives it back next. -/
  | unwinding (cls : ReadClass) (w : ℕ)
  /-- A `Permit` is alive. -/
  | holding (cls : ReadClass)
  /-- A bounded acquire returned without a permit; `w` was its waiter. -/
  | gone (w : Option ℕ)
deriving DecidableEq, Repr

namespace Pc

/-- The waiter of an acquire that is still to be decided, and its class. -/
def waits : Pc → Option (ReadClass × ℕ)
  | pushed c w => some (c, w)
  | parked c _ w => some (c, w)
  | expired c w => some (c, w)
  | failed c w => some (c, w)
  | _ => none

/-- The waiter a request still knows about. -/
def token : Pc → Option ℕ
  | pushed _ w => some w
  | parked _ _ w => some w
  | expired _ w => some w
  | failed _ w => some w
  | unwinding _ w => some w
  | gone w => w
  | _ => none

/-- The class of a request under way. -/
def cls : Pc → Option ReadClass
  | slow c _ => some c
  | pushed c _ => some c
  | parked c _ _ => some c
  | expired c _ => some c
  | failed c _ => some c
  | unwinding c _ => some c
  | holding c => some c
  | _ => none

/-- A new request may begin. -/
def free : Pc → Bool
  | idle => true
  | gone _ => true
  | _ => false

/-- The request holds a permit. -/
def holds : Pc → Bool
  | holding _ => true
  | _ => false

/-- The request holds an OnDemand permit. -/
def holdsOnDemand : Pc → Bool
  | holding .onDemand => true
  | _ => false

/-- A slot is reserved for the request, which has not adopted it. -/
def reservation (reserved : ℕ → Bool) : Pc → Bool
  | pushed _ w => reserved w
  | parked _ _ w => reserved w
  | expired _ w => reserved w
  | failed _ w => reserved w
  | unwinding _ _ => true
  | _ => false

/-- The request has a slot. -/
def slot (reserved : ℕ → Bool) (p : Pc) : Bool := p.holds || p.reservation reserved

end Pc

/-! ### The funnel -/

/-- The funnel and its requests. -/
structure State (ι : Type) where
  aimd : Aimd
  /-- `inflight_on_demand_`. -/
  onDemand : ℕ
  /-- `inflight_total_`. -/
  total : ℕ
  queue : Queue → List ℕ
  reserved : ℕ → Bool
  /-- The event of a waiter is set. -/
  admitted : ℕ → Bool
  /-- The next waiter `make_shared` gives. -/
  next : ℕ
  /-- Who holds `mu_` across `admit_locked`. -/
  lock : Option ι
  pc : ι → Pc
  /-- The local vector of waiters to wake. -/
  wake : ι → List ℕ

variable {ι : Type} [DecidableEq ι]

namespace State

/-- A new funnel. -/
def start (cfg : Config) : State ι where
  aimd := .start cfg
  onDemand := 0
  total := 0
  queue := fun _ => []
  reserved := fun _ => false
  admitted := fun _ => false
  next := 0
  lock := none
  pc := fun _ => .idle
  wake := fun _ => []

/-- The gate for scavengers. -/
def Open (s : State ι) : Prop := s.onDemand = 0 ∧ s.total < s.aimd.window

instance (s : State ι) : Decidable s.Open := inferInstanceAs (Decidable (_ ∧ _))

/-- The request may act outside the mutex: its section is over and its wakeups are delivered. -/
def Runs (s : State ι) (i : ι) : Prop := s.lock ≠ some i ∧ s.wake i = []

/-- The request may enter the mutex. -/
def Enters (s : State ι) (i : ι) : Prop := s.lock = none ∧ s.wake i = []

/-- Move a request. -/
def go (s : State ι) (i : ι) (p : Pc) : State ι := { s with pc := Function.update s.pc i p }

/-- `q.erase(find(w))`. -/
def dequeue (s : State ι) (q : Queue) (w : ℕ) : State ι :=
  { s with queue := Function.update s.queue q ((s.queue q).erase w) }

end State

/-- The actions. -/
inductive Act (ι : Type) where
  /-- `acquire(OnDemand)`. -/
  | acquireOnDemand (i : ι)
  /-- `acquire_scavenger_bounded(OnDemand)`. -/
  | refuseOnDemand (i : ι)
  /-- The fast path of a scavenger. -/
  | tryAcquire (i : ι) (cls : ReadClass) (bounded : Bool)
  /-- The push of the slow path. -/
  | push (i : ι)
  /-- One turn of `admit_locked`. -/
  | admitLocked (i : ι)
  /-- The end of `admit_locked`. -/
  | unlock (i : ι)
  /-- `admitted.set()` on the next waiter of the vector. -/
  | signal (i : ι)
  /-- `if (w->reserved)` without the mutex. -/
  | look (i : ι)
  /-- The event was set. -/
  | resume (i : ι)
  /-- `with_timeout` returns without the event. -/
  | expire (i : ι)
  /-- `with_timeout` throws. -/
  | throws (i : ι)
  /-- The section behind a timeout. -/
  | reconcile (i : ι)
  /-- The section of the handler. -/
  | handle (i : ι)
  /-- `release` of a slot that was reserved for a failed acquire. -/
  | giveBack (i : ι)
  /-- `release` of a permit. -/
  | release (i : ι) (latency : ℤ)
  /-- `note_on_demand_latency`. -/
  | note (i : ι) (sample : ℤ)

open State in
/-- The funnel under every interleaving. -/
inductive Step (cfg : Config) : State ι → Act ι → State ι → Prop
  | acquireOnDemand {s : State ι} {i : ι} (hm : s.Enters i) (hp : (s.pc i).free = true) :
      Step cfg s (.acquireOnDemand i)
        { s.go i (.holding .onDemand) with onDemand := s.onDemand + 1, total := s.total + 1 }
  | refuseOnDemand {s : State ι} {i : ι} (hm : s.Runs i) (hp : (s.pc i).free = true) :
      Step cfg s (.refuseOnDemand i) (s.go i (.gone none))
  | fast {s : State ι} {i : ι} {c : ReadClass} {b : Bool} (hm : s.Enters i) (hp : (s.pc i).free = true)
      (hc : c ≠ .onDemand) (ho : s.Open) :
      Step cfg s (.tryAcquire i c b) { s.go i (.holding c) with total := s.total + 1 }
  | closed {s : State ι} {i : ι} {c : ReadClass} {b : Bool} (hm : s.Enters i) (hp : (s.pc i).free = true)
      (hc : c ≠ .onDemand) (ho : ¬ s.Open) : Step cfg s (.tryAcquire i c b) (s.go i (.slow c b))
  /-- Push and admit are one section: the mutex stays taken. -/
  | push {s : State ι} {i : ι} {c : ReadClass} {b : Bool} (hm : s.Enters i) (hp : s.pc i = .slow c b) :
      Step cfg s (.push i)
        { s.go i (if b then .pushed c s.next else .parked c false s.next) with
          queue := Function.update s.queue c.queue (s.queue c.queue ++ [s.next])
          next := s.next + 1
          lock := some i }
  | admitLocked {s : State ι} {i : ι} {q : Queue} {w : ℕ} {rest : List ℕ} (hl : s.lock = some i) (ho : s.Open)
      (hq : s.queue q = w :: rest) (hrank : q = .fill → s.queue .prefetch = []) :
      Step cfg s (.admitLocked i)
        { s with
          queue := Function.update s.queue q rest
          reserved := Function.update s.reserved w true
          total := s.total + 1
          wake := Function.update s.wake i (s.wake i ++ [w]) }
  | unlock {s : State ι} {i : ι} (hl : s.lock = some i) (hd : ¬ s.Open ∨ ∀ q, s.queue q = []) :
      Step cfg s (.unlock i) { s with lock := none }
  | signal {s : State ι} {i : ι} {w : ℕ} {rest : List ℕ} (hl : s.lock ≠ some i) (hw : s.wake i = w :: rest) :
      Step cfg s (.signal i)
        { s with admitted := Function.update s.admitted w true, wake := Function.update s.wake i rest }
  | look {s : State ι} {i : ι} {c : ReadClass} {w : ℕ} (hm : s.Runs i) (hp : s.pc i = .pushed c w) :
      Step cfg s (.look i) (s.go i (if s.reserved w then .holding c else .parked c true w))
  | resume {s : State ι} {i : ι} {c : ReadClass} {b : Bool} {w : ℕ} (hm : s.Runs i) (hp : s.pc i = .parked c b w)
      (ha : s.admitted w = true) : Step cfg s (.resume i) (s.go i (.holding c))
  | expire {s : State ι} {i : ι} {c : ReadClass} {w : ℕ} (hm : s.Runs i) (hp : s.pc i = .parked c true w) :
      Step cfg s (.expire i) (s.go i (.expired c w))
  | throws {s : State ι} {i : ι} {c : ReadClass} {w : ℕ} (hm : s.Runs i) (hp : s.pc i = .parked c true w) :
      Step cfg s (.throws i) (s.go i (.failed c w))
  | adopt {s : State ι} {i : ι} {c : ReadClass} {w : ℕ} (hm : s.Enters i) (hp : s.pc i = .expired c w)
      (hr : s.reserved w = true) : Step cfg s (.reconcile i) (s.go i (.holding c))
  | giveUp {s : State ι} {i : ι} {c : ReadClass} {w : ℕ} (hm : s.Enters i) (hp : s.pc i = .expired c w)
      (hr : s.reserved w = false) : Step cfg s (.reconcile i) ((s.go i (.gone (some w))).dequeue c.queue w)
  | handleReserved {s : State ι} {i : ι} {c : ReadClass} {w : ℕ} (hm : s.Enters i) (hp : s.pc i = .failed c w)
      (hr : s.reserved w = true) : Step cfg s (.handle i) (s.go i (.unwinding c w))
  | handleQueued {s : State ι} {i : ι} {c : ReadClass} {w : ℕ} (hm : s.Enters i) (hp : s.pc i = .failed c w)
      (hr : s.reserved w = false) : Step cfg s (.handle i) ((s.go i (.gone (some w))).dequeue c.queue w)
  | giveBack {s : State ι} {i : ι} {c : ReadClass} {w : ℕ} (hm : s.Enters i) (hp : s.pc i = .unwinding c w) :
      Step cfg s (.giveBack i) { s.go i (.gone (some w)) with total := s.total - 1, lock := some i }
  | releaseOnDemand {s : State ι} {i : ι} {latency : ℤ} (hm : s.Enters i) (hp : s.pc i = .holding .onDemand) :
      Step cfg s (.release i latency)
        { s.go i .idle with
          aimd := applySample cfg s.aimd latency
          onDemand := s.onDemand - 1
          total := s.total - 1
          lock := some i }
  | releaseScavenger {s : State ι} {i : ι} {c : ReadClass} {latency : ℤ} (hm : s.Enters i) (hp : s.pc i = .holding c)
      (hc : c ≠ .onDemand) :
      Step cfg s (.release i latency) { s.go i .idle with total := s.total - 1, lock := some i }
  | note {s : State ι} {i : ι} {sample : ℤ} (hm : s.Enters i) (hp : (s.pc i).free = true) :
      Step cfg s (.note i sample) { s with aimd := applySample cfg s.aimd sample, lock := some i }

end OverlayBD.Admission
