import OverlayBD.Ublk.OwnerPump

/-!
# The ledger of a ublk queue's raw commands (`ublk/queue.cpp`)

A queue lends its buffers to the kernel by commands: one per tag, `FETCH` at first and `COMMIT_AND_FETCH` from then on, and in
the threaded queue a poll of its completion eventfd.  What came back and what did not is kept in one slot per tag and in three
counters.  `kernel_retired` reads them, and upon its answer the buffers are freed.

## The model

* `Queue` — the slots, the counters and the flags other threads set.  `inFlight`, `pollInFlight` and `log` are the commands the
  kernel has, and what happened to each tag; only the specification reads them.
* `prepIoCmd`, `armDonePoll`, `drainDone`, `dispatchCqe`, `prepareReplies`, `rejectPending`, `recoverLostReplies`,
  `completeOnOwner`, `maintainOwner`, `kernelRetired` — the functions of the source.  Whether the ring has a free entry is an
  outcome (`Sqe`).
* `Act`, `step` — calls in any order with any arguments: completions with any cookie, result and flags, replies for any tag,
  and release, stop and failure at any time.  The initial `FETCH` of a tag is sent once; the loop that sends them is taken tag
  by tag, because it reads flags that others set.

## What is proved

* `Inv.step` — every call keeps the books.
* `books_balance` — the counters agree with the slots and the slots with the commands in flight; as long as the debt is known
  every delivered request is committed once before the next; a retired kernel has nothing left.
-/

namespace OverlayBD.RawLedger

open Errno Transition
open Ublk (RawSlot Cqe IoRequest)

variable {n : ℕ}

/-! ### The queue -/

/-- `UBLK_U_IO_FETCH_REQ` and `UBLK_U_IO_COMMIT_AND_FETCH_REQ`. -/
inductive CmdOp
  | fetch
  | commit
deriving DecidableEq

/-- What happens to a tag. -/
inductive Event
  /-- The kernel delivers a request. -/
  | deliver
  /-- A `COMMIT_AND_FETCH` with this result is published. -/
  | commit (result : ℤ)

/-- What `io_uring_get_sqe` finds. -/
structure Sqe where
  room : Bool
  /-- If there is no room: the error of `io_uring_submit`, 0 for none. -/
  submitError : ℤ
  /-- If there was no room: is there now? -/
  again : Bool

/-- `Queue`. -/
structure Queue (n : ℕ) where
  /-- `same_owner_pump_`. -/
  sameOwner : Bool
  raw : Fin n → RawSlot := fun _ => {}
  /-- `owner_pending_` or `pending_`. -/
  pending : List IoRequest := []
  /-- `done_`. -/
  done : List (ℕ × ℤ) := []
  nextCookie : ℕ := 1
  rawPublished : ℕ := 0
  rawRetired : ℕ := 0
  deliveredCount : ℕ := 0
  completionPending : Bool := false
  batchingClosed : Bool := false
  pollArmed : Bool := false
  pollCookie : ℕ := 0
  debtKnown : Bool := true
  releasing : Bool := false
  kernelStopped : Bool := false
  sourcesDrained : Bool := false
  failed : Bool := false
  failure : ℤ := 0
  /-- The tag whose initial `FETCH` is sent next. -/
  fetchNext : ℕ := 0
  inFlight : Fin n → List ℕ := fun _ => []
  pollInFlight : List ℕ := []
  log : Fin n → List Event := fun _ => []

namespace Queue

variable (q : Queue n)

/-- `fail`. -/
def fail (error : ℤ) : Queue n := { q with failed := true, failure := error }

/-- `debt_known_ = false; fail(EPROTO)`. -/
def disown : Queue n := { q with debtKnown := false }.fail eproto

/-- `prep_io_cmd` up to the entry it fills, and whether there is one. -/
def getSqe (io : Sqe) : Queue n × Bool :=
  if io.room then (q, true)
  else
    let q := if io.submitError = 0 then q else q.fail io.submitError
    if io.again then (q, true) else (q.fail eagain, false)

/-- `prep_io_cmd` from the entry on. -/
def publish (op : CmdOp) (t : Fin n) (result : ℤ) : Queue n :=
  let x := q.raw t
  let cookie := q.nextCookie * 2 ^ 16 + t.val
  { q with
    raw := Function.update q.raw t { x with
      cookie := cookie
      pending := true
      completing := decide (op = .commit)
      delivered := false
      replyReady := false }
    nextCookie := q.nextCookie + 1
    rawPublished := q.rawPublished + 1
    deliveredCount := if x.delivered then q.deliveredCount - 1 else q.deliveredCount
    inFlight := Function.update q.inFlight t (q.inFlight t ++ [cookie])
    log := if op = .commit then Function.update q.log t (q.log t ++ [.commit result]) else q.log }

/-- `prep_io_cmd`, for a tag below the depth. -/
def prepIoCmd (op : CmdOp) (t : Fin n) (result : ℤ) (io : Sqe) : Queue n :=
  if (q.raw t).pending ∨ 2 ^ 47 ≤ q.nextCookie then q.disown
  else if q.kernelStopped ∧ op = .fetch then q
  else if (q.getSqe io).2 then (q.getSqe io).1.publish op t result
  else (q.getSqe io).1

/-- `arm_done_poll`. -/
def armDonePoll (room : Bool) : Queue n :=
  if q.pollArmed ∨ q.releasing ∨ q.failed ∨ room = false then q
  else
    let cookie := Ublk.Queue.kPollMarker + q.nextCookie
    { q with
      pollCookie := cookie
      nextCookie := q.nextCookie + 1
      pollArmed := true
      rawPublished := q.rawPublished + 1
      pollInFlight := q.pollInFlight ++ [cookie] }

/-- Store a reply in a slot. -/
def setReply (t : Fin n) (result : ℤ) : Queue n :=
  { q with raw := Function.update q.raw t { q.raw t with reply := result, replyReady := true } }

/-- The body of the loop of `drain_done`. -/
def drainOne (tag : ℕ) (result : ℤ) (io : Sqe) : Queue n :=
  if h : tag < n then
    let t : Fin n := ⟨tag, h⟩
    if (q.raw t).delivered = false ∨ (q.raw t).replyReady ∨ (q.raw t).pending then q.disown
    else (q.setReply t result).prepIoCmd .commit t result io
  else q.disown

/-- The loop of `drain_done`. -/
def drainBatch (q : Queue n) : List (ℕ × ℤ) → (ℕ → Sqe) → Queue n
  | [], _ => q
  | (tag, result) :: batch, ios => (q.drainOne tag result (ios 0)).drainBatch batch fun k => ios (k + 1)

/-- `drain_done`; `readError` is the error of the eventfd's read, 0 for none. -/
def drainDone (readError : ℤ) (ios : ℕ → Sqe) : Queue n :=
  let q := if readError = 0 then q else q.fail readError
  { q with done := [] }.drainBatch q.done ios

/-- `dispatch_cqe` of a completion that is the slot's own.  The list of requests may have no room: the exception ends in
`fail(EIO)`. -/
def dispatchOwn (t : Fin n) (c : Cqe) (room : Bool) : Queue n :=
  let x := { q.raw t with pending := false, completing := false }
  let q := { q with rawRetired := q.rawRetired + 1, inFlight := Function.update q.inFlight t ((q.inFlight t).erase c.userData) }
  if c.res < 0 then
    let q' := if (q.raw t).completing ∧ c.res ≠ -enodev then
        { q with
          raw := Function.update q.raw t { x with delivered := true }
          deliveredCount := q.deliveredCount + 1
          debtKnown := false }
      else { q with raw := Function.update q.raw t x }
    if c.res ≠ -enodev ∧ c.res ≠ -eintr ∧ c.res ≠ -ecanceled then q'.fail (-c.res) else q'
  else
    let q' := { q with
      raw := Function.update q.raw t { x with delivered := true }
      deliveredCount := q.deliveredCount + 1
      log := Function.update q.log t (q.log t ++ [Event.deliver]) }
    if q.releasing ∨ q.failed then q'.setReply t (-ecanceled)
    else if room = false ∨ (q.sameOwner ∧ q.pending.length = n) then (q'.setReply t (-enomem)).fail eio
    else { q' with pending := q.pending ++ [{ c.request with tag := t.val }] }

/-- `dispatch_cqe`. -/
def dispatchCqe (c : Cqe) (room : Bool) : Queue n :=
  if h : c.userData % 2 ^ 16 < n then
    let t : Fin n := ⟨c.userData % 2 ^ 16, h⟩
    if (q.raw t).pending = false ∨ (q.raw t).cookie ≠ c.userData ∨ c.more then q.disown else q.dispatchOwn t c room
  else q.disown

/-- One completion: the body of the drain loop of `drive_owner_cq` and of `run`. -/
def onCqe (c : Cqe) (room : Bool) (readError : ℤ) (ios : ℕ → Sqe) : Queue n :=
  if Ublk.Queue.kPollMarker ≤ c.userData then
    if q.sameOwner then q.disown
    else if q.pollArmed = false ∨ c.userData ≠ q.pollCookie ∨ c.more then q.disown
    else
      let q := { q with
        pollArmed := false
        rawRetired := q.rawRetired + 1
        pollInFlight := q.pollInFlight.erase c.userData }
      let q := if c.res < 0 then q.fail (-c.res) else q
      q.drainDone readError ios
  else q.dispatchCqe c room

/-- The body of the loop of `prepare_replies`. -/
def prepareReply (ios : Fin n → Sqe) (t : Fin n) : Queue n :=
  if (q.raw t).replyReady ∧ (q.raw t).pending = false then q.prepIoCmd .commit t (q.raw t).reply (ios t) else q

/-- `prepare_replies`. -/
def prepareReplies (ios : Fin n → Sqe) : Queue n := (List.finRange n).foldl (fun q t => q.prepareReply ios t) q

/-- The body of the loop of `reject_pending`. -/
def rejectOne (request : IoRequest) : Queue n :=
  if h : request.tag < n then
    if (q.raw ⟨request.tag, h⟩).delivered = false then q.disown else q.setReply ⟨request.tag, h⟩ (-ecanceled)
  else q.disown

/-- `reject_pending`. -/
def rejectPending : Queue n := q.pending.foldl rejectOne { q with pending := [] }

/-- `recover_lost_replies`. -/
def recoverLostReplies : Queue n :=
  if q.sourcesDrained then
    { q with
      raw := fun t =>
        if (q.raw t).delivered ∧ (q.raw t).pending = false ∧ (q.raw t).replyReady = false then
          { q.raw t with reply := -eio, replyReady := true }
        else q.raw t }
  else q

/-- `submit_owner`; `error` is that of the submission, 0 for none. -/
def submitOwner (error : ℤ) : Queue n := if error = 0 then q else q.fail error

/-- `complete_on_owner`. -/
def completeOnOwner (tag : ℕ) (result : ℤ) (io : Sqe) (error : ℤ) : Queue n :=
  if h : tag < n then
    let t : Fin n := ⟨tag, h⟩
    if (q.raw t).delivered = false ∨ (q.raw t).pending ∨ (q.raw t).replyReady then q.disown
    else
      let q := (q.setReply t result).prepIoCmd .commit t result io
      if q.deliveredCount = 0 ∨ q.batchingClosed ∨ q.failed then { q with completionPending := false }.submitOwner error
      else { q with completionPending := true }
  else q.disown

/-- `flush_owner_completions`. -/
def flushOwnerCompletions (error : ℤ) : Queue n :=
  if q.completionPending then { q with completionPending := false }.submitOwner error else q

/-- `maintain_owner`. -/
def maintainOwner (ios : Fin n → Sqe) (error : ℤ) : Queue n :=
  (q.rejectPending.recoverLostReplies.prepareReplies ios).submitOwner error

/-- One turn of the loop of `prepare_owner_fetches`. -/
def prepareOwnerFetch (io : Sqe) : Queue n :=
  if h : q.fetchNext < n then
    let q' := q.prepIoCmd .fetch ⟨q.fetchNext, h⟩ 0 io
    { q' with fetchNext := if q'.failed then n else q.fetchNext + 1 }
  else q

/-- `try_pop_request`. -/
def tryPopRequest : Queue n := if q.releasing then q else { q with pending := q.pending.tail }

/-- `kernel_retired`. -/
def kernelRetired : Bool :=
  q.debtKnown && !q.pollArmed && decide (q.rawPublished = q.rawRetired) &&
    decide (∀ t, (q.raw t).pending = false ∧ (q.raw t).delivered = false ∧ (q.raw t).replyReady = false)

end Queue

/-- A call. -/
inductive Act (n : ℕ)
  | prepareOwnerFetch (io : Sqe)
  | cqe (c : Cqe) (room : Bool) (readError : ℤ) (ios : ℕ → Sqe)
  | completeOnOwner (tag : ℕ) (result : ℤ) (io : Sqe) (error : ℤ)
  | flushOwnerCompletions (error : ℤ)
  | closeOwnerCompletionBatching (error : ℤ)
  | pushCompletion (tag : ℕ) (result : ℤ)
  | drainDone (readError : ℤ) (ios : ℕ → Sqe)
  | armDonePoll (room : Bool)
  | tryPopRequest
  | rejectPending
  | recoverLostReplies
  | prepareReplies (ios : Fin n → Sqe)
  | maintainOwner (ios : Fin n → Sqe) (error : ℤ)
  | requestRelease
  | kernelStopped
  | sourcesDrained
  | fail (error : ℤ)

/-- One call. -/
def step (q : Queue n) : Act n → Queue n
  | .prepareOwnerFetch io => q.prepareOwnerFetch io
  | .cqe c room readError ios => q.onCqe c room readError ios
  | .completeOnOwner tag result io error => q.completeOnOwner tag result io error
  | .flushOwnerCompletions error => q.flushOwnerCompletions error
  | .closeOwnerCompletionBatching error => { q with batchingClosed := true }.flushOwnerCompletions error
  | .pushCompletion tag result => { q with done := q.done ++ [(tag, result)] }
  | .drainDone readError ios => q.drainDone readError ios
  | .armDonePoll room => q.armDonePoll room
  | .tryPopRequest => q.tryPopRequest
  | .rejectPending => q.rejectPending
  | .recoverLostReplies => q.recoverLostReplies
  | .prepareReplies ios => q.prepareReplies ios
  | .maintainOwner ios error => q.maintainOwner ios error
  | .requestRelease => { q with releasing := true }
  | .kernelStopped => { q with kernelStopped := true }
  | .sourcesDrained => { q with sourcesDrained := true }
  | .fail error => q.fail error

/-! ### The books -/

/-- Is a request open after one more event?  `none` where a request is delivered over an open one, or a commit answers none. -/
def turn : Option Bool → Event → Option Bool
  | some false, .deliver => some true
  | some true, .commit _ => some false
  | _, _ => none

/-- Is a request open after these events? -/
def openAfter (log : List Event) : Option Bool := log.foldl turn (some false)

/-- **The books.** -/
structure Inv (q : Queue n) : Prop where
  published : q.rawPublished = q.rawRetired + tally RawSlot.pending q.raw + q.pollArmed.toNat
  delivered : q.deliveredCount = tally RawSlot.delivered q.raw
  /-- A pending command covers the request. -/
  covered : ∀ t, (q.raw t).pending = true → (q.raw t).delivered = false
  /-- A reply is for a delivered request. -/
  replies : ∀ t, (q.raw t).replyReady = true → (q.raw t).delivered = true
  inFlight : ∀ t, q.inFlight t = if (q.raw t).pending then [(q.raw t).cookie] else []
  poll : q.pollInFlight = if q.pollArmed then [q.pollCookie] else []
  answered : q.debtKnown = true → ∀ t, openAfter (q.log t) = some (q.raw t).delivered
  /-- Tags without a `FETCH` yet. -/
  unused : ∀ t : Fin n, q.fetchNext ≤ t.val → (q.raw t).pending = false ∧ (q.raw t).delivered = false

theorem inv_init (sameOwner : Bool) : Inv ({ sameOwner := sameOwner } : Queue n) := by
  constructor <;> simp [tally, openAfter]

variable {q q' : Queue n} {t : Fin n}

/-- What the books are about is the same, the debt apart: it may have become unknown. -/
structure Same (q q' : Queue n) : Prop where
  raw : q'.raw = q.raw
  rawPublished : q'.rawPublished = q.rawPublished
  rawRetired : q'.rawRetired = q.rawRetired
  deliveredCount : q'.deliveredCount = q.deliveredCount
  pollArmed : q'.pollArmed = q.pollArmed
  pollCookie : q'.pollCookie = q.pollCookie
  inFlight : q'.inFlight = q.inFlight
  pollInFlight : q'.pollInFlight = q.pollInFlight
  log : q'.log = q.log
  debtKnown : q'.debtKnown = true → q.debtKnown = true
  fetchNext : q'.fetchNext = q.fetchNext

theorem Inv.same (h : Inv q) (hs : Same q q') : Inv q' := by
  refine ⟨?_, ?_, ?_, ?_, ?_, ?_, fun hd => ?_, ?_⟩
  · rw [hs.rawPublished, hs.rawRetired, hs.raw, hs.pollArmed]
    exact h.published
  · rw [hs.deliveredCount, hs.raw]
    exact h.delivered
  · rw [hs.raw]
    exact h.covered
  · rw [hs.raw]
    exact h.replies
  · rw [hs.inFlight, hs.raw]
    exact h.inFlight
  · rw [hs.pollInFlight, hs.pollArmed, hs.pollCookie]
    exact h.poll
  · rw [hs.log, hs.raw]
    exact h.answered (hs.debtKnown hd)
  · rw [hs.fetchNext, hs.raw]
    exact h.unused

theorem Inv.fail (h : Inv q) (error : ℤ) : Inv (q.fail error) :=
  h.same ⟨rfl, rfl, rfl, rfl, rfl, rfl, rfl, rfl, rfl, id, rfl⟩

theorem Inv.disown (h : Inv q) : Inv q.disown :=
  h.same ⟨rfl, rfl, rfl, rfl, rfl, rfl, rfl, rfl, rfl, nofun, rfl⟩

theorem same_getSqe (q : Queue n) (io : Sqe) : Same q (q.getSqe io).1 := by
  unfold Queue.getSqe
  split_ifs <;> exact ⟨rfl, rfl, rfl, rfl, rfl, rfl, rfl, rfl, rfl, id, rfl⟩

/-! ### Slots -/

theorem openAfter_append (l : List Event) (e : Event) : openAfter (l ++ [e]) = turn (openAfter l) e := by
  simp [openAfter, List.foldl_append]

theorem foldl_turn_none (l : List Event) : l.foldl turn none = none := by
  induction l with
  | nil => rfl
  | cons e l ih => simpa [turn] using ih

/-- Between two deliveries there is one commit. -/
theorem commit_between {l₁ l₂ l₃ : List Event} {b : Bool}
    (h : openAfter (l₁ ++ Event.deliver :: (l₂ ++ Event.deliver :: l₃)) = some b) (hno : Event.deliver ∉ l₂) :
    ∃ result, l₂ = [.commit result] := by
  simp only [openAfter, List.foldl_append, List.foldl_cons] at h
  generalize l₁.foldl turn (some false) = o at h
  -- the first delivery finds no open request
  have ho : turn o .deliver = some true := by
    match o with
    | some false => rfl
    | some true => simp [turn, foldl_turn_none] at h
    | none => simp [turn, foldl_turn_none] at h
  rw [ho] at h
  match l₂ with
  | [] => simp [turn, foldl_turn_none] at h
  | [.commit result] => exact ⟨result, rfl⟩
  | .deliver :: _ => simp at hno
  | .commit _ :: .deliver :: _ => simp at hno
  | .commit _ :: .commit _ :: _ => simp [turn, foldl_turn_none] at h

/-- One slot changes between pending and not, delivered and not. -/
theorem Inv.setRaw (h : Inv q) {x : RawSlot} (hraw : q'.raw = Function.update q.raw t x)
    (hcover : x.pending = true → x.delivered = false) (hreply : x.replyReady = true → x.delivered = true)
    (hpub : q'.rawPublished + (q.raw t).pending.toNat + q.rawRetired = q'.rawRetired + x.pending.toNat + q.rawPublished)
    (hdel : q'.deliveredCount + (q.raw t).delivered.toNat = q.deliveredCount + x.delivered.toNat)
    (hflight : ∀ u, q'.inFlight u = if u = t then (if x.pending then [x.cookie] else []) else q.inFlight u)
    (harmed : q'.pollArmed = q.pollArmed) (hcookie : q'.pollCookie = q.pollCookie) (hpoll : q'.pollInFlight = q.pollInFlight)
    (hdebt : q'.debtKnown = true → q.debtKnown = true)
    (hlog : q'.debtKnown = true → openAfter (q'.log t) = some x.delivered) (hlogs : ∀ u, u ≠ t → q'.log u = q.log u)
    (hnext : q.fetchNext ≤ q'.fetchNext)
    (hunused : q'.fetchNext ≤ t.val → x.pending = false ∧ x.delivered = false) : Inv q' := by
  have hslot : ∀ u, q'.raw u = if u = t then x else q.raw u := fun u => by rw [hraw, Function.update_apply]
  have hpending := tally_update RawSlot.pending q.raw t x
  have hdelivered := tally_update RawSlot.delivered q.raw t x
  refine ⟨?_, ?_, fun u => ?_, fun u => ?_, fun u => ?_, ?_, fun hd u => ?_, fun u hu => ?_⟩
  · have := h.published
    rw [hraw, harmed]
    omega
  · have := h.delivered
    rw [hraw]
    omega
  · rw [hslot]
    split_ifs
    · exact hcover
    · exact h.covered u
  · rw [hslot]
    split_ifs
    · exact hreply
    · exact h.replies u
  · rw [hflight, hslot]
    split_ifs with hu
    · rfl
    · rfl
    · exact h.inFlight u ▸ if_pos ‹_›
    · exact h.inFlight u ▸ if_neg ‹_›
  · rw [hpoll, harmed, hcookie]
    exact h.poll
  · rw [hslot]
    by_cases hut : u = t
    · rw [if_pos hut, hut]
      exact hlog hd
    · rw [if_neg hut, hlogs u hut]
      exact h.answered (hdebt hd) u
  · rw [hslot]
    by_cases hut : u = t
    · rw [if_pos hut]
      exact hunused (hut ▸ hu)
    · rw [if_neg hut]
      exact h.unused u (hnext.trans hu)

/-- Replies are stored for delivered requests. -/
theorem Inv.setReplies (h : Inv q) (hpub : q'.rawPublished = q.rawPublished) (hret : q'.rawRetired = q.rawRetired)
    (hcount : q'.deliveredCount = q.deliveredCount) (harmed : q'.pollArmed = q.pollArmed) (hcookie : q'.pollCookie = q.pollCookie)
    (hflight : q'.inFlight = q.inFlight) (hpoll : q'.pollInFlight = q.pollInFlight) (hlog : q'.log = q.log)
    (hdebt : q'.debtKnown = q.debtKnown) (hnext : q'.fetchNext = q.fetchNext)
    (hraw : ∀ t, (q'.raw t).cookie = (q.raw t).cookie ∧ (q'.raw t).pending = (q.raw t).pending ∧
      (q'.raw t).delivered = (q.raw t).delivered ∧ ((q'.raw t).replyReady = true → (q.raw t).delivered = true)) : Inv q' := by
  have hpending : tally RawSlot.pending q'.raw = tally RawSlot.pending q.raw := by simp [tally, fun t => (hraw t).2.1]
  have hdelivered : tally RawSlot.delivered q'.raw = tally RawSlot.delivered q.raw := by simp [tally, fun t => (hraw t).2.2.1]
  refine ⟨?_, ?_, fun t => ?_, fun t => ?_, fun t => ?_, ?_, fun hd t => ?_, fun t => ?_⟩
  · rw [hpub, hret, harmed, hpending]
    exact h.published
  · rw [hcount, hdelivered]
    exact h.delivered
  · rw [(hraw t).2.1, (hraw t).2.2.1]
    exact h.covered t
  · rw [(hraw t).2.2.1]
    exact (hraw t).2.2.2
  · rw [hflight, (hraw t).2.1, (hraw t).1]
    exact h.inFlight t
  · rw [hpoll, harmed, hcookie]
    exact h.poll
  · rw [hlog, (hraw t).2.2.1]
    exact h.answered (hdebt ▸ hd) t
  · rw [hnext, (hraw t).2.1, (hraw t).2.2.1]
    exact h.unused t

/-- A reply is stored for a delivered request. -/
theorem Inv.setReply (h : Inv q) (hd : (q.raw t).delivered = true) (result : ℤ) : Inv (q.setReply t result) := by
  refine h.setReplies rfl rfl rfl rfl rfl rfl rfl rfl rfl rfl fun u => ?_
  simp only [Queue.setReply, Function.update_apply]
  split_ifs with hu
  · rw [hu]
    exact ⟨rfl, rfl, rfl, fun _ => hd⟩
  · exact ⟨rfl, rfl, rfl, h.replies u⟩

theorem Inv.one_le_deliveredCount (h : Inv q) (hd : (q.raw t).delivered = true) : 1 ≤ q.deliveredCount := by
  rw [h.delivered, Nat.one_le_iff_ne_zero]
  intro hz
  simp [(tally_eq_zero_iff _ _).mp hz t] at hd

/-- A commit of a delivered request is published. -/
theorem Inv.publish_commit (h : Inv q) (hp : (q.raw t).pending = false) (hd : (q.raw t).delivered = true) (result : ℤ) :
    Inv (q.publish .commit t result) := by
  have hone := h.one_le_deliveredCount hd
  refine h.setRaw rfl (fun _ => rfl) nofun ?_ ?_ (fun u => ?_) rfl rfl rfl id (fun hk => ?_) (fun u hu => ?_) le_rfl fun hle => ?_
  · simp only [Queue.publish, hp, Bool.toNat_false, Bool.toNat_true]
    omega
  · simp only [Queue.publish, hd, if_true, Bool.toNat_false, Bool.toNat_true]
    omega
  · simp only [Queue.publish, Function.update_apply]
    split_ifs
    · rw [h.inFlight t, if_neg (by simp [hp]), List.nil_append]
    · rfl
  · simp only [Queue.publish, if_true, Function.update_self]
    rw [openAfter_append, h.answered hk t, hd]
    rfl
  · simp only [Queue.publish, if_true]
    exact Function.update_of_ne hu ..
  · have := (h.unused t hle).2
    simp [hd] at this

/-- The initial fetch of a tag is published. -/
theorem Inv.publish_fetch (h : Inv q) {k : ℕ} (ht : q.fetchNext = t.val) (hk : t.val < k) :
    Inv { q.publish .fetch t 0 with fetchNext := k } := by
  obtain ⟨hp, hd⟩ := h.unused t ht.le
  refine h.setRaw rfl (fun _ => rfl) nofun ?_ ?_ (fun u => ?_) rfl rfl rfl id (fun hx => ?_) (fun u hu => ?_) (by simp only; omega)
    fun hle => absurd hle (Nat.not_le.mpr hk)
  · simp only [Queue.publish, hp, Bool.toNat_false, Bool.toNat_true]
    omega
  · simp [Queue.publish, hd]
  · simp only [Queue.publish, Function.update_apply]
    split_ifs
    · rw [h.inFlight t, if_neg (by simp [hp]), List.nil_append]
    · rfl
  · simp only [Queue.publish, reduceCtorEq, if_false]
    rw [h.answered hx t, hd]
  · simp [Queue.publish]

theorem Inv.advance (h : Inv q) {k : ℕ} (hk : q.fetchNext ≤ k) : Inv { q with fetchNext := k } :=
  ⟨h.published, h.delivered, h.covered, h.replies, h.inFlight, h.poll, h.answered, fun t ht => h.unused t (hk.trans ht)⟩

/-- A command for a delivered request. -/
theorem Inv.prepCommit (h : Inv q) (hd : (q.raw t).delivered = true) (result : ℤ) (io : Sqe) :
    Inv (q.prepIoCmd .commit t result io) := by
  have hsame := same_getSqe q io
  unfold Queue.prepIoCmd
  split_ifs with hbad hstop hroom
  · exact h.disown
  · exact absurd hstop.2 nofun
  · refine (h.same hsame).publish_commit ?_ ?_ result
    · rw [hsame.raw]
      simpa using (not_or.mp hbad).1
    · rw [hsame.raw]
      exact hd
  · exact h.same hsame

/-- A reply for a delivered request is stored and committed. -/
theorem Inv.reply (h : Inv q) (hd : (q.raw t).delivered = true) (result : ℤ) (io : Sqe) :
    Inv ((q.setReply t result).prepIoCmd .commit t result io) :=
  (h.setReply hd result).prepCommit (by simpa [Queue.setReply] using hd) result io

/-- The slot's own command is retired; the request is delivered, or not. -/
theorem Inv.retireOwn (h : Inv q) {c : Cqe} (hp : (q.raw t).pending = true) (hc : (q.raw t).cookie = c.userData) {b : Bool}
    (hraw : q'.raw = Function.update q.raw t { q.raw t with pending := false, completing := false, delivered := b })
    (hret : q'.rawRetired = q.rawRetired + 1) (hpub : q'.rawPublished = q.rawPublished)
    (hcount : q'.deliveredCount = q.deliveredCount + b.toNat)
    (hflight : q'.inFlight = Function.update q.inFlight t ((q.inFlight t).erase c.userData))
    (harmed : q'.pollArmed = q.pollArmed) (hcookie : q'.pollCookie = q.pollCookie) (hpoll : q'.pollInFlight = q.pollInFlight)
    (hdebt : q'.debtKnown = true → q.debtKnown = true) (hlog : q'.debtKnown = true → openAfter (q'.log t) = some b)
    (hlogs : ∀ u, u ≠ t → q'.log u = q.log u) (hnext : q'.fetchNext = q.fetchNext) : Inv q' := by
  have hd := h.covered t hp
  have hr : (q.raw t).replyReady = false := by
    cases hx : (q.raw t).replyReady with
    | false => rfl
    | true => simp [h.replies t hx] at hd
  refine h.setRaw hraw nofun (fun hx => ?_) ?_ ?_ (fun u => ?_) harmed hcookie hpoll hdebt hlog hlogs hnext.ge fun hle => ?_
  · simp [hr] at hx
  · simp only [hp, Bool.toNat_false, Bool.toNat_true]
    omega
  · simp only [hd, Bool.toNat_false]
    omega
  · rw [hflight, Function.update_apply, h.inFlight t, if_pos hp, hc]
    simp
  · have := (h.unused t (hnext ▸ hle)).1
    simp [hp] at this

/-- A completion of the slot's own command. -/
theorem Inv.dispatchOwn (h : Inv q) {c : Cqe} (hp : (q.raw t).pending = true) (hc : (q.raw t).cookie = c.userData) (room : Bool) :
    Inv (q.dispatchOwn t c room) := by
  have hd := h.covered t hp
  simp only [Queue.dispatchOwn]
  split_ifs with hneg hother hlost hlost hrel hfull
  · refine Inv.fail ?_ _
    exact h.retireOwn hp hc (b := true) rfl rfl rfl rfl rfl rfl rfl rfl nofun nofun (fun _ _ => rfl) rfl
  · refine Inv.fail ?_ _
    refine h.retireOwn hp hc (b := false) ?_ rfl rfl rfl rfl rfl rfl rfl id (fun hk => ?_) (fun _ _ => rfl) rfl
    · rw [← hd]
    · rw [h.answered hk t, hd]
  · exact h.retireOwn hp hc (b := true) rfl rfl rfl rfl rfl rfl rfl rfl nofun nofun (fun _ _ => rfl) rfl
  · refine h.retireOwn hp hc (b := false) ?_ rfl rfl rfl rfl rfl rfl rfl id (fun hk => ?_) (fun _ _ => rfl) rfl
    · rw [← hd]
    · rw [h.answered hk t, hd]
  all_goals
    have hopen : q.debtKnown = true → openAfter (Function.update q.log t (q.log t ++ [Event.deliver]) t) = some true := fun hk => by
      rw [Function.update_self, openAfter_append, h.answered hk t, hd]
      rfl
    have hdel : ∀ p, Inv { q with
      rawRetired := q.rawRetired + 1
      inFlight := Function.update q.inFlight t ((q.inFlight t).erase c.userData)
      raw := Function.update q.raw t { q.raw t with pending := false, completing := false, delivered := true }
      deliveredCount := q.deliveredCount + 1
      log := Function.update q.log t (q.log t ++ [Event.deliver])
      pending := p } := fun _ =>
        h.retireOwn hp hc rfl rfl rfl rfl rfl rfl rfl rfl id hopen (fun u hu => Function.update_of_ne hu ..) rfl
  · exact (hdel q.pending).setReply (by simp) _
  · exact ((hdel q.pending).setReply (by simp) _).fail _
  · exact hdel _

theorem Inv.dispatchCqe (h : Inv q) (c : Cqe) (room : Bool) : Inv (q.dispatchCqe c room) := by
  simp only [Queue.dispatchCqe]
  split_ifs with ht hbad
  · exact h.disown
  · obtain ⟨hp, hc, -⟩ := not_or.mp hbad |>.imp_right not_or.mp
    exact h.dispatchOwn (by simpa using hp) (not_not.mp hc) room
  · exact h.disown

/-! ### Loops -/

theorem Inv.drainOne (h : Inv q) (tag : ℕ) (result : ℤ) (io : Sqe) : Inv (q.drainOne tag result io) := by
  simp only [Queue.drainOne]
  split_ifs with ht hbad
  · exact h.disown
  · exact h.reply (by simpa using (not_or.mp hbad).1) result io
  · exact h.disown

theorem Inv.drainBatch (h : Inv q) (batch : List (ℕ × ℤ)) (ios : ℕ → Sqe) : Inv (q.drainBatch batch ios) := by
  induction batch generalizing q ios with
  | nil => exact h
  | cons b batch ih => exact ih (h.drainOne b.1 b.2 (ios 0)) _

theorem Inv.drainDone (h : Inv q) (readError : ℤ) (ios : ℕ → Sqe) : Inv (q.drainDone readError ios) := by
  have hread : Inv (if readError = 0 then q else q.fail readError) := by
    split_ifs
    · exact h
    · exact h.fail _
  have hempty : Inv { (if readError = 0 then q else q.fail readError) with done := [] } :=
    hread.same ⟨rfl, rfl, rfl, rfl, rfl, rfl, rfl, rfl, rfl, id, rfl⟩
  exact hempty.drainBatch _ _

theorem Inv.prepareReply (h : Inv q) (ios : Fin n → Sqe) (t : Fin n) : Inv (q.prepareReply ios t) := by
  unfold Queue.prepareReply
  split_ifs with hready
  · exact h.prepCommit (h.replies t hready.1) _ _
  · exact h

theorem Inv.prepareReplies (h : Inv q) (ios : Fin n → Sqe) : Inv (q.prepareReplies ios) := by
  unfold Queue.prepareReplies
  generalize List.finRange n = tags
  induction tags generalizing q with
  | nil => exact h
  | cons t tags ih => exact ih (h.prepareReply ios t)

theorem Inv.rejectOne (h : Inv q) (request : IoRequest) : Inv (q.rejectOne request) := by
  unfold Queue.rejectOne
  split_ifs with ht hd
  · exact h.disown
  · exact h.setReply (by simpa using hd) _
  · exact h.disown

theorem Inv.rejectPending (h : Inv q) : Inv q.rejectPending := by
  have hempty : Inv { q with pending := [] } := h.same ⟨rfl, rfl, rfl, rfl, rfl, rfl, rfl, rfl, rfl, id, rfl⟩
  unfold Queue.rejectPending
  generalize ({ q with pending := [] } : Queue n) = q' at hempty
  induction q.pending generalizing q' with
  | nil => exact hempty
  | cons request rest ih => exact ih _ (hempty.rejectOne request)

theorem Inv.recoverLostReplies (h : Inv q) : Inv q.recoverLostReplies := by
  unfold Queue.recoverLostReplies
  split_ifs with hdr
  · -- only replies change, and only those of delivered requests
    refine h.setReplies rfl rfl rfl rfl rfl rfl rfl rfl rfl rfl fun t => ?_
    dsimp only
    split_ifs with hlost
    · exact ⟨rfl, rfl, rfl, fun _ => hlost.1⟩
    · exact ⟨rfl, rfl, rfl, h.replies t⟩
  · exact h

/-! ### The other calls -/

theorem Inv.submitOwner (h : Inv q) (error : ℤ) : Inv (q.submitOwner error) := by
  unfold Queue.submitOwner
  split_ifs
  · exact h
  · exact h.fail _

theorem Inv.completeOnOwner (h : Inv q) (tag : ℕ) (result : ℤ) (io : Sqe) (error : ℤ) :
    Inv (q.completeOnOwner tag result io error) := by
  simp only [Queue.completeOnOwner]
  split_ifs with ht hbad hsubmit
  · exact h.disown
  · have hr := h.reply (by simpa using (not_or.mp hbad).1) result io
    refine Inv.submitOwner ?_ error
    exact hr.same ⟨rfl, rfl, rfl, rfl, rfl, rfl, rfl, rfl, rfl, id, rfl⟩
  · have hr := h.reply (by simpa using (not_or.mp hbad).1) result io
    exact hr.same ⟨rfl, rfl, rfl, rfl, rfl, rfl, rfl, rfl, rfl, id, rfl⟩
  · exact h.disown

theorem Inv.flushOwnerCompletions (h : Inv q) (error : ℤ) : Inv (q.flushOwnerCompletions error) := by
  unfold Queue.flushOwnerCompletions
  split_ifs
  · refine Inv.submitOwner ?_ error
    exact h.same ⟨rfl, rfl, rfl, rfl, rfl, rfl, rfl, rfl, rfl, id, rfl⟩
  · exact h

theorem Inv.armDonePoll (h : Inv q) (room : Bool) : Inv (q.armDonePoll room) := by
  simp only [Queue.armDonePoll]
  split_ifs with hskip
  · exact h
  · have harmed : q.pollArmed = false := by simpa using (not_or.mp hskip).1
    refine ⟨?_, h.delivered, h.covered, h.replies, h.inFlight, ?_, h.answered, h.unused⟩
    · have := h.published
      simp only [harmed, Bool.toNat_false, Bool.toNat_true] at this ⊢
      omega
    · simp [h.poll, harmed]

/-- The poll is retired. -/
theorem Inv.retirePoll (h : Inv q) {userData : ℕ} (ha : q.pollArmed = true) (hc : userData = q.pollCookie) :
    Inv { q with pollArmed := false, rawRetired := q.rawRetired + 1, pollInFlight := q.pollInFlight.erase userData } := by
  refine ⟨?_, h.delivered, h.covered, h.replies, h.inFlight, ?_, h.answered, h.unused⟩
  · have := h.published
    simp only [ha, Bool.toNat_false, Bool.toNat_true] at this ⊢
    omega
  · simp [h.poll, ha, hc]

theorem Inv.onCqe (h : Inv q) (c : Cqe) (room : Bool) (readError : ℤ) (ios : ℕ → Sqe) : Inv (q.onCqe c room readError ios) := by
  simp only [Queue.onCqe]
  split_ifs with hpoll hown hbad hneg
  · exact h.disown
  · exact h.disown
  · obtain ⟨ha, hc, -⟩ := not_or.mp hbad |>.imp_right not_or.mp
    exact ((h.retirePoll (by simpa using ha) (not_not.mp hc)).fail _).drainDone _ _
  · obtain ⟨ha, hc, -⟩ := not_or.mp hbad |>.imp_right not_or.mp
    exact (h.retirePoll (by simpa using ha) (not_not.mp hc)).drainDone _ _
  · exact h.dispatchCqe c room

/-- The initial fetch of a tag, and the loop goes on. -/
theorem Inv.prepFetch (h : Inv q) (io : Sqe) {k : ℕ} (ht : q.fetchNext = t.val) (hk : t.val < k) :
    Inv { q.prepIoCmd .fetch t 0 io with fetchNext := k } := by
  have hsame := same_getSqe q io
  have hle : q.fetchNext ≤ k := ht.trans_le hk.le
  unfold Queue.prepIoCmd
  split_ifs
  · exact h.disown.advance hle
  · exact h.advance hle
  · exact (h.same hsame).publish_fetch (hsame.fetchNext.trans ht) hk
  · exact (h.same hsame).advance (hsame.fetchNext.trans_le hle)

theorem Inv.prepareOwnerFetch (h : Inv q) (io : Sqe) : Inv (q.prepareOwnerFetch io) := by
  simp only [Queue.prepareOwnerFetch]
  split
  · rename_i ht
    refine h.prepFetch io rfl ?_
    -- the next tag, or none
    split_ifs
    · exact ht
    · exact Nat.lt_succ_self _
  · exact h

/-- **Every call keeps the books.** -/
theorem Inv.step (h : Inv q) (a : Act n) : Inv (step q a) := by
  cases a with
  | prepareOwnerFetch io => exact h.prepareOwnerFetch io
  | cqe c room readError ios => exact h.onCqe c room readError ios
  | completeOnOwner tag result io error => exact h.completeOnOwner tag result io error
  | flushOwnerCompletions error => exact h.flushOwnerCompletions error
  | closeOwnerCompletionBatching error =>
    refine Inv.flushOwnerCompletions ?_ error
    exact h.same ⟨rfl, rfl, rfl, rfl, rfl, rfl, rfl, rfl, rfl, id, rfl⟩
  | drainDone readError ios => exact h.drainDone readError ios
  | armDonePoll room => exact h.armDonePoll room
  | tryPopRequest =>
    simp only [RawLedger.step, Queue.tryPopRequest]
    split_ifs
    · exact h
    · exact h.same ⟨rfl, rfl, rfl, rfl, rfl, rfl, rfl, rfl, rfl, id, rfl⟩
  | rejectPending => exact h.rejectPending
  | recoverLostReplies => exact h.recoverLostReplies
  | prepareReplies ios => exact h.prepareReplies ios
  | maintainOwner ios error => exact (h.rejectPending.recoverLostReplies.prepareReplies ios).submitOwner error
  | fail error => exact h.fail error
  | _ => exact h.same ⟨rfl, rfl, rfl, rfl, rfl, rfl, rfl, rfl, rfl, id, rfl⟩

/-- The queue after some calls. -/
def run (sameOwner : Bool) (calls : List (Act n)) : Queue n := calls.foldl step { sameOwner := sameOwner }

theorem inv_run (sameOwner : Bool) (calls : List (Act n)) : Inv (run sameOwner calls) := by
  have hrun : ∀ q : Queue n, Inv q → Inv (calls.foldl step q) := by
    induction calls with
    | nil => exact fun _ h => h
    | cons a calls ih => exact fun q h => ih (step q a) (h.step a)
  exact hrun _ (inv_init sameOwner)

/-- The books of a queue balance. -/
structure Balanced (q : Queue n) : Prop where
  /-- What was published and not retired: one command for each pending slot, and one for an armed poll. -/
  debt : q.rawRetired ≤ q.rawPublished ∧ q.rawPublished - q.rawRetired = tally RawSlot.pending q.raw + q.pollArmed.toNat
  /-- `delivered_count_` is the number of delivered slots. -/
  delivered : q.deliveredCount = tally RawSlot.delivered q.raw
  /-- The kernel has the command of the slot and no other of the tag, and of the polls the armed one. -/
  commands : (∀ t, q.inFlight t = if (q.raw t).pending then [(q.raw t).cookie] else []) ∧
    q.pollInFlight = if q.pollArmed then [q.pollCookie] else []
  /-- While the debt is known, deliveries and commits of a tag take turns, and a delivery is open as its slot says. -/
  answered : q.debtKnown = true → ∀ t, openAfter (q.log t) = some (q.raw t).delivered
  /-- So between two deliveries there is exactly one commit. -/
  once : q.debtKnown = true → ∀ t l₁ l₂ l₃, q.log t = l₁ ++ Event.deliver :: (l₂ ++ Event.deliver :: l₃) →
    Event.deliver ∉ l₂ → ∃ result, l₂ = [.commit result]
  /-- A retired kernel has no command, holds no delivered buffer, and is owed no reply. -/
  retired : q.kernelRetired = true → q.pollInFlight = [] ∧
    ∀ t, q.inFlight t = [] ∧ (q.raw t).delivered = false ∧ (q.raw t).replyReady = false ∧ openAfter (q.log t) = some false

/-- **The books balance** after any calls in any order. -/
theorem books_balance (sameOwner : Bool) (calls : List (Act n)) : Balanced (run sameOwner calls) := by
  have h := inv_run sameOwner calls
  have hpub := h.published
  refine ⟨⟨by omega, by omega⟩, h.delivered, ⟨h.inFlight, h.poll⟩, h.answered, fun hk t l₁ l₂ l₃ hlog hno => ?_, fun hret => ?_⟩
  · have hopen := h.answered hk t
    rw [hlog] at hopen
    exact commit_between hopen hno
  simp only [Queue.kernelRetired, Bool.and_eq_true, Bool.not_eq_true', decide_eq_true_eq] at hret
  obtain ⟨⟨⟨hknown, harmed⟩, -⟩, hslots⟩ := hret
  refine ⟨by simp [h.poll, harmed], fun t => ?_⟩
  obtain ⟨hp, hd, hr⟩ := hslots t
  refine ⟨by simp [h.inFlight t, hp], hd, hr, ?_⟩
  rw [h.answered hknown t, hd]

end OverlayBD.RawLedger
