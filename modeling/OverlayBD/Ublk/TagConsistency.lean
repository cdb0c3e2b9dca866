import OverlayBD.Ublk.TagEngine

/-!
# Consistency of the tags

What one tag's fields, its mailbox slot, its handler frame and the owner's place say has to stand together.
`Consistent` has one case for each way it can.

## What is proved

* `Consistent.*` — what each step does to the tag it touches; along the way, that the guard's claim of a slot
  and the owner's retirement of one never fail (`claim_ne_none`, `retire_ne_none`).
* `Shape.step` — every step keeps every tag consistent.
-/

namespace OverlayBD.Ublk

open Errno

variable {n : ℕ}

/-! ### The mailbox word -/

theorem mailboxState_eq (generation : ℕ) {state : ℕ} (h : state < 4) :
    mailboxState generation state = 4 * generation + state := by
  unfold mailboxState kStateBits
  rw [← Nat.shiftLeft_add_eq_or_of_lt (by simpa using h), Nat.shiftLeft_eq]
  omega

theorem mailboxState_armed_ne_ready (g : ℕ) : mailboxState g kArmed ≠ mailboxState g kReady := by
  rw [mailboxState_eq g (by decide), mailboxState_eq g (by decide)]
  unfold kArmed kReady
  omega

theorem mailboxState_ready_ne_zero (g : ℕ) : mailboxState g kReady ≠ 0 := by
  rw [mailboxState_eq g (by decide)]
  unfold kReady
  omega

theorem Slot.arm_eq_some {s s' : Slot} {g : ℕ} (h : s.arm g = some s') :
    Slot.ValidGeneration g ∧ s.state = 0 ∧ s' = { s with state := mailboxState g kArmed } := by
  unfold Slot.arm at h
  split_ifs at h with hc
  exact ⟨hc.1, hc.2, (Option.some.inj h).symm⟩

theorem Slot.take_eq_some {s s' : Slot} {g p : ℕ} {r : ℤ} (h : s.take g = some (s', r, p)) :
    s.state = mailboxState g kReady ∧ s' = { s with state := 0 } ∧ p = s.producedFor := by
  unfold Slot.take at h
  split_ifs at h with hc
  have h' := Option.some.inj h
  simp only [Prod.mk.injEq] at h'
  exact ⟨hc.2, h'.1.symm, h'.2.2.symm⟩

/-! ### One tag -/

/-- The owner's place, as one tag sees it. -/
inductive Focus where
  | away
  | activating
  | taking
  | settling (result : Option Taken)
  | retiring (generation : ℕ)
  | deactivating

/-- Project the owner's place to a tag. -/
def Owner.focus (o : Owner n) (t : Fin n) : Focus :=
  match o with
  | .activating t' => if t' = t then .activating else .away
  | .taking t' _ => if t' = t then .taking else .away
  | .settling t' _ r => if t' = t then .settling r else .away
  | .retiring t' g => if t' = t then .retiring g else .away
  | .deactivating t' => if t' = t then .deactivating else .away
  | _ => .away

namespace Tag

/-- No obligation. -/
structure Idle (x : Tag) : Prop where
  slot : x.slot.state = 0
  busy : x.busy = false
  active : x.active = 0

/-- An obligation, with the phase of its mailbox slot and what the guard would load. -/
structure Obliged (x : Tag) (phase active : ℕ) : Prop where
  slot : x.slot.state = mailboxState x.generation phase
  busy : x.busy = true
  active : x.active = active
  valid : Slot.ValidGeneration x.generation

/-- Nobody has touched the obligation, if there is one. -/
def Armed (x : Tag) : Prop := x.Obliged kArmed x.generation

/-- The guard left its result. -/
def Ready (x : Tag) : Prop := x.Obliged kReady x.generation ∧ x.slot.producedFor = x.generation

/-- The slot is empty again but the obligation not yet marked as over. -/
structure Emptied (x : Tag) : Prop where
  slot : x.slot.state = 0
  busy : x.busy = true

/-- A tag at rest, seen from the owner's place. -/
def Rests (x : Tag) : Focus → Prop
  | .away => x.Idle ∨ x.Armed
  | .activating => x.Obliged kArmed 0
  | _ => False

variable {x y : Tag}

theorem Obliged.congr {phase active : ℕ} (h : x.Obliged phase active) (hg : y.generation = x.generation)
    (hs : y.slot.state = x.slot.state) (hb : y.busy = x.busy) (ha : y.active = x.active) :
    y.Obliged phase active :=
  ⟨by rw [hs, hg, h.slot], hb.trans h.busy, ha.trans h.active, hg ▸ h.valid⟩

theorem Armed.congr (h : x.Armed) (hg : y.generation = x.generation) (hs : y.slot.state = x.slot.state)
    (hb : y.busy = x.busy) (ha : y.active = x.active) : y.Armed := by
  unfold Armed
  rw [hg]
  exact Obliged.congr h hg hs hb ha

theorem Rests.congr {f : Focus} (h : x.Rests f) (hg : y.generation = x.generation)
    (hs : y.slot.state = x.slot.state) (hb : y.busy = x.busy) (ha : y.active = x.active) : y.Rests f := by
  cases f with
  | away =>
    rcases h with h | h
    · exact .inl ⟨hs.trans h.slot, hb.trans h.busy, ha.trans h.active⟩
    · exact .inr (h.congr hg hs hb ha)
  | activating => exact Obliged.congr h hg hs hb ha
  | _ => exact h.elim

end Tag

/-- A frame that has not touched the mailbox and may still serve or die. -/
def Handler.Unhurt : Handler → Prop
  | .fresh | .waiting | .woken | .dying => True
  | _ => False

/-- **One tag's invariant**: the ways its fields, slot, handler frame and the owner's place stand together.
`failed` says whether the sink was told of a failure. -/
inductive Consistent (failed : Prop) : Focus → Tag → Prop
  /-- No handler and no obligation; a failed collection may have left the slot armed. -/
  | unused {x : Tag} (hs : x.started = false) (hf : x.handlerFailed = false) (hh : x.handler = .absent)
      (hb : x.busy = false) (ha : x.active = 0) (hslot : x.slot.state = 0 ∨ failed) : Consistent failed .away x
  /-- The obligation its first handler is spawned for. -/
  | spawning {x : Tag} (hs : x.started = false) (hf : x.handlerFailed = false) (hh : x.handler = .absent)
      (h : x.Obliged kArmed 0) : Consistent failed .activating x
  | unhurt {f : Focus} {x : Tag} (hs : x.started = true) (hf : x.handlerFailed = false)
      (hh : x.handler.Unhurt) (h : x.Rests f) : Consistent failed f x
  | serving {x : Tag} {r : IoRequest} (hs : x.started = true) (hf : x.handlerFailed = false)
      (hh : x.handler = .serving x.generation r) (h : x.Armed) : Consistent failed .away x
  | retiring {x : Tag} (hs : x.started = true) (hf : x.handlerFailed = false) (hh : x.handler = .finishing)
      (h : x.Armed) : Consistent failed (.retiring x.generation) x
  | deactivating {x : Tag} (hs : x.started = true) (hf : x.handlerFailed = false)
      (hh : x.handler = .finishing) (h : x.Emptied) : Consistent failed .deactivating x
  | claiming {x : Tag} (hs : x.started = true) (hf : x.handlerFailed = false)
      (hh : x.handler = .claiming x.generation) (h : x.Armed) : Consistent failed .away x
  | filling {x : Tag} (hs : x.started = true) (hf : x.handlerFailed = false)
      (hh : x.handler = .filling x.generation) (h : x.Obliged kWriting x.generation) : Consistent failed .away x
  | readying {x : Tag} (hs : x.started = true) (hf : x.handlerFailed = false)
      (hh : x.handler = .readying x.generation) (h : x.Obliged kWriting x.generation)
      (hp : x.slot.producedFor = x.generation) : Consistent failed .away x
  /-- The guard is about to store `handler_failed`.  It found no obligation to report, or reported it; in the
  first case one may have been admitted since. -/
  | marking {f : Focus} {x : Tag} (hs : x.started = true) (hf : x.handlerFailed = false)
      (hh : x.handler = .marking) (h : x.Rests f ∨ (f = .away ∧ x.Ready)) : Consistent failed f x
  /-- The same, `handler_failed` stored. -/
  | marked {f : Focus} {x : Tag} (hs : x.started = true) (hf : x.handlerFailed = true)
      (hh : x.handler = .absent) (h : x.Rests f ∨ (f = .away ∧ x.Ready)) : Consistent failed f x
  /-- The owner collects the failed handler. -/
  | taking {x : Tag} (hs : x.started = true) (hf : x.handlerFailed = false) (hh : x.handler = .absent)
      (h : x.Rests .away ∨ x.Ready) : Consistent failed .taking x
  | taken {x : Tag} {r : Taken} (hs : x.started = true) (hf : x.handlerFailed = false)
      (hh : x.handler = .absent) (h : x.Emptied) (hp : r.producedFor = x.generation) :
      Consistent failed (.settling (some r)) x
  | missing {x : Tag} (hs : x.started = true) (hf : x.handlerFailed = false) (hh : x.handler = .absent)
      (h : x.Rests .away) : Consistent failed (.settling none) x
  /-- The handler returned because the engine is closing. -/
  | closed {x : Tag} (hs : x.started = true) (hf : x.handlerFailed = false) (hh : x.handler = .absent)
      (hc : x.closing = true) (h : x.Idle) : Consistent failed .away x

namespace Consistent

variable {failed : Prop} {f : Focus} {x : Tag}

theorem mono {failed' : Prop} (h : Consistent failed f x) (hF : failed → failed') : Consistent failed' f x := by
  cases h with
  | unused hs hf hh hb ha hslot => exact .unused hs hf hh hb ha (hslot.imp_right hF)
  | spawning hs hf hh h => exact .spawning hs hf hh h
  | unhurt hs hf hh h => exact .unhurt hs hf hh h
  | serving hs hf hh h => exact .serving hs hf hh h
  | retiring hs hf hh h => exact .retiring hs hf hh h
  | deactivating hs hf hh h => exact .deactivating hs hf hh h
  | claiming hs hf hh h => exact .claiming hs hf hh h
  | filling hs hf hh h => exact .filling hs hf hh h
  | readying hs hf hh h hp => exact .readying hs hf hh h hp
  | marking hs hf hh h => exact .marking hs hf hh h
  | marked hs hf hh h => exact .marked hs hf hh h
  | taking hs hf hh h => exact .taking hs hf hh h
  | taken hs hf hh h hp => exact .taken hs hf hh h hp
  | missing hs hf hh h => exact .missing hs hf hh h
  | closed hs hf hh hc h => exact .closed hs hf hh hc h

/-- The request, the event and the next generation do not matter, and closing may only begin. -/
theorem relabel (h : Consistent failed f x) (r : IoRequest) (ready : Bool) (next : ℕ) (closing : Bool)
    (hc : x.closing = true → closing = true) :
    Consistent failed f { x with request := r, ready := ready, nextGeneration := next, closing := closing } := by
  have hrest : ∀ g : Focus, x.Rests g →
      Tag.Rests { x with request := r, ready := ready, nextGeneration := next, closing := closing } g :=
    fun g hg => hg.congr rfl rfl rfl rfl
  have hready : x.Ready →
      Tag.Ready { x with request := r, ready := ready, nextGeneration := next, closing := closing } :=
    fun h => ⟨⟨h.1.slot, h.1.busy, h.1.active, h.1.valid⟩, h.2⟩
  cases h with
  | unused hs hf hh hb ha hslot => exact .unused hs hf hh hb ha hslot
  | spawning hs hf hh h => exact .spawning hs hf hh ⟨h.slot, h.busy, h.active, h.valid⟩
  | unhurt hs hf hh h => exact .unhurt hs hf hh (hrest f h)
  | serving hs hf hh h => exact .serving hs hf hh ⟨h.slot, h.busy, h.active, h.valid⟩
  | retiring hs hf hh h =>
    exact .retiring (x := { x with request := r, ready := ready, nextGeneration := next, closing := closing })
      hs hf hh ⟨h.slot, h.busy, h.active, h.valid⟩
  | deactivating hs hf hh h => exact .deactivating hs hf hh ⟨h.slot, h.busy⟩
  | claiming hs hf hh h => exact .claiming hs hf hh ⟨h.slot, h.busy, h.active, h.valid⟩
  | filling hs hf hh h => exact .filling hs hf hh ⟨h.slot, h.busy, h.active, h.valid⟩
  | readying hs hf hh h hp => exact .readying hs hf hh ⟨h.slot, h.busy, h.active, h.valid⟩ hp
  | marking hs hf hh h => exact .marking hs hf hh (h.imp (hrest f) (And.imp_right hready))
  | marked hs hf hh h => exact .marked hs hf hh (h.imp (hrest f) (And.imp_right hready))
  | taking hs hf hh h => exact .taking hs hf hh (h.imp (hrest .away) hready)
  | taken hs hf hh h hp => exact .taken hs hf hh ⟨h.slot, h.busy⟩ hp
  | missing hs hf hh h => exact .missing hs hf hh (hrest .away h)
  | closed hs hf hh hclosing h => exact .closed hs hf hh (hc hclosing) ⟨h.slot, h.busy, h.active⟩

/-! What the place of a handler frame says. -/

theorem rests (h : Consistent failed f x) (hu : x.handler.Unhurt) :
    x.started = true ∧ x.handlerFailed = false ∧ x.Rests f := by
  cases h with
  | unhurt hs hf _ h => exact ⟨hs, hf, h⟩
  | _ => simp_all [Handler.Unhurt]

variable {r : IoRequest} {g : ℕ}

theorem of_serving (h : Consistent failed f x) (hh : x.handler = .serving g r) :
    f = .away ∧ g = x.generation ∧ x.started = true ∧ x.handlerFailed = false ∧ x.Armed := by
  cases h with
  | serving hs hf hh' h =>
    obtain ⟨rfl, rfl⟩ : g = x.generation ∧ r = _ := by simpa [hh] using hh'
    exact ⟨rfl, rfl, hs, hf, h⟩
  | _ => simp_all [Handler.Unhurt]

theorem of_claiming (h : Consistent failed f x) (hh : x.handler = .claiming g) :
    f = .away ∧ g = x.generation ∧ x.started = true ∧ x.handlerFailed = false ∧ x.Armed := by
  cases h with
  | claiming hs hf hh' h =>
    obtain rfl : g = x.generation := by simpa [hh] using hh'
    exact ⟨rfl, rfl, hs, hf, h⟩
  | _ => simp_all [Handler.Unhurt]

theorem of_filling (h : Consistent failed f x) (hh : x.handler = .filling g) :
    f = .away ∧ g = x.generation ∧ x.started = true ∧ x.handlerFailed = false ∧
      x.Obliged kWriting x.generation := by
  cases h with
  | filling hs hf hh' h =>
    obtain rfl : g = x.generation := by simpa [hh] using hh'
    exact ⟨rfl, rfl, hs, hf, h⟩
  | _ => simp_all [Handler.Unhurt]

theorem of_readying (h : Consistent failed f x) (hh : x.handler = .readying g) :
    f = .away ∧ g = x.generation ∧ x.started = true ∧ x.handlerFailed = false ∧
      x.Obliged kWriting x.generation ∧ x.slot.producedFor = x.generation := by
  cases h with
  | readying hs hf hh' h hp =>
    obtain rfl : g = x.generation := by simpa [hh] using hh'
    exact ⟨rfl, rfl, hs, hf, h, hp⟩
  | _ => simp_all [Handler.Unhurt]

theorem of_marking (h : Consistent failed f x) (hh : x.handler = .marking) :
    x.started = true ∧ (x.Rests f ∨ (f = .away ∧ x.Ready)) := by
  cases h with
  | marking hs _ _ h => exact ⟨hs, h⟩
  | _ => simp_all [Handler.Unhurt]

theorem of_handlerFailed (h : Consistent failed f x) (hf : x.handlerFailed = true) :
    x.started = true ∧ x.handler = .absent ∧ (x.Rests f ∨ (f = .away ∧ x.Ready)) := by
  cases h with
  | marked hs _ hh h => exact ⟨hs, hh, h⟩
  | _ => simp_all

/-! What each step does to the tag it touches. -/

theorem loopTop (h : Consistent failed .away x) (hh : x.handler.Unhurt) :
    Consistent failed .away x.loopTop := by
  obtain ⟨hs, hf, hr⟩ := h.rests hh
  unfold Tag.loopTop
  split_ifs with hc
  · rcases hr with hi | ha
    · exact .closed hs hf rfl hc.1 ⟨hi.slot, hi.busy, hi.active⟩
    · exact absurd (ha.busy.symm.trans hc.2) (by decide)
  · exact .unhurt hs hf trivial (hr.congr rfl rfl rfl rfl)

theorem wake (h : Consistent failed f x) (hh : x.handler = .waiting) :
    Consistent failed f { x with handler := .woken } := by
  obtain ⟨hs, hf, hr⟩ := h.rests (by rw [hh]; trivial)
  exact .unhurt hs hf trivial (hr.congr rfl rfl rfl rfl)

theorem enter (h : Consistent failed .away x) (hh : x.handler = .woken) : Consistent failed .away x.enter := by
  have h' := h.relabel x.request false x.nextGeneration x.closing id
  unfold Tag.enter
  simp only
  split_ifs with hb
  · obtain ⟨hs, hf, hi | ha⟩ := h'.rests (by rw [hh]; trivial)
    · exact absurd (hi.busy.symm.trans hb) (by decide)
    · exact .serving hs hf rfl ⟨ha.slot, ha.busy, ha.active, ha.valid⟩
  · exact h'.loopTop (by rw [hh]; trivial)

theorem destroy (h : Consistent failed f x) (hh : x.handler.Suspended) :
    Consistent failed f { x with handler := .dying } := by
  cases hx : x.handler with
  | serving g r =>
    obtain ⟨rfl, -, hs, hf, ha⟩ := h.of_serving hx
    exact .unhurt hs hf trivial (.inr ⟨ha.slot, ha.busy, ha.active, ha.valid⟩)
  | fresh | waiting | woken =>
    obtain ⟨hs, hf, hr⟩ := h.rests (by rw [hx]; trivial)
    exact .unhurt hs hf trivial (hr.congr rfl rfl rfl rfl)
  | _ => exact absurd hh (by rw [hx]; exact id)

theorem load (h : Consistent failed f x) (hh : x.handler = .dying) :
    Consistent failed f { x with handler := if x.active = 0 then .marking else .claiming x.active } := by
  obtain ⟨hs, hf, hr⟩ := h.rests (by rw [hh]; trivial)
  split_ifs with ha
  · exact .marking hs hf rfl (.inl (hr.congr rfl rfl rfl rfl))
  · cases f with
    | away =>
      rcases hr with hi | hr
      · exact absurd hi.active ha
      · exact .claiming hs hf (congrArg Handler.claiming hr.active) ⟨hr.slot, hr.busy, hr.active, hr.valid⟩
    | activating => exact absurd hr.active ha
    | _ => exact hr.elim

variable {slot : Slot}

theorem claim (h : Consistent failed f x) (hh : x.handler = .claiming g) (hc : x.slot.claim g = some slot) :
    Consistent failed f { x with slot := slot, handler := .filling g } := by
  obtain ⟨rfl, rfl, hs, hf, ha⟩ := h.of_claiming hh
  unfold Slot.claim at hc
  split_ifs at hc
  obtain rfl := Option.some.inj hc
  exact .filling (x := { x with slot := _, handler := _ }) hs hf rfl ⟨rfl, ha.busy, ha.active, ha.valid⟩

/-- The guard's own publication never fails. -/
theorem claim_ne_none (h : Consistent failed f x) (hh : x.handler = .claiming g) :
    x.slot.claim g ≠ none := by
  obtain ⟨rfl, rfl, -, -, ha⟩ := h.of_claiming hh
  unfold Slot.claim
  rw [if_pos ⟨ha.valid, ha.slot⟩]
  exact Option.some_ne_none _

theorem fill {result : ℤ} (h : Consistent failed f x) (hh : x.handler = .filling g) :
    Consistent failed f { x with slot := x.slot.fill g result, handler := .readying g } := by
  obtain ⟨rfl, rfl, hs, hf, ho⟩ := h.of_filling hh
  exact .readying (x := { x with slot := _, handler := _ }) hs hf rfl ⟨ho.slot, ho.busy, ho.active, ho.valid⟩ rfl

theorem ready (h : Consistent failed f x) (hh : x.handler = .readying g) :
    Consistent failed f { x with slot := x.slot.ready g, handler := .marking } := by
  obtain ⟨rfl, rfl, hs, hf, ho, hp⟩ := h.of_readying hh
  exact .marking (x := { x with slot := _, handler := _ }) hs hf rfl
    (.inr ⟨rfl, ⟨rfl, ho.busy, ho.active, ho.valid⟩, hp⟩)

theorem ready_flags (flag : Bool) {hd : Handler} (h : x.Rests f ∨ (f = .away ∧ x.Ready)) :
    Tag.Rests { x with handlerFailed := flag, handler := hd } f ∨
      (f = .away ∧ Tag.Ready { x with handlerFailed := flag, handler := hd }) := by
  rcases h with hr | ⟨rfl, hr⟩
  · exact .inl (hr.congr rfl rfl rfl rfl)
  · exact .inr ⟨rfl, ⟨hr.1.slot, hr.1.busy, hr.1.active, hr.1.valid⟩, hr.2⟩

theorem mark (h : Consistent failed f x) (hh : x.handler = .marking) :
    Consistent failed f { x with handlerFailed := true, handler := .absent } := by
  obtain ⟨hs, hr⟩ := h.of_marking hh
  exact .marked hs rfl rfl (ready_flags true hr)

theorem scanHit (h : Consistent failed .away x) (hf : x.handlerFailed = true) :
    Consistent failed .taking { x with handlerFailed := false } := by
  obtain ⟨hs, hh, hr⟩ := h.of_handlerFailed hf
  exact .taking hs rfl hh ((ready_flags false hr).imp_right And.right)

/-- The collected tag, with or without a result. -/
theorem of_taking (h : Consistent failed .taking x) :
    x.started = true ∧ x.handlerFailed = false ∧ x.handler = .absent ∧ (x.Rests .away ∨ x.Ready) := by
  cases h with
  | taking hs hf hh h => exact ⟨hs, hf, hh, h⟩
  | unhurt _ _ _ h => exact h.elim
  | marking _ _ _ h => exact (h.resolve_right (fun h => by cases h.1)).elim
  | marked _ _ _ h => exact (h.resolve_right (fun h => by cases h.1)).elim

theorem takeSome {result : ℤ} {producedFor : ℕ} (h : Consistent failed .taking x)
    (ht : x.slot.take x.generation = some (slot, result, producedFor)) :
    Consistent failed (.settling (some ⟨result, producedFor⟩)) { x with slot := slot } := by
  obtain ⟨hs, hf, hh, hr⟩ := h.of_taking
  obtain ⟨hstate, rfl, rfl⟩ := Slot.take_eq_some ht
  rcases hr with (hi | ha) | hr
  · exact absurd (hstate.symm.trans hi.slot) (mailboxState_ready_ne_zero _)
  · exact absurd (ha.slot.symm.trans hstate) (mailboxState_armed_ne_ready _)
  · exact .taken hs hf hh ⟨rfl, hr.1.busy⟩ hr.2

theorem takeNone (h : Consistent failed .taking x)
    (ht : x.generation = 0 ∨ x.slot.take x.generation = none) : Consistent failed (.settling none) x := by
  obtain ⟨hs, hf, hh, hr | hr⟩ := h.of_taking
  · exact .missing hs hf hh hr
  · -- a result of a valid generation would have been taken
    rcases ht with h0 | ht
    · exact absurd h0 hr.1.valid.1
    · unfold Slot.take at ht
      rw [if_pos ⟨hr.1.valid, hr.1.slot⟩] at ht
      cases ht

theorem of_settling {result : Option Taken} (h : Consistent failed (.settling result) x) :
    x.handlerFailed = false ∧ x.handler = .absent ∧
      ((x.Emptied ∧ ∃ r, result = some r ∧ r.producedFor = x.generation) ∨ (result = none ∧ x.Rests .away)) := by
  cases h with
  | taken _ hf hh h hp => exact ⟨hf, hh, .inl ⟨h, _, rfl, hp⟩⟩
  | missing _ hf hh h => exact ⟨hf, hh, .inr ⟨rfl, h⟩⟩
  | unhurt _ _ _ h => exact h.elim
  | marking _ _ _ h => exact (h.resolve_right (fun h => by cases h.1)).elim
  | marked _ _ _ h => exact (h.resolve_right (fun h => by cases h.1)).elim

/-- After a collection the tag is unused; if its slot kept an obligation the sink has been told. -/
theorem settle {failed' : Prop} {result : Option Taken} (h : Consistent failed (.settling result) x)
    (hfail : x.busy ≠ result.isSome → failed') :
    Consistent failed' .away { x with active := 0, started := false, busy := false, ready := false } := by
  obtain ⟨hf, hh, ⟨he, -⟩ | ⟨rfl, hi | ha⟩⟩ := h.of_settling
  · exact .unused rfl hf hh rfl rfl (.inl he.slot)
  · exact .unused rfl hf hh rfl rfl (.inl hi.slot)
  · exact .unused rfl hf hh rfl rfl (.inr (hfail (by rw [ha.busy]; decide)))

theorem admission (h : Consistent failed .away x) (hb : x.busy = false)
    (hc : x.closing = false) (harm : x.slot.arm g = some slot) :
    Consistent failed .activating
      { x with nextGeneration := g + 1, slot := slot, request := r, generation := g, busy := true } := by
  obtain ⟨hvalid, -, rfl⟩ := Slot.arm_eq_some harm
  cases h with
  | unused hs hf hh _ ha _ => exact .spawning hs hf hh ⟨rfl, rfl, ha, hvalid⟩
  | unhurt hs hf hh h =>
    rcases h with hi | ha
    · exact .unhurt hs hf hh ⟨rfl, rfl, hi.active, hvalid⟩
    · exact absurd (hb.symm.trans ha.busy) (by decide)
  | marking hs hf hh h =>
    rcases h with (hi | ha) | hr
    · exact .marking hs hf hh (.inl ⟨rfl, rfl, hi.active, hvalid⟩)
    · exact absurd (hb.symm.trans ha.busy) (by decide)
    · exact absurd (hb.symm.trans hr.2.1.busy) (by decide)
  | marked hs hf hh h =>
    rcases h with (hi | ha) | hr
    · exact .marked hs hf hh (.inl ⟨rfl, rfl, hi.active, hvalid⟩)
    · exact absurd (hb.symm.trans ha.busy) (by decide)
    · exact absurd (hb.symm.trans hr.2.1.busy) (by decide)
  | closed _ _ _ hclosing _ => exact absurd (hc.symm.trans hclosing) (by decide)
  | serving _ _ _ h | claiming _ _ _ h => exact absurd (hb.symm.trans h.busy) (by decide)
  | filling _ _ _ h => exact absurd (hb.symm.trans h.busy) (by decide)
  | readying _ _ _ h _ => exact absurd (hb.symm.trans h.busy) (by decide)

theorem activate (h : Consistent failed .activating x) : Consistent failed .away x.activate := by
  have harmed : ∀ hd, x.Obliged kArmed 0 →
      Tag.Rests { x with active := x.generation, started := true, handler := hd } .away :=
    fun hd h => .inr ⟨h.slot, h.busy, rfl, h.valid⟩
  unfold Tag.activate
  cases h with
  | spawning hs hf hh h =>
    rw [hs]
    exact .unhurt rfl hf trivial (harmed _ h)
  | unhurt hs hf hh h =>
    rw [hs]
    exact .unhurt rfl hf hh (harmed _ h)
  | marking hs hf hh h =>
    rw [hs]
    exact .marking rfl hf hh (.inl (harmed _ (h.resolve_right (fun h => by cases h.1))))
  | marked hs hf hh h =>
    rw [hs]
    exact .marked rfl hf hh (.inl (harmed _ (h.resolve_right (fun h => by cases h.1))))

theorem of_retiring (h : Consistent failed (.retiring g) x) :
    g = x.generation ∧ x.started = true ∧ x.handlerFailed = false ∧ x.handler = .finishing ∧ x.Armed := by
  cases h with
  | retiring hs hf hh h => exact ⟨rfl, hs, hf, hh, h⟩
  | unhurt _ _ _ h => exact h.elim
  | marking _ _ _ h => exact (h.resolve_right (fun h => by cases h.1)).elim
  | marked _ _ _ h => exact (h.resolve_right (fun h => by cases h.1)).elim

theorem publish (h : Consistent failed .away x) (hh : x.handler = .serving g r) :
    Consistent failed (.retiring g) { x with handler := .finishing } := by
  obtain ⟨-, rfl, hs, hf, ha⟩ := h.of_serving hh
  exact .retiring (x := { x with handler := .finishing }) hs hf rfl ⟨ha.slot, ha.busy, ha.active, ha.valid⟩

theorem retire (h : Consistent failed (.retiring g) x)
    (hr : x.slot.retire g = some slot) : Consistent failed .deactivating { x with slot := slot } := by
  obtain ⟨rfl, hs, hf, hh, ha⟩ := h.of_retiring
  unfold Slot.retire at hr
  split_ifs at hr
  obtain rfl := Option.some.inj hr
  exact .deactivating hs hf hh ⟨rfl, ha.busy⟩

/-- The owner's own slot is still armed when it retires it. -/
theorem retire_ne_none (h : Consistent failed (.retiring g) x) : x.slot.retire g ≠ none := by
  obtain ⟨rfl, -, -, -, ha⟩ := h.of_retiring
  unfold Slot.retire
  rw [if_pos ⟨ha.valid, ha.slot⟩]
  exact Option.some_ne_none _

theorem release (h : Consistent failed .deactivating x) : Consistent failed .away x.release := by
  cases h with
  | deactivating hs hf hh h =>
    unfold Tag.release Tag.loopTop
    split_ifs with hc
    · exact .closed hs hf rfl hc.1 ⟨h.slot, rfl, rfl⟩
    · exact .unhurt hs hf trivial (.inl ⟨h.slot, rfl, rfl⟩)
  | unhurt _ _ _ h => exact h.elim
  | marking _ _ _ h => exact (h.resolve_right (fun h => by cases h.1)).elim
  | marked _ _ _ h => exact (h.resolve_right (fun h => by cases h.1)).elim

end Consistent

/-! ### All tags -/

/-- What holds of the changed tag and of every other one holds of all. -/
theorem forall_tags {s s' : Engine n} {t : Fin n} {x : Tag} (P : Fin n → Tag → Prop)
    (htags : s'.tags = Function.update s.tags t x) (ht : P t x) (hu : ∀ u, u ≠ t → P u (s.tags u)) (u : Fin n) :
    P u (s'.tags u) := by
  rw [htags]
  exact (Function.forall_update_iff s.tags P).mpr ⟨ht, hu⟩ u

/-- The owner is on its way to an admission. -/
def Owner.Admits : Owner n → Prop
  | .collecting _ q | .taking _ q | .settling _ q _ => q.isSome = true
  | .admitting _ | .activating _ | .signalling _ => True
  | _ => False

/-- Every tag is consistent, and no tag closes while a request is being admitted. -/
structure Shape (s : Engine n) : Prop where
  tags : ∀ t, Consistent s.Failed (s.owner.focus t) (s.tags t)
  closed : ∀ t, (s.tags t).closing = true → s.closed = true
  admits : s.owner.Admits → s.closed = false

namespace Shape

variable {s s' : Engine n} {t : Fin n}

theorem failed_fail (s : Engine n) (e : ℤ) : (s.fail e).Failed := by
  unfold Engine.Failed Engine.fail
  simp

/-- The owner moved, or the sink was told something, and no tag noticed. -/
theorem move (h : Shape s) (htags : s'.tags = s.tags) (hclosed : s'.closed = s.closed)
    (hfail : s.Failed → s'.Failed) (hfocus : ∀ t, s'.owner.focus t = s.owner.focus t)
    (hadm : s'.owner.Admits → s.closed = false) : Shape s' where
  tags := by
    intro t
    rw [htags, hfocus]
    exact (h.tags t).mono hfail
  closed := by
    rw [htags, hclosed]
    exact h.closed
  admits := by
    rw [hclosed]
    exact hadm

/-- One tag changed. -/
theorem setTag (h : Shape s) {x : Tag} (htags : s'.tags = Function.update s.tags t x)
    (hclosed : s'.closed = s.closed) (hfail : s.Failed → s'.Failed)
    (hx : Consistent s'.Failed (s'.owner.focus t) x) (hclosing : x.closing = (s.tags t).closing)
    (hfocus : ∀ u, u ≠ t → s'.owner.focus u = s.owner.focus u)
    (hadm : s'.owner.Admits → s.closed = false) : Shape s' where
  tags := by
    refine forall_tags (fun u y => Consistent s'.Failed (s'.owner.focus u) y) htags hx fun u hu => ?_
    rw [hfocus u hu]
    exact (h.tags u).mono hfail
  closed := by
    rw [hclosed]
    exact forall_tags (fun _ y => y.closing = true → s.closed = true) htags (hclosing ▸ h.closed t)
      fun u _ => h.closed u
  admits := by
    rw [hclosed]
    exact hadm

/-- One tag changed and the owner stayed. -/
theorem touch (h : Shape s) {x : Tag} (hx : Consistent s.Failed (s.owner.focus t) x)
    (hclosing : x.closing = (s.tags t).closing) : Shape (s.setTag t x) :=
  h.setTag rfl rfl id hx hclosing (fun _ _ => rfl) h.admits

theorem away (h : Shape s) (ho : s.owner.focus t = .away) : Consistent s.Failed .away (s.tags t) :=
  ho ▸ h.tags t

end Shape

/-- Between two places of the owner about one tag, no other tag is in focus. -/
theorem focus_of_ne {o : Owner n} {t u : Fin n} (hu : u ≠ t)
    (ho : o = .activating t ∨ (∃ q, o = .taking t q) ∨ (∃ q r, o = .settling t q r) ∨
      (∃ g, o = .retiring t g) ∨ o = .deactivating t) : o.focus u = .away := by
  rcases ho with rfl | ⟨q, rfl⟩ | ⟨q, r, rfl⟩ | ⟨g, rfl⟩ | rfl <;> exact if_neg hu.symm

theorem focus_resume (q : Option IoRequest) (t : Fin n) : (Owner.resume q).focus t = .away := by
  cases q <;> rfl

theorem admits_resume {q : Option IoRequest} (h : (Owner.resume q : Owner n).Admits) : q.isSome = true := by
  cases q with
  | none => exact h.elim
  | some => rfl

/-- Starting a collection leaves every tag alone. -/
theorem Shape.beginCollect {s : Engine n} {q : Option IoRequest} (h : Shape s) (ho : s.owner = .idle)
    (hq : q.isSome = true → s.closed = false) : Shape (s.beginCollect q) := by
  unfold Engine.beginCollect
  split_ifs
  · exact h.move rfl rfl id (fun t => by rw [ho]; rfl) hq
  · exact h.move rfl rfl id (fun t => by rw [ho]; exact focus_resume q t) fun ha => hq (admits_resume ha)

theorem Shape.settle {s : Engine n} {t : Fin n} {q : Option IoRequest} {result : Option Taken} {throws : Bool}
    (h : Shape s) (ho : s.owner = .settling t q result) : Shape (s.settle t q result throws) := by
  have ht := h.tags t
  rw [ho, show (Owner.settling t q result).focus t = .settling result from if_pos rfl] at ht
  have hadm : q.isSome = true → s.closed = false := fun hq => h.admits (by rw [ho]; exact hq)
  -- the collected tag, before the sink is called
  have h₂ : Shape
      { (if (s.tags t).busy ≠ result.isSome then s.fail eproto else s).setTag t
          { s.tags t with active := 0, started := false, busy := false, ready := false } with
        owner := .collecting (t.val + 1) q } := by
    split_ifs with hm
    · exact h.setTag rfl rfl (fun _ => Shape.failed_fail s eproto) (ht.settle fun _ => Shape.failed_fail s eproto) rfl
        (fun u hu => by rw [ho, focus_of_ne hu (.inr (.inr (.inl ⟨q, result, rfl⟩)))]; rfl) hadm
    · exact h.setTag rfl rfl id (ht.settle fun hne => absurd hne hm) rfl
        (fun u hu => by rw [ho, focus_of_ne hu (.inr (.inr (.inl ⟨q, result, rfl⟩)))]; rfl) hadm
  unfold Engine.settle
  cases result with
  | none => exact h₂
  | some r =>
    cases throws with
    | true => exact h₂.move rfl rfl (fun _ => Shape.failed_fail _ _) (fun _ => rfl) h₂.admits
    | false => exact h₂.move rfl rfl id (fun _ => rfl) h₂.admits

theorem Shape.admission {s : Engine n} {r : IoRequest} (h : Shape s) (ho : s.owner = .admitting r) :
    Shape (s.admission r) := by
  have hopen : s.closed = false := h.admits (by rw [ho]; trivial)
  have h₀ : ∀ e : ℤ, Shape ({ s with owner := .idle }.fail e) := fun e =>
    h.move rfl rfl (fun _ => Shape.failed_fail _ _) (fun t => by rw [ho]; rfl) fun ha => ha.elim
  unfold Engine.admission
  simp only
  split
  next hlt =>
    split_ifs with hb hg
    · exact h₀ eio
    · exact h₀ eoverflow
    · have ht : Consistent s.Failed .away (s.tags ⟨r.tag, hlt⟩) := h.away (by rw [ho]; rfl)
      split
      next => 
        refine h.setTag rfl rfl (fun _ => Shape.failed_fail _ _) ?_ rfl (fun u _ => by rw [ho]; rfl) fun ha => ha.elim
        exact (ht.mono fun _ => Shape.failed_fail _ _).relabel _ _ _ _ id
      next slot harm =>
        have hclosing : (s.tags ⟨r.tag, hlt⟩).closing = false := by
          cases hc : (s.tags ⟨r.tag, hlt⟩).closing with
          | false => rfl
          | true => exact absurd (hopen.symm.trans (h.closed _ hc)) (by decide)
        refine h.setTag rfl rfl id ?_ rfl (fun u hu => ?_) fun _ => hopen
        · rw [show (Owner.activating (⟨r.tag, hlt⟩ : Fin n)).focus ⟨r.tag, hlt⟩ = .activating from if_pos rfl]
          exact ht.admission (by simpa using hb) hclosing harm
        · rw [ho, focus_of_ne hu (.inl rfl)]
          rfl
  next => exact h₀ eio

/-- **The step lemma of the tags.** -/
theorem Shape.step {s s' : Engine n} (h : Shape s) (hs : EStep s s') : Shape s' := by
  cases hs with
  | collect ho => exact h.beginCollect ho fun hq => by cases hq
  | admitCall ho hc => exact h.beginCollect ho fun _ => hc
  | admitClosed ho _ => exact h.move rfl rfl (fun _ => failed_fail _ _) (fun _ => rfl) h.admits
  | beginClose ho =>
    refine ⟨fun t => ?_, fun _ _ => rfl, fun ha => ?_⟩
    · exact (h.tags t).relabel _ _ _ true fun _ => rfl
    · change s.owner.Admits at ha
      rw [ho] at ha
      exact ha.elim
  | @retrySignal t ho => exact h.touch ((h.tags t).relabel _ _ _ _ id) rfl
  | retryOutOfRange ho => exact h.move rfl rfl (fun _ => failed_fail _ _) (fun _ => rfl) h.admits
  | @scanNext t q ho hf =>
    exact h.move rfl rfl id (fun u => by rw [ho]; rfl) fun ha => h.admits (by rw [ho]; exact ha)
  | @scanHit t q ho hf =>
    refine h.setTag rfl rfl id ?_ rfl (fun u hu => ?_) fun ha => h.admits (by rw [ho]; exact ha)
    · rw [show (Owner.taking t q).focus t = .taking from if_pos rfl]
      exact (h.away (by rw [ho]; rfl)).scanHit hf
    · rw [ho, focus_of_ne hu (.inr (.inl ⟨q, rfl⟩))]
      rfl
  | @scanEnd q ho =>
    exact h.move rfl rfl id (fun u => by rw [ho]; exact focus_resume q u)
      fun ha => h.admits (by rw [ho]; exact admits_resume ha)
  | @takeSome t q slot result producedFor ho hg ht =>
    have hx := h.tags t
    rw [ho, show (Owner.taking t q).focus t = .taking from if_pos rfl] at hx
    refine h.setTag rfl rfl id ?_ rfl (fun u hu => ?_) fun ha => h.admits (by rw [ho]; exact ha)
    · rw [show (Owner.settling t q (some ⟨result, producedFor⟩)).focus t = .settling (some ⟨result, producedFor⟩)
        from if_pos rfl]
      exact hx.takeSome ht
    · rw [ho, focus_of_ne hu (.inr (.inl ⟨q, rfl⟩)), focus_of_ne hu (.inr (.inr (.inl ⟨q, _, rfl⟩)))]
  | @takeNone t q ho ht =>
    have hx := h.tags t
    rw [ho, show (Owner.taking t q).focus t = .taking from if_pos rfl] at hx
    refine h.setTag (Function.update_eq_self t s.tags).symm rfl id ?_ rfl (fun u hu => ?_)
      fun ha => h.admits (by rw [ho]; exact ha)
    · rw [show (Owner.settling t q none).focus t = .settling none from if_pos rfl]
      exact hx.takeNone ht
    · rw [ho, focus_of_ne hu (.inr (.inl ⟨q, rfl⟩)), focus_of_ne hu (.inr (.inr (.inl ⟨q, none, rfl⟩)))]
  | settle ho => exact h.settle ho
  | admission ho => exact h.admission ho
  | @activate t ho =>
    have hx := h.tags t
    rw [ho, show (Owner.activating t).focus t = .activating from if_pos rfl] at hx
    refine h.setTag rfl rfl id hx.activate rfl (fun u hu => ?_) fun _ => h.admits (by rw [ho]; trivial)
    rw [ho, focus_of_ne hu (.inl rfl)]
    rfl
  | @signal t ho =>
    have hx := h.away (t := t) (by rw [ho]; rfl)
    exact h.setTag rfl rfl id (hx.relabel _ _ _ _ id) rfl (fun u _ => by rw [ho]; rfl) fun ha => ha.elim
  | @signalFail t ho => exact h.move rfl rfl id (fun u => by rw [ho]; rfl) fun ha => ha.elim
  | @loopTop t ho hh =>
    have hf : s.owner.focus t = .away := by rw [ho]; rfl
    refine h.touch ?_ rfl
    rw [hf]
    exact (h.away hf).loopTop (by rw [hh]; trivial)
  | @wake t hh hr => exact h.touch ((h.tags t).wake hh) rfl
  | @enter t ho hh =>
    have hf : s.owner.focus t = .away := by rw [ho]; rfl
    refine h.touch ?_ ?_
    · rw [hf]
      exact (h.away hf).enter hh
    · unfold Tag.enter
      simp only
      split_ifs <;> rfl
  | @publish t g writable r o ho hh =>
    refine h.setTag rfl rfl id ?_ rfl (fun u hu => ?_) fun ha => ha.elim
    · rw [show (Owner.retiring t g).focus t = .retiring g from if_pos rfl]
      exact (h.away (by rw [ho]; rfl)).publish hh
    · rw [ho, focus_of_ne hu (.inr (.inr (.inr (.inl ⟨g, rfl⟩))))]
      rfl
  | @retire t g slot ho hr =>
    have hx := h.tags t
    rw [ho, show (Owner.retiring t g).focus t = .retiring g from if_pos rfl] at hx
    refine h.setTag rfl rfl id ?_ rfl (fun u hu => ?_) fun ha => ha.elim
    · rw [show (Owner.deactivating t).focus t = .deactivating from if_pos rfl]
      exact hx.retire hr
    · rw [ho, focus_of_ne hu (.inr (.inr (.inr (.inl ⟨g, rfl⟩)))), focus_of_ne hu (.inr (.inr (.inr (.inr rfl))))]
  | @retireFail t g ho hr =>
    have hx := h.tags t
    rw [ho, show (Owner.retiring t g).focus t = .retiring g from if_pos rfl] at hx
    exact absurd hr hx.retire_ne_none
  | @deactivate t ho =>
    have hx := h.tags t
    rw [ho, show (Owner.deactivating t).focus t = .deactivating from if_pos rfl] at hx
    refine h.setTag rfl rfl id hx.release rfl (fun u hu => ?_) fun ha => ha.elim
    rw [ho, focus_of_ne hu (.inr (.inr (.inr (.inr rfl))))]
    rfl
  | @destroy t hh => exact h.touch ((h.tags t).destroy hh) rfl
  | @load t hh => exact h.touch ((h.tags t).load hh) rfl
  | @claim t g slot hh hc => exact h.touch ((h.tags t).claim hh hc) rfl
  | @claimFail t g hh hc => exact absurd hc ((h.tags t).claim_ne_none hh)
  | @fill t g hh => exact h.touch ((h.tags t).fill hh) rfl
  | @ready t g hh => exact h.touch ((h.tags t).ready hh) rfl
  | @mark t hh => exact (h.touch ((h.tags t).mark hh) rfl).move rfl rfl id (fun _ => rfl) h.admits
  | pend hl => exact h.move rfl rfl id (fun _ => rfl) h.admits

end OverlayBD.Ublk
