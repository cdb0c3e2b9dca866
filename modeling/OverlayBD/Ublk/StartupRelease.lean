import OverlayBD.Ublk.StartupControl

/-!
# What the parties of the startup mailbox rely on

The owner is the only one to close the mailbox or to acknowledge a request, and a request is accepted only when
nothing is outstanding.  So while a request is outstanding the mailbox cannot move but by the owner's hand,
and what the owner found there stays true until it acts on it.

* `Fits` — how the release state of a record stands to the mailbox.
* `Serving`, `Quiet` — the owner before and after it has closed admission with nothing left to settle.
* `OwnerSound`, `RequesterSound` — what each party may rely on, at each place in its code.
* `Sound` is the invariant; `Sound.step` keeps it.
-/

namespace OverlayBD.Ublk.Startup

open Transition

variable {ι : Type}

/-! ### What each party relies on -/

/-- The release state of a record and the mailbox: the record is never ahead; it tells of the newest request
or there is none; and it lags behind only while that request is outstanding or the mailbox is closed. -/
structure Fits (m : Mailbox) (sequence : ℕ) (release : Release) : Prop where
  le : sequence ≤ m.requested
  told : sequence = m.requested → m.requested = 0 ∨ release ≠ .none
  lags : sequence ≠ m.requested → m.closed = false → m.acknowledged = sequence

/-- The owner has not closed admission.  Before the device exists nothing was ever acknowledged, and a release
its record calls pending is outstanding; one it calls refused is acknowledged. -/
structure Serving (m : Mailbox) (o : Owner) : Prop where
  admits : m.closed = false
  fresh : o.entered = false → m.acknowledged = 0 ∧ o.sequence = 0 ∧ o.release = .none
  outstanding : o.release = .pending → o.sequence = m.requested ∧ m.acknowledged ≠ m.requested
  refused : o.release = .refused → o.sequence = m.acknowledged
  notReleased : o.release ≠ .released

/-- Admission is closed with nothing outstanding, and the record tells of the last request. -/
structure Quiet (m : Mailbox) (o : Owner) : Prop where
  closed : m.closed = true
  settled : m.acknowledged = m.requested
  told : o.sequence = m.requested
  notPending : o.release ≠ .pending

/-- The owner is refusing request `n`: its record says so, and the mailbox does not yet. -/
structure Refusing (m : Mailbox) (o : Owner) (n : ℕ) : Prop where
  admits : m.closed = false
  entered : o.entered = true
  requested : m.requested = n
  told : o.sequence = n
  refused : o.release = .refused
  outstanding : m.acknowledged ≠ n

/-- The owner has closed the mailbox before the device exists, and has acknowledged nothing yet. -/
structure Folding (m : Mailbox) (o : Owner) (n : ℕ) : Prop where
  closed : m.closed = true
  requested : m.requested = n
  unacknowledged : m.acknowledged = 0
  silent : o.sequence = 0 ∧ o.release = .none

/-- The owner has carried out the release its record calls pending, and has closed the mailbox. -/
structure Finishing (m : Mailbox) (o : Owner) : Prop where
  closed : m.closed = true
  told : o.sequence = m.requested
  pending : o.release = .pending

/-- What is true when the owner gets to where `publish` returns. -/
def ContSound (m : Mailbox) (o : Owner) : Cont → Prop
  | .idle => Serving m o ∧ o.entered = true
  | .acknowledge n => Refusing m o n
  | .cleaning => Quiet m o
  | .leave => Quiet m o

/-- What is true just before the closed bit is set. -/
def ClosingSound (m : Mailbox) (o : Owner) (current : ℕ) : Job → Prop
  | .releaseBeforeStart => o.entered = false ∧ m.requested = current ∧ m.acknowledged ≠ current
  | .finishBeforeStart => o.entered = false
  | .ready => o.entered = true ∧ current = m.acknowledged
  | .cleanup => o.entered = true ∧ current = m.acknowledged
  | .pending => False
  | .finish => o.release = .pending ∧ o.sequence = current

/-- The calls that load `requested_` and then `acknowledged_`, and when each is made. -/
def ComparingSound (o : Owner) : Job → Prop
  | .releaseBeforeStart => o.entered = false
  | .ready | .cleanup | .pending => o.entered = true
  | .finishBeforeStart | .finish => False

/-- What is true behind the closed bit, just before the acknowledgement. -/
def AckingSound (m : Mailbox) (o : Owner) (current : ℕ) (accepted : Bool) : Job → Prop
  | .releaseBeforeStart => Folding m o current ∧ accepted = decide (current ≠ 0)
  | .finishBeforeStart => Folding m o current ∧ accepted = decide (current ≠ 0)
  | .finish => Finishing m o ∧ m.requested = current
  | .ready | .cleanup | .pending => False

/-- What the owner may rely on. -/
def OwnerSound (m : Mailbox) (o : Owner) : OwnerPc → Prop
  | .idle => Serving m o
  | .haveRequest job current =>
    Serving m o ∧ ComparingSound o job ∧ (current ≠ m.acknowledged → m.requested = current)
  | .closing job current => Serving m o ∧ ClosingSound m o current job
  | .closedUp current => Folding m o current
  | .acking job current accepted => AckingSound m o current accepted job
  | .persist current => Serving m o ∧ o.entered = true ∧ m.requested = current ∧ m.acknowledged ≠ current
  | .finishing => Finishing m o ∧ m.acknowledged = m.requested
  | .readying => Quiet m o
  | .cleaning => Quiet m o
  | .begin f k => o.Carries f ∧ ContSound m o k
  | .storing f _ k => o.Carries f ∧ ContSound m o k
  | .refusing n => Refusing m o n
  | .left => Quiet m o

/-- What a caller of `request_release` may rely on: if nothing has moved, nothing is outstanding. -/
def RequesterSound (m : Mailbox) : RequesterPc → Prop
  | .idle _ => True
  | .loaded sequence current => current < sequence ∧ current ≤ m.requested
  | .matched sequence current =>
    current < sequence ∧ current ≤ m.requested ∧
      (m.closed = false → m.requested = current → m.acknowledged = current)

/-- **The invariant.** -/
structure Sound (s : State ι) : Prop where
  ackLe : s.mail.acknowledged ≤ s.mail.requested
  fits : Fits s.mail s.owner.sequence s.owner.release
  marked : s.owner.release ≠ .none → s.owner.sequence ≠ 0
  owner : OwnerSound s.mail s.owner s.pc
  requesters : ∀ i, RequesterSound s.mail (s.requester i)

theorem sound_start : Sound (start ι) where
  ackLe := le_rfl
  fits := ⟨le_rfl, fun _ => .inl rfl, fun _ _ => rfl⟩
  marked := fun h => absurd rfl h
  owner := ⟨rfl, fun _ => ⟨rfl, rfl, rfl⟩, nofun, nofun, nofun⟩
  requesters := fun _ => trivial

/-! ### Requests -/

section Requests

variable {m : Mailbox} {o : Owner} {n : ℕ}

/-- With nothing outstanding, an open mailbox is at the record's own request. -/
theorem Fits.eq_requested {sequence : ℕ} {release : Release} (h : Fits m sequence release)
    (hopen : m.closed = false) (hack : m.acknowledged = m.requested) : sequence = m.requested := by
  by_contra hne
  exact hne ((h.lags hne hopen).symm.trans hack)

/-- Accepting a request leaves a record's release state one request behind. -/
theorem Fits.accept {sequence : ℕ} {release : Release} (h : Fits m sequence release)
    (hopen : m.closed = false) (hack : m.acknowledged = m.requested) (hn : m.requested < n) :
    Fits { m with requested := n } sequence release := by
  have hseq := h.eq_requested hopen hack
  constructor
  · exact (hseq.trans_lt hn).le
  · intro heq
    exact absurd (hseq.symm.trans heq) hn.ne
  · intro _ _
    exact hack.trans hseq.symm

theorem Serving.accept (h : Serving m o) (hack : m.acknowledged = m.requested) :
    Serving { m with requested := n } o :=
  ⟨h.admits, h.fresh, fun hp => absurd hack (h.outstanding hp).2, h.refused, h.notReleased⟩

theorem ContSound.accept {k : Cont} (h : ContSound m o k) (hopen : m.closed = false)
    (hack : m.acknowledged = m.requested) : ContSound { m with requested := n } o k := by
  have hshut : ¬ m.closed = true := by simp [hopen]
  cases k with
  | idle => exact ⟨h.1.accept hack, h.2⟩
  | acknowledge k => exact absurd (hack.trans h.requested) h.outstanding
  | cleaning => exact absurd h.closed hshut
  | leave => exact absurd h.closed hshut

/-- A request accepted under the owner does not disturb what it relies on. -/
theorem OwnerSound.accept {pc : OwnerPc} (h : OwnerSound m o pc) (hopen : m.closed = false)
    (hack : m.acknowledged = m.requested) : OwnerSound { m with requested := n } o pc := by
  have hshut : ¬ m.closed = true := by simp [hopen]
  cases pc with
  | idle => exact Serving.accept h hack
  | haveRequest job current =>
    obtain ⟨hserve, hjob, hcur⟩ := h
    refine ⟨hserve.accept hack, hjob, fun hne => absurd ?_ hne⟩
    by_contra hne'
    exact hne' ((hcur hne').symm.trans hack.symm)
  | closing job current =>
    refine ⟨h.1.accept hack, ?_⟩
    cases job with
    | releaseBeforeStart => exact absurd (hack.trans h.2.2.1) h.2.2.2
    | finish => exact absurd hack (h.1.outstanding h.2.1).2
    | finishBeforeStart => exact h.2
    | ready => exact h.2
    | cleanup => exact h.2
    | pending => exact h.2
  | closedUp current => exact absurd h.closed hshut
  | acking job current accepted =>
    cases job with
    | releaseBeforeStart => exact absurd h.1.closed hshut
    | finishBeforeStart => exact absurd h.1.closed hshut
    | finish => exact absurd h.1.closed hshut
    | ready => exact h
    | cleanup => exact h
    | pending => exact h
  | persist current => exact absurd (hack.trans h.2.2.1) h.2.2.2
  | finishing => exact absurd h.1.closed hshut
  | readying => exact absurd h.closed hshut
  | cleaning => exact absurd h.closed hshut
  | begin f k => exact ⟨h.1, h.2.accept hopen hack⟩
  | storing f todo k => exact ⟨h.1, h.2.accept hopen hack⟩
  | refusing k => exact absurd (hack.trans h.requested) h.outstanding
  | left => exact absurd h.closed hshut

theorem RequesterSound.accept {pc : RequesterPc} (h : RequesterSound m pc) (hn : m.requested < n) :
    RequesterSound { m with requested := n } pc := by
  cases pc with
  | idle last => trivial
  | loaded sequence current => exact ⟨h.1, h.2.trans hn.le⟩
  | matched sequence current =>
    refine ⟨h.1, h.2.1.trans hn.le, fun _ heq => ?_⟩
    exact absurd (show n = current from heq) (h.2.1.trans_lt hn).ne'

end Requests

/-! ### The owner's steps -/

section OwnerSteps

variable {m : Mailbox} {o : Owner}

theorem Mailbox.swaps_iff {current : ℕ} : m.swaps current = true ↔ m.closed = false ∧ m.requested = current := by
  simp [Mailbox.swaps]

/-- The first load of a call. -/
theorem Serving.call {job : Job} {pc : OwnerPc} (h : Serving m o) (hcall : o.call m job = some pc) :
    OwnerSound m o pc := by
  have hopen := h.admits
  cases job with
  | finish =>
    simp only [Owner.call] at hcall
    split at hcall
    case isTrue hp =>
      cases hcall
      exact ⟨h, hp, rfl⟩
    case isFalse => cases hcall
  | finishBeforeStart =>
    cases he : o.entered with
    | true => simp [Owner.call, he] at hcall
    | false =>
      simp only [Owner.call, he, hopen, Bool.false_eq_true, if_false, Option.some.injEq] at hcall
      subst hcall
      exact ⟨h, he⟩
  | releaseBeforeStart =>
    cases he : o.entered with
    | true => simp [Owner.call, he] at hcall
    | false =>
      simp only [Owner.call, he, hopen, Bool.false_eq_true, if_false, Option.some.injEq] at hcall
      subst hcall
      exact ⟨h, he, fun _ => rfl⟩
  | _ =>
    cases he : o.entered with
    | false => simp [Owner.call, he] at hcall
    | true =>
      simp only [Owner.call, he, hopen, Bool.true_eq_false, Bool.false_eq_true, if_false,
        Option.some.injEq] at hcall
      subst hcall
      exact ⟨h, he, fun _ => rfl⟩

/-- The second load of a call. -/
theorem OwnerSound.compare {job : Job} {current : ℕ} (h : OwnerSound m o (.haveRequest job current)) :
    OwnerSound m o (m.compare current job) := by
  obtain ⟨hserve, hjob, hcur⟩ := h
  by_cases hack : current = m.acknowledged
  · cases job with
    | finishBeforeStart => exact hjob.elim
    | finish => exact hjob.elim
    | releaseBeforeStart =>
      simp only [Mailbox.compare, if_pos hack]
      exact hserve
    | pending =>
      simp only [Mailbox.compare, if_pos hack]
      exact hserve
    | _ =>
      simp only [Mailbox.compare, if_pos hack]
      exact ⟨hserve, hjob, hack⟩
  · have hreq := hcur hack
    cases job with
    | finishBeforeStart => exact hjob.elim
    | finish => exact hjob.elim
    | releaseBeforeStart =>
      simp only [Mailbox.compare, if_neg hack]
      exact ⟨hserve, hjob, hreq, Ne.symm hack⟩
    | pending =>
      simp only [Mailbox.compare, if_neg hack]
      exact ⟨hserve, hjob, hreq, Ne.symm hack⟩
    | _ =>
      simp only [Mailbox.compare, if_neg hack]
      exact hserve

/-- With nothing outstanding, closing an open mailbox leaves nothing to settle. -/
theorem Serving.quiet (h : Serving m o) (hfits : Fits m o.sequence o.release)
    (hack : m.acknowledged = m.requested) : Quiet { m with closed := true } o :=
  ⟨rfl, hack, hfits.eq_requested h.admits hack, fun hp => (h.outstanding hp).2 hack⟩

/-- Before the device exists, closing leaves at most one request to settle. -/
theorem Serving.folding (h : Serving m o) (hfresh : o.entered = false) :
    Folding { m with closed := true } o m.requested :=
  ⟨rfl, rfl, (h.fresh hfresh).1, (h.fresh hfresh).2⟩

theorem Mailbox.closeAt_requested (hopen : m.closed = false) :
    m.closeAt m.requested = { m with closed := true } := by
  simp [Mailbox.closeAt, Mailbox.swaps, hopen]

theorem Mailbox.closeAt_of_ne {current : ℕ} (hopen : m.closed = false) (hne : m.requested ≠ current) :
    m.closeAt current = m := by
  cases m
  simp_all [Mailbox.closeAt, Mailbox.swaps]

/-- The compare-and-swap that sets the closed bit. -/
theorem OwnerSound.close {job : Job} {current : ℕ} (h : OwnerSound m o (.closing job current))
    (hfits : Fits m o.sequence o.release) : OwnerSound (m.closeAt current) o (m.close current job) := by
  obtain ⟨hserve, hjob⟩ := h
  by_cases hreq : m.requested = current
  · -- nothing has moved since the load, so the swap succeeds
    subst hreq
    have hswap : m.swaps m.requested = true := Mailbox.swaps_iff.mpr ⟨hserve.admits, rfl⟩
    rw [Mailbox.closeAt_requested hserve.admits]
    cases job with
    | releaseBeforeStart =>
      refine ⟨hserve.folding hjob.1, ?_⟩
      have hack := (hserve.fresh hjob.1).1
      have hne : m.requested ≠ 0 := fun h0 => hjob.2.2 (hack.trans h0.symm)
      exact (decide_eq_true hne).symm
    | finish => exact ⟨⟨rfl, hjob.2, hjob.1⟩, rfl⟩
    | finishBeforeStart =>
      simp only [Mailbox.close, if_pos hswap]
      exact hserve.folding hjob
    | ready =>
      simp only [Mailbox.close, if_pos hswap]
      exact hserve.quiet hfits hjob.2.symm
    | cleanup =>
      simp only [Mailbox.close, if_pos hswap]
      exact hserve.quiet hfits hjob.2.symm
    | pending => exact hjob.elim
  · -- a request came in between
    have hswap : ¬ m.swaps current = true := fun hs => hreq (Mailbox.swaps_iff.mp hs).2
    rw [Mailbox.closeAt_of_ne hserve.admits hreq]
    cases job with
    | releaseBeforeStart => exact absurd hjob.2.1 hreq
    | finish => exact absurd ((hserve.outstanding hjob.1).1.symm.trans hjob.2) hreq
    | finishBeforeStart =>
      simp only [Mailbox.close, if_neg hswap, hserve.admits, Bool.false_eq_true, if_false]
      exact ⟨hserve, hjob⟩
    | ready =>
      simp only [Mailbox.close, if_neg hswap]
      exact hserve
    | cleanup =>
      simp only [Mailbox.close, if_neg hswap]
      exact hserve
    | pending => exact hjob.elim

theorem Fits.closeAt {current sequence : ℕ} {release : Release} (h : Fits m sequence release) :
    Fits (m.closeAt current) sequence release := by
  refine ⟨h.le, h.told, fun hne hopen => h.lags hne ?_⟩
  exact (Bool.or_eq_false_iff.mp hopen).1

theorem RequesterSound.closeAt {current : ℕ} {pc : RequesterPc} (h : RequesterSound m pc) :
    RequesterSound (m.closeAt current) pc := by
  cases pc with
  | idle last => trivial
  | loaded sequence c => exact h
  | matched sequence c =>
    exact ⟨h.1, h.2.1, fun hopen => h.2.2 (Bool.or_eq_false_iff.mp hopen).1⟩

/-- Acknowledging the newest request. -/
theorem RequesterSound.acknowledge {pc : RequesterPc} {n : ℕ} (h : RequesterSound m pc)
    (hn : m.requested = n) : RequesterSound { m with acknowledged := n } pc := by
  cases pc with
  | idle last => trivial
  | loaded sequence c => exact h
  | matched sequence c => exact ⟨h.1, h.2.1, fun _ hreq => hn.symm.trans hreq⟩

theorem Fits.of_told {sequence : ℕ} {release : Release} (hseq : sequence = m.requested)
    (htold : m.requested = 0 ∨ release ≠ .none) : Fits m sequence release :=
  ⟨hseq.le, fun _ => htold, fun hne => absurd hseq hne⟩

theorem Owner.take_of_carries {f : Facts} (h : o.Carries f) : o.take f = o := by
  rw [Owner.take, h.1, h.2]

/-- The record handed to `publish` is as sound as the one before it. -/
structure Handed (m : Mailbox) (o : Owner) (k : Cont) : Prop where
  fits : Fits m o.sequence o.release
  marked : o.release ≠ .none → o.sequence ≠ 0
  cont : ContSound m o k

theorem OwnerSound.publishes {pc : OwnerPc} {f : Facts} {k : Cont} (h : OwnerSound m o pc)
    (hack : m.acknowledged ≤ m.requested) (hfits : Fits m o.sequence o.release)
    (hmark : o.release ≠ .none → o.sequence ≠ 0) (hp : o.publishes f pc = some k) :
    Handed m (o.take f) k := by
  cases pc with
  | idle =>
    simp only [Owner.publishes] at hp
    split at hp
    case isTrue hc =>
      cases hp
      rw [Owner.take_of_carries hc.2.1]
      exact ⟨hfits, hmark, h, hc.1⟩
    case isFalse => cases hp
  | persist current =>
    obtain ⟨hserve, hent, hreq, hdue⟩ := h
    simp only [Owner.publishes] at hp
    split at hp
    case isTrue hc =>
      cases hp
      obtain ⟨hseq, hrel, _, _⟩ := hc
      have htold : (o.take f).sequence = m.requested := hseq.trans hreq.symm
      have hpend : (o.take f).release = .pending := hrel
      have hlt : m.acknowledged ≠ m.requested := fun he => hdue (he.trans hreq)
      constructor
      · exact .of_told htold (.inr (by simp [hpend]))
      · intro _
        omega
      · refine ⟨⟨hserve.admits, ?_, fun _ => ⟨htold, hlt⟩, ?_, ?_⟩, hent⟩
        · intro he
          exact absurd (hent.symm.trans he) (by decide)
        · intro hr
          exact absurd (hpend.symm.trans hr) (by decide)
        · rw [hpend]
          decide
    case isFalse => cases hp
  | finishing =>
    obtain ⟨hfin, hset⟩ := h
    simp only [Owner.publishes] at hp
    split at hp
    case isTrue hc =>
      cases hp
      obtain ⟨hseq, hrel, _, _⟩ := hc
      have htold : (o.take f).sequence = m.requested := hseq.trans hfin.told
      have hdone : (o.take f).release = .released := hrel
      constructor
      · exact .of_told htold (.inr (by simp [hdone]))
      · intro _ h0
        exact hmark (by simp [hfin.pending]) (hseq.symm.trans h0)
      · exact ⟨hfin.closed, hset, htold, by simp [hdone]⟩
    case isFalse => cases hp
  | readying =>
    simp only [Owner.publishes] at hp
    split at hp
    case isTrue hc =>
      cases hp
      rw [Owner.take_of_carries hc.1]
      exact ⟨hfits, hmark, h⟩
    case isFalse => cases hp
  | cleaning =>
    simp only [Owner.publishes] at hp
    split at hp
    case isTrue hc =>
      cases hp
      rw [Owner.take_of_carries hc.1]
      refine ⟨hfits, hmark, ?_⟩
      split
      · exact h
      · exact h
    case isFalse => cases hp
  | _ => cases hp

/-- A refusal is handed to `publish`. -/
theorem Serving.refuse {f : Facts} (h : Serving m o) (hmark : o.release ≠ .none → o.sequence ≠ 0)
    (hpend : o.release = .pending) (hseq : f.releaseSequence = o.sequence) (hrel : f.release = .refused) :
    Handed m (o.take f) (.acknowledge o.sequence) := by
  obtain ⟨hreq, hdue⟩ := h.outstanding hpend
  have htold : (o.take f).sequence = m.requested := hseq.trans hreq
  have href : (o.take f).release = .refused := hrel
  have hent : o.entered = true := by
    by_contra hne
    have hnone := (h.fresh (Bool.eq_false_iff.mpr hne)).2.2
    exact absurd (hpend.symm.trans hnone) (by decide)
  constructor
  · exact .of_told htold (.inr (by simp [href]))
  · intro _ h0
    exact hmark (by simp [hpend]) (hseq.symm.trans h0)
  · exact ⟨h.admits, hent, hreq.symm, hseq, href, fun he => hdue (he.trans hreq)⟩

/-- The release of a device that never existed is handed to `publish`. -/
theorem Folding.release {current : ℕ} {accepted : Bool} (h : Folding m o current)
    (hacc : accepted = decide (current ≠ 0)) :
    Handed { m with acknowledged := current } (o.take (releasedBeforeStart accepted current)) .leave := by
  have hreq := h.requested
  by_cases h0 : current = 0
  · have hrec : releasedBeforeStart accepted current = { phase := .released } := by
      simp [releasedBeforeStart, hacc, h0]
    rw [hrec]
    have hnone : m.requested = 0 := hreq.trans h0
    constructor
    · exact .of_told hnone.symm (.inl hnone)
    · intro hne
      exact absurd rfl hne
    · exact ⟨h.closed, hreq.symm, hnone.symm, nofun⟩
  · have hrec : releasedBeforeStart accepted current =
        { phase := .released, releaseSequence := current, release := .released } := by
      simp [releasedBeforeStart, hacc, h0]
    rw [hrec]
    constructor
    · exact .of_told hreq.symm (.inr nofun)
    · intro _
      exact h0
    · exact ⟨h.closed, hreq.symm, hreq.symm, nofun⟩

end OwnerSteps

/-! ### Every step keeps the invariant -/

section Steps

variable {s s' : State ι}

/-- A step that only moves the owner. -/
theorem Sound.goto (h : Sound s) {pc : OwnerPc} (hpc : OwnerSound s.mail s.owner pc) :
    Sound { s with pc := pc } :=
  ⟨h.ackLe, h.fits, h.marked, hpc, h.requesters⟩

theorem Sound.hand (h : Sound s) {f : Facts} {k : Cont} (hf : Handed s.mail (s.owner.take f) k) :
    Sound (s.hand f k) :=
  ⟨h.ackLe, hf.fits, hf.marked, ⟨⟨rfl, rfl⟩, hf.cont⟩, h.requesters⟩

/-- What the continuation promises is what the owner relies on there. -/
theorem ContSound.pc {m : Mailbox} {o : Owner} {k : Cont} (h : ContSound m o k) : OwnerSound m o k.pc := by
  cases k with
  | idle => exact h.1
  | acknowledge n => exact h
  | cleaning => exact h
  | leave => exact h

/-- The refusal is acknowledged. -/
theorem Refusing.acknowledge {m : Mailbox} {o : Owner} {n : ℕ} (h : Refusing m o n) :
    Serving { m with acknowledged := n } o where
  admits := h.admits
  fresh := fun he => absurd (h.entered.symm.trans he) (by decide)
  outstanding := fun hp => absurd (h.refused.symm.trans hp) (by decide)
  refused := fun _ => h.told
  notReleased := by simp [h.refused]

theorem Sound.ownerNext (h : Sound s) (hstep : s.ownerNext = some s') : Sound s' := by
  have hown := h.owner
  unfold State.ownerNext at hstep
  cases hpc : s.pc with
  | haveRequest job current =>
    rw [hpc] at hstep hown
    cases hstep
    exact h.goto hown.compare
  | closing job current =>
    rw [hpc] at hstep hown
    cases hstep
    exact ⟨h.ackLe, h.fits.closeAt, h.marked, hown.close h.fits, fun i => (h.requesters i).closeAt⟩
  | closedUp current =>
    rw [hpc] at hstep hown
    cases hstep
    refine h.goto ⟨hown, ?_⟩
    rw [hown.unacknowledged]
  | acking job current accepted =>
    rw [hpc] at hstep hown
    cases job with
    | finish =>
      obtain ⟨hfin, hreq⟩ := hown
      cases hstep
      refine ⟨hreq.ge, ?_, h.marked, ⟨⟨hfin.closed, hfin.told, hfin.pending⟩, hreq.symm⟩,
        fun i => (h.requesters i).acknowledge hreq⟩
      exact .of_told hfin.told (.inr (by simp [hfin.pending]))
    | releaseBeforeStart =>
      obtain ⟨hfold, hacc⟩ := hown
      cases hstep
      have hf := hfold.release hacc
      exact ⟨hfold.requested.ge, hf.fits, hf.marked, ⟨⟨rfl, rfl⟩, hf.cont⟩,
        fun i => (h.requesters i).acknowledge hfold.requested⟩
    | finishBeforeStart =>
      obtain ⟨hfold, hacc⟩ := hown
      cases hstep
      have hf := hfold.release hacc
      exact ⟨hfold.requested.ge, hf.fits, hf.marked, ⟨⟨rfl, rfl⟩, hf.cont⟩,
        fun i => (h.requesters i).acknowledge hfold.requested⟩
    | _ => exact hown.elim
  | begin f k =>
    rw [hpc] at hstep hown
    cases hstep
    exact ⟨h.ackLe, h.fits, h.marked, hown, h.requesters⟩
  | storing f todo k =>
    rw [hpc] at hstep hown
    cases todo with
    | nil =>
      cases hstep
      exact ⟨h.ackLe, h.fits, h.marked, hown.2.pc, h.requesters⟩
    | cons i todo =>
      cases hstep
      exact ⟨h.ackLe, h.fits, h.marked, hown, h.requesters⟩
  | refusing n =>
    rw [hpc] at hstep hown
    cases hstep
    have hreq := hown.requested
    refine ⟨hreq.ge, ?_, h.marked, hown.acknowledge, fun i => (h.requesters i).acknowledge hreq⟩
    exact .of_told (hown.told.trans hreq.symm) (.inr (by simp [hown.refused]))
  | idle => rw [hpc] at hstep; cases hstep
  | persist current => rw [hpc] at hstep; cases hstep
  | finishing => rw [hpc] at hstep; cases hstep
  | readying => rw [hpc] at hstep; cases hstep
  | cleaning => rw [hpc] at hstep; cases hstep
  | left => rw [hpc] at hstep; cases hstep

theorem Sound.ownerStep (h : Sound s) {a : OwnerAct} (hstep : s.ownerStep a = some s') : Sound s' := by
  have hown := h.owner
  cases a with
  | enter =>
    simp only [State.ownerStep] at hstep
    split at hstep
    case isTrue hc =>
      cases hstep
      rw [hc.1] at hown
      refine ⟨h.ackLe, h.fits, h.marked, ?_, h.requesters⟩
      show OwnerSound s.mail { s.owner with entered := true } s.pc
      rw [hc.1]
      exact ⟨hown.admits, nofun, hown.outstanding, hown.refused, hown.notReleased⟩
    case isFalse => cases hstep
  | call job =>
    simp only [State.ownerStep] at hstep
    split at hstep
    case isTrue hc =>
      rw [hc] at hown
      obtain ⟨pc, hcall, rfl⟩ := Option.map_eq_some_iff.mp hstep
      exact h.goto (hown.call hcall)
    case isFalse => cases hstep
  | publish f =>
    obtain ⟨k, hk, rfl⟩ := Option.map_eq_some_iff.mp hstep
    exact h.hand (hown.publishes h.ackLe h.fits h.marked hk)
  | skip =>
    simp only [State.ownerStep] at hstep
    split at hstep
    case isTrue hc =>
      cases hstep
      rw [hc.1] at hown
      exact h.goto hown.1
    case isFalse => cases hstep
  | refuse f =>
    simp only [State.ownerStep] at hstep
    split at hstep
    case isTrue hc =>
      cases hstep
      obtain ⟨hidle, hpend, hseq, hrel, _⟩ := hc
      rw [hidle] at hown
      exact h.hand (hown.refuse h.marked hpend hseq hrel)
    case isFalse => cases hstep
  | next => exact h.ownerNext hstep

/-- A step that only moves one caller. -/
theorem Sound.move [DecidableEq ι] (h : Sound s) {i : ι} {pc : RequesterPc} (hpc : RequesterSound s.mail pc) :
    Sound { s with requester := Function.update s.requester i pc } := by
  refine ⟨h.ackLe, h.fits, h.marked, h.owner, fun j => ?_⟩
  by_cases hj : j = i
  · subst hj
    simpa only [Function.update_self] using hpc
  · simpa only [Function.update_of_ne hj] using h.requesters j

theorem requesterSound_request {m : Mailbox} {generation g sequence : ℕ} :
    RequesterSound m (m.request generation g sequence) := by
  unfold Mailbox.request
  split_ifs with h1 h2 h3
  · trivial
  · trivial
  · trivial
  · exact ⟨Nat.lt_of_not_le h3, le_rfl⟩

theorem Sound.requesterNext [DecidableEq ι] (h : Sound s) {i : ι} (hstep : s.requesterNext i = some s') :
    Sound s' := by
  have hreq := h.requesters i
  unfold State.requesterNext at hstep
  cases hpc : s.requester i with
  | idle last => rw [hpc] at hstep; cases hstep
  | loaded sequence current =>
    rw [hpc] at hstep hreq
    cases hstep
    refine h.move ?_
    split
    case isTrue => trivial
    case isFalse hack => exact ⟨hreq.1, hreq.2, fun _ _ => (not_not.mp hack).symm⟩
  | matched sequence current =>
    rw [hpc] at hstep hreq
    dsimp only at hstep
    split at hstep
    case isTrue hswap =>
      cases hstep
      obtain ⟨hopen, rfl⟩ := Mailbox.swaps_iff.mp hswap
      obtain ⟨hlt, _, hack⟩ := hreq
      have hnone := hack hopen rfl
      refine ⟨h.ackLe.trans hlt.le, h.fits.accept hopen hnone hlt, h.marked,
        h.owner.accept hopen hnone, fun j => ?_⟩
      by_cases hj : j = i
      · subst hj
        simp only [Function.update_self]
        trivial
      · simp only [Function.update_of_ne hj]
        exact (h.requesters j).accept hlt
    case isFalse =>
      cases hstep
      exact h.move trivial

/-- What the observer holds is nothing to the others. -/
theorem Sound.frame (h : Sound s) (pc : ObserverPc) (reports : List Report) :
    Sound { s with observer := pc, reports := reports } :=
  ⟨h.ackLe, h.fits, h.marked, h.owner, h.requesters⟩

theorem Sound.observe {generation : ℕ} (h : Sound s) : Sound (s.observe generation) := by
  unfold State.observe
  split
  · split
    · exact h
    · exact h.frame _ _
  · exact h.frame _ _
  · exact h.frame _ _
  · exact h.frame _ _
  · split
    · exact h.frame _ _
    · exact h.frame _ _

theorem Sound.step [DecidableEq ι] {generation : ℕ} {a : Act ι} (h : Sound s) (hstep : Step generation s a s') :
    Sound s' := by
  cases a with
  | owner a => exact h.ownerStep hstep
  | request i g sequence =>
    simp only [Step, Startup.step] at hstep
    split at hstep
    · cases hstep
      exact h.move requesterSound_request
    · cases hstep
  | requester i => exact h.requesterNext hstep
  | observe =>
    cases hstep
    exact h.observe

end Steps

end OverlayBD.Ublk.Startup
