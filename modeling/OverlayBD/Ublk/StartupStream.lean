import OverlayBD.Ublk.StartupSettled

/-!
# The status stream

The parent accepts an owner's status lines only if they form a coherent stream (`Child::observe_startup`):
revisions and release numbers do not fall, one revision has one set of facts, and a release once reported does
not vanish before its outcome.  `snapshot` makes every effort at that: it projects an accepted request that the
record does not tell of yet, and a refusal is published before it is acknowledged.

## The gap

Before the device exists, `release_before_start` and `finish_before_start` close the mailbox and acknowledge
the request *before* they publish that it was released.  In between the request is not projected any more and
not yet in the record, and a snapshot falls back behind the one before it (`stream_falls_back`).  Every other
path publishes first.

* `State.Gap` — the mailbox is closed and the record at rest does not tell of the last request.
* `Clear` — the observer does not look at the mailbox in the gap.
* `reports_coherent` — with that, what the observer is given is a coherent stream.

The proof reads a snapshot as one look at the whole state, at the moment of its load of `requested_`: `viewOf`
is what is to be seen there, and `Promise` keeps it until the snapshot is returned.
-/

namespace OverlayBD.Ublk.Startup

open Seqlock Transition

variable {ι : Type}

/-! ### Coherent streams -/

/-- A later report against an earlier snapshot: the revision and the release number do not fall, one revision
has one set of facts, and a release that was pending is still reported unless its outcome was published. -/
structure Coherent (earlier : Snapshot) (later : Report) : Prop where
  version : earlier.version ≤ later.snapshot.version
  sequence : earlier.facts.releaseSequence ≤ later.snapshot.facts.releaseSequence
  facts : earlier.version = later.snapshot.version → earlier.facts = later.snapshot.facts
  pending : earlier.facts.release = .pending →
    (later.snapshot.facts.releaseSequence = earlier.facts.releaseSequence ∧
      later.snapshot.facts.release ≠ .none) ∨
    Settled later.published earlier.facts.releaseSequence

/-- The mailbox is closed and the record, at rest, does not tell of the last request. -/
def State.Gap (s : State ι) : Prop :=
  s.mail.closed = true ∧ s.cell.version % 2 = 0 ∧ s.shown.releaseSequence ≠ s.mail.requested

instance (s : State ι) : Decidable s.Gap := inferInstanceAs (Decidable (_ ∧ _ ∧ _))

/-- The observer is about to load `requested_` or `acknowledged_`. -/
def ObserverPc.looks : ObserverPc → Bool
  | .loading _ _ [] => true
  | .haveRequest _ _ _ _ => true
  | _ => false

/-- The observer does not look at the mailbox in the gap. -/
def Clear (s : State ι) : Act ι → Prop
  | .observe => s.observer.looks = true → ¬ s.Gap
  | _ => True

instance (s : State ι) (a : Act ι) : Decidable (Clear s a) := by
  cases a with
  | observe => exact inferInstanceAs (Decidable (_ → _))
  | _ => exact inferInstanceAs (Decidable True)

/-! ### The record in the cell -/

/-- A record's release state fits the mailbox, and a release has a number. -/
def Tells (m : Mailbox) (f : Facts) : Prop :=
  Fits m f.releaseSequence f.release ∧ (f.release ≠ .none → f.releaseSequence ≠ 0)

/-- What is in the cell, by where the owner is. -/
def CellSound (s : State ι) : OwnerPc → Prop
  | .begin _ _ => Even s.cell.version ∧ Tells s.mail s.shown
  | .storing f todo _ => Odd s.cell.version ∧ Stored s.cell f.words todo
  | _ => Even s.cell.version ∧ s.owner.Carries s.shown

/-- Under an even version the record fits the mailbox. -/
theorem CellSound.tells {s : State ι} (h : CellSound s s.pc) (hs : Sound s) (heven : Even s.cell.version) :
    Tells s.mail s.shown := by
  have hcar : s.owner.Carries s.shown → Tells s.mail s.shown := by
    rintro ⟨hseq, hrel⟩
    rw [Tells, hseq, hrel]
    exact ⟨hs.fits, hs.marked⟩
  cases hpc : s.pc with
  | begin f k =>
    rw [hpc] at h
    exact h.2
  | storing f todo k =>
    rw [hpc] at h
    exact absurd heven (Nat.not_even_iff_odd.mpr h.1)
  | _ =>
    rw [hpc] at h
    exact hcar h.2

theorem Tells.accept {m : Mailbox} {f : Facts} {n : ℕ} (h : Tells m f) (hopen : m.closed = false)
    (hack : m.acknowledged = m.requested) (hn : m.requested < n) : Tells { m with requested := n } f :=
  ⟨h.1.accept hopen hack hn, h.2⟩

/-! ### What a step does to the shared words -/

/-- The ways in which a step of the owner or of a caller shows to the observer. -/
inductive Shared (s s' : State ι) : Prop
  | same (hcell : s'.cell = s.cell) (hreq : s'.mail.requested = s.mail.requested)
      (hacc : s'.accepted = s.accepted) (hpub : s'.published = s.published)
  | accept (hcell : s'.cell = s.cell) (hopen : s.mail.closed = false)
      (hack : s.mail.acknowledged = s.mail.requested) (hlt : s.mail.requested < s'.mail.requested)
      (hacc : s'.accepted = s'.mail.requested :: s.accepted) (hpub : s'.published = s.published)
  | bump (hcell : s'.cell = s.cell.bump) (hreq : s'.mail.requested = s.mail.requested)
      (hacc : s'.accepted = s.accepted)
  | store (i : Field) (w : ℕ) (hodd : Odd s.cell.version) (hcell : s'.cell = s.cell.store i w)
      (hreq : s'.mail.requested = s.mail.requested) (hacc : s'.accepted = s.accepted)

theorem OwnerPc.Plain.inHand {pc : OwnerPc} (h : pc.Plain) : pc.inHand = none := by
  cases pc <;> first | exact h.elim | rfl

/-- Between publications the cell holds the owner's last record. -/
theorem cellSound_iff {s : State ι} {pc : OwnerPc} (h : pc.inHand = none) :
    CellSound s pc ↔ Even s.cell.version ∧ s.owner.Carries s.shown := by
  cases pc <;> first | exact Iff.rfl | cases h

/-- What the observer can tell of a step that is not its own. -/
structure Unseen (s s' : State ι) : Prop where
  cell : CellSound s' s'.pc
  shared : Shared s s'
  observer : s'.observer = s.observer
  reports : s'.reports = s.reports

section Unseen

variable {s s' : State ι}

/-- The owner moves between two publications. -/
theorem Unseen.goto (hc : CellSound s s.pc) (hrest : s.pc.inHand = none) {m : Mailbox} {pc : OwnerPc}
    (hpc : pc.inHand = none) (hreq : m.requested = s.mail.requested) :
    Unseen s { s with mail := m, pc := pc } := by
  have hat := (cellSound_iff hrest).mp hc
  exact ⟨(cellSound_iff hpc).mpr hat, .same rfl hreq rfl rfl, rfl, rfl⟩

/-- The owner hands a record to `publish`. -/
theorem Unseen.hand (hc : CellSound s s.pc) (hrest : s.pc.inHand = none) {m : Mailbox} {f : Facts} {k : Cont}
    (htells : Tells m s.shown) (hreq : m.requested = s.mail.requested) :
    Unseen s ({ s with mail := m }.hand f k) :=
  ⟨⟨((cellSound_iff hrest).mp hc).1, htells⟩, .same rfl hreq rfl rfl, rfl, rfl⟩

/-- The words of a stored record read back its release state. -/
theorem carries_ofWords {o : Owner} {f : Facts} (h : o.Carries f) : o.Carries (.ofWords f.words) := by
  rw [Owner.Carries, releaseSequence_ofWords_words, release_ofWords_words]
  exact h

theorem publishes_inHand {o : Owner} {f : Facts} {pc : OwnerPc} {k : Cont} (h : o.publishes f pc = some k) :
    pc.inHand = none := by
  cases pc <;> first | rfl | cases h

theorem unseen_of_ownerNext (hs : Sound s) (hc : CellSound s s.pc) (hstep : s.ownerNext = some s') :
    Unseen s s' := by
  have hown := hs.owner
  have hcell := hc
  unfold State.ownerNext at hstep
  cases hpc : s.pc with
  | haveRequest job current =>
    rw [hpc] at hstep
    cases hstep
    exact .goto hc (by rw [hpc]; rfl) Mailbox.plain_compare.inHand rfl
  | closing job current =>
    rw [hpc] at hstep
    cases hstep
    exact .goto hc (by rw [hpc]; rfl) Mailbox.plain_close.inHand rfl
  | closedUp current =>
    rw [hpc] at hstep
    cases hstep
    exact .goto hc (by rw [hpc]; rfl) rfl rfl
  | acking job current accepted =>
    have hrest : s.pc.inHand = none := by rw [hpc]; rfl
    rw [hpc] at hstep hown
    cases hstep
    split
    case isTrue => exact .goto hc hrest rfl rfl
    case isFalse hne =>
      -- the mailbox is closed, so the record may lag behind it
      have hclosed : s.mail.closed = true := by
        cases job with
        | releaseBeforeStart => exact hown.1.closed
        | finishBeforeStart => exact hown.1.closed
        | finish => exact absurd rfl hne
        | _ => exact hown.elim
      obtain ⟨hfits, hmark⟩ := hc.tells hs ((cellSound_iff hrest).mp hc).1
      refine .hand hc hrest ⟨⟨hfits.le, hfits.told, fun _ hopen => ?_⟩, hmark⟩ rfl
      exact absurd hopen (by simp [hclosed])
  | begin f k =>
    rw [hpc] at hstep hcell
    cases hstep
    exact ⟨⟨hcell.1.add_one, .start Field.mem_all⟩, .bump rfl rfl rfl, rfl, rfl⟩
  | storing f todo k =>
    rw [hpc] at hstep hown hcell
    obtain ⟨hodd, hstored⟩ := hcell
    cases todo with
    | nil =>
      cases hstep
      refine ⟨(cellSound_iff (by cases k <;> rfl)).mpr ⟨hodd.add_one, ?_⟩, .bump rfl rfl rfl, rfl, rfl⟩
      show s.owner.Carries (.ofWords s.cell.words)
      rw [hstored.complete]
      exact carries_ofWords hown.1
    | cons i todo =>
      cases hstep
      exact ⟨⟨hodd, hstored.store⟩, .store i _ hodd rfl rfl rfl, rfl, rfl⟩
  | refusing n =>
    rw [hpc] at hstep
    cases hstep
    exact .goto hc (by rw [hpc]; rfl) rfl rfl
  | idle => rw [hpc] at hstep; cases hstep
  | persist current => rw [hpc] at hstep; cases hstep
  | finishing => rw [hpc] at hstep; cases hstep
  | readying => rw [hpc] at hstep; cases hstep
  | cleaning => rw [hpc] at hstep; cases hstep
  | left => rw [hpc] at hstep; cases hstep

theorem unseen_of_ownerStep (hs : Sound s) (hc : CellSound s s.pc) {a : OwnerAct}
    (hstep : s.ownerStep a = some s') : Unseen s s' := by
  cases a with
  | enter =>
    simp only [State.ownerStep] at hstep
    split at hstep
    case isTrue hidle =>
      cases hstep
      have hrest : s.pc.inHand = none := by rw [hidle.1]; rfl
      exact ⟨(cellSound_iff hrest).mpr ((cellSound_iff hrest).mp hc), .same rfl rfl rfl rfl, rfl, rfl⟩
    case isFalse => cases hstep
  | call job =>
    simp only [State.ownerStep] at hstep
    split at hstep
    case isTrue hidle =>
      obtain ⟨pc, hcall, rfl⟩ := Option.map_eq_some_iff.mp hstep
      exact .goto hc (by rw [hidle]; rfl) (Owner.plain_call hcall).inHand rfl
    case isFalse => cases hstep
  | publish f =>
    obtain ⟨k, hk, rfl⟩ := Option.map_eq_some_iff.mp hstep
    have hrest := publishes_inHand hk
    exact .hand hc hrest (hc.tells hs ((cellSound_iff hrest).mp hc).1) rfl
  | skip =>
    simp only [State.ownerStep] at hstep
    split at hstep
    case isTrue hidle =>
      cases hstep
      exact .goto hc (by rw [hidle.1]; rfl) rfl rfl
    case isFalse => cases hstep
  | refuse f =>
    simp only [State.ownerStep] at hstep
    split at hstep
    case isTrue hidle =>
      cases hstep
      have hrest : s.pc.inHand = none := by rw [hidle.1]; rfl
      exact .hand hc hrest (hc.tells hs ((cellSound_iff hrest).mp hc).1) rfl
    case isFalse => cases hstep
  | next => exact unseen_of_ownerNext hs hc hstep

/-- A caller moves, and the mailbox stays as it is. -/
theorem Unseen.move (hc : CellSound s s.pc) {r : ι → RequesterPc} : Unseen s { s with requester := r } := by
  refine ⟨?_, .same rfl rfl rfl rfl, rfl, rfl⟩
  cases hpc : s.pc <;> rw [hpc] at hc <;> exact hc

theorem unseen_of_requesterNext [DecidableEq ι] (hs : Sound s) (hc : CellSound s s.pc) {i : ι}
    (hstep : s.requesterNext i = some s') : Unseen s s' := by
  have hreq := hs.requesters i
  unfold State.requesterNext at hstep
  cases hpc : s.requester i with
  | idle last => rw [hpc] at hstep; cases hstep
  | loaded sequence current =>
    rw [hpc] at hstep
    cases hstep
    exact .move hc
  | matched sequence current =>
    rw [hpc] at hstep hreq
    dsimp only at hstep
    split at hstep
    case isTrue hswap =>
      cases hstep
      obtain ⟨hopen, rfl⟩ := Mailbox.swaps_iff.mp hswap
      have hack := hreq.2.2 hopen rfl
      refine ⟨?_, .accept rfl hopen hack hreq.1 rfl rfl, rfl, rfl⟩
      cases hown : s.pc with
      | begin f k =>
        rw [hown] at hc
        exact ⟨hc.1, hc.2.accept hopen hack hreq.1⟩
      | _ =>
        rw [hown] at hc
        exact hc
    case isFalse =>
      cases hstep
      exact .move hc

end Unseen

/-! ### One look at the state -/

/-- What a snapshot shows that sees all of the state at once: the record, or one revision above it the request
it does not tell of. -/
def viewOf (generation version : ℕ) (f : Facts) (closed : Bool) (request : ℕ) : Snapshot :=
  if closed = false ∧ request ≠ f.releaseSequence then
    { generation, version := version + 1, facts := f.project request }
  else
    { generation, version, facts := f }

/-- An earlier snapshot against the state: it is not ahead but for a projected request, and what it shows of the
present revision is right. -/
structure Agrees (generation : ℕ) (c : Cell Field ℕ) (requested : ℕ) (accepted : List ℕ) (e : Snapshot) :
    Prop where
  le : e.version ≤ c.version + 1
  odd : Odd c.version → e.version ≤ c.version
  plain : Even c.version → e.version = c.version → e = ⟨generation, c.version, .ofWords c.words⟩
  projected : Even c.version → e.version = c.version + 1 →
    e = ⟨generation, c.version + 1, (Facts.ofWords c.words).project requested⟩ ∧
      requested ≠ (Facts.ofWords c.words).releaseSequence
  sequence : e.facts.releaseSequence ≤ requested
  pending : e.facts.release = .pending → e.facts.releaseSequence ∈ accepted

section Look

variable {generation : ℕ} {s s' : State ι} {e : Snapshot}

/-- The snapshot agrees with the state. -/
abbrev State.Agrees (generation : ℕ) (s : State ι) (e : Snapshot) : Prop :=
  Startup.Agrees generation s.cell s.mail.requested s.accepted e

/-- The steps of the others leave an earlier snapshot in agreement. -/
theorem Agrees.step (h : s.Agrees generation e) (hs : Sound s) (hc : CellSound s s.pc) (hstep : Shared s s') :
    s'.Agrees generation e := by
  cases hstep with
  | same hcell hreq hacc hpub =>
    unfold State.Agrees
    rw [hcell, hreq, hacc]
    exact h
  | accept hcell hopen hack hlt hacc hpub =>
    unfold State.Agrees
    rw [hcell, hacc]
    refine ⟨h.le, h.odd, h.plain, fun heven hv => ?_, h.sequence.trans hlt.le, fun hp => ?_⟩
    · -- a projected request is outstanding, and then none is accepted
      have hfits := (hc.tells hs heven).1
      exact absurd (hfits.eq_requested hopen hack).symm (h.projected heven hv).2
    · exact List.mem_cons_of_mem _ (h.pending hp)
  | bump hcell hreq hacc =>
    unfold State.Agrees
    rw [hcell, hreq, hacc]
    have hv : s.cell.bump.version = s.cell.version + 1 := rfl
    refine ⟨h.le.trans (Nat.le_succ _), fun _ => h.le, fun heven heq => ?_, fun heven heq => ?_,
      h.sequence, h.pending⟩
    · have hodd : Odd s.cell.version := by
        rw [hv, Nat.even_add_one, Nat.not_even_iff_odd] at heven
        exact heven
      have := h.odd hodd
      omega
    · have := h.le
      omega
  | store i w hodd hcell hreq hacc =>
    unfold State.Agrees
    rw [hcell, hreq, hacc]
    have hnot : ¬ Even (s.cell.store i w).version := Nat.not_even_iff_odd.mpr hodd
    exact ⟨h.le, h.odd, fun heven => absurd heven hnot, fun heven => absurd heven hnot, h.sequence, h.pending⟩

/-- What is to be seen outside the gap. -/
theorem viewOf_cases (hgap : ¬ s.Gap) (heven : Even s.cell.version) :
    (s.mail.requested = s.shown.releaseSequence ∧
      viewOf generation s.cell.version s.shown s.mail.closed s.mail.requested =
        ⟨generation, s.cell.version, s.shown⟩) ∨
    (s.mail.closed = false ∧ s.mail.requested ≠ s.shown.releaseSequence ∧
      viewOf generation s.cell.version s.shown s.mail.closed s.mail.requested =
        ⟨generation, s.cell.version + 1, s.shown.project s.mail.requested⟩) := by
  by_cases hreq : s.mail.requested = s.shown.releaseSequence
  · refine .inl ⟨hreq, ?_⟩
    rw [viewOf, if_neg fun h => h.2 hreq]
  · have hopen : s.mail.closed = false := by
      by_contra hclosed
      exact hgap ⟨by simpa using hclosed, Nat.even_iff.mp heven, Ne.symm hreq⟩
    refine .inr ⟨hopen, hreq, ?_⟩
    rw [viewOf, if_pos ⟨hopen, hreq⟩]

/-- The newest request was accepted. -/
theorem Settling.requested_mem (h : Settling s) (h0 : s.mail.requested ≠ 0) : s.mail.requested ∈ s.accepted := by
  rcases h.newest with ⟨_, hzero⟩ | ⟨rest, hrest⟩
  · exact absurd hzero h0
  · rw [hrest]
    exact List.mem_cons_self

/-- What is to be seen agrees with the state. -/
theorem agrees_view (hi : Inv s) (hc : CellSound s s.pc) (hgap : ¬ s.Gap) (heven : Even s.cell.version) :
    s.Agrees generation (viewOf generation s.cell.version s.shown s.mail.closed s.mail.requested) := by
  obtain ⟨hfits, hmark⟩ := hc.tells hi.sound heven
  have hnotodd : ¬ Odd s.cell.version := Nat.not_odd_iff_even.mpr heven
  rcases viewOf_cases hgap heven with ⟨hreq, hview⟩ | ⟨_, hreq, hview⟩
  · rw [hview]
    refine ⟨Nat.le_succ _, fun hodd => absurd hodd hnotodd, fun _ _ => rfl, fun _ hv => ?_, hreq.ge, fun hp => ?_⟩
    · exact absurd hv (Nat.lt_succ_self _).ne
    · have hp : s.shown.release = .pending := hp
      have h0 : s.mail.requested ≠ 0 := by
        rw [hreq]
        exact hmark (by simp [hp])
      show s.shown.releaseSequence ∈ s.accepted
      rw [← hreq]
      exact hi.books.requested_mem h0
  · rw [hview]
    refine ⟨le_rfl, fun hodd => absurd hodd hnotodd, fun _ hv => ?_, fun _ _ => ⟨rfl, hreq⟩, le_rfl, fun _ => ?_⟩
    · exact absurd hv (Nat.lt_succ_self _).ne'
    · have hle := hfits.le
      exact hi.books.requested_mem (by omega)

/-- **One look after another**: what is to be seen is coherent with every earlier snapshot. -/
theorem coherent_view (hi : Inv s) (hc : CellSound s s.pc) (hgap : ¬ s.Gap) (heven : Even s.cell.version)
    (h : s.Agrees generation e) :
    Coherent e ⟨viewOf generation s.cell.version s.shown s.mail.closed s.mail.requested, s.published⟩ := by
  obtain ⟨hfits, hmark⟩ := hc.tells hi.sound heven
  have hpend : e.facts.release = .pending → e.facts.releaseSequence = s.mail.requested ∨
      Settled s.published e.facts.releaseSequence := by
    intro hp
    rcases h.sequence.lt_or_eq with hlt | heq
    · exact .inr (hi.books.earlier _ (h.pending hp) hlt)
    · exact .inl heq
  rcases viewOf_cases hgap heven with ⟨hreq, hview⟩ | ⟨_, hreq, hview⟩
  · rw [hview]
    have hnext : e.version ≠ s.cell.version + 1 := fun hv => (h.projected heven hv).2 hreq
    have hle := h.le
    refine ⟨show e.version ≤ s.cell.version by omega, h.sequence.trans hreq.le, fun hv => ?_, fun hp => ?_⟩
    · rw [h.plain heven hv]
      rfl
    · refine (hpend hp).imp (fun heq => ?_) id
      have h0 : s.mail.requested ≠ 0 := fun h0 => hi.books.positive (by rw [← h0, ← heq]; exact h.pending hp)
      exact ⟨hreq.symm.trans heq.symm, (hfits.told hreq.symm).resolve_left h0⟩
  · rw [hview]
    refine ⟨h.le, h.sequence, fun hv => ?_, fun hp => ?_⟩
    · rw [(h.projected heven hv).1]
      rfl
    · refine (hpend hp).imp (fun heq => ⟨heq.symm, nofun⟩) id

/-- Outside the gap the code's projection is the view, although its two loads of the mailbox are apart: as long
as the record is the same, what was acknowledged is what the record tells of. -/
theorem snapshotOf_eq_viewOf (hs : Sound s) (hc : CellSound s s.pc) (hgap : ¬ s.Gap) (heven : Even s.cell.version)
    {closed : Bool} {request : ℕ} (hle : s.shown.releaseSequence ≤ request) (hreq : request ≤ s.mail.requested)
    (htold : request = s.shown.releaseSequence → request = 0 ∨ s.shown.release ≠ .none) :
    snapshotOf generation s.cell.version s.shown closed request s.mail.acknowledged =
      viewOf generation s.cell.version s.shown closed request := by
  obtain ⟨hfits, _⟩ := hc.tells hs heven
  have hack : s.mail.requested ≠ s.shown.releaseSequence → s.mail.acknowledged = s.shown.releaseSequence := by
    intro hne
    refine hfits.lags (Ne.symm hne) ?_
    by_contra hclosed
    exact hgap ⟨by simpa using hclosed, Nat.even_iff.mp heven, Ne.symm hne⟩
  have hiff : (closed = false ∧ request ≠ s.mail.acknowledged ∧ s.shown.persisted request = false) ↔
      (closed = false ∧ request ≠ s.shown.releaseSequence) := by
    refine and_congr_right fun _ => ?_
    by_cases hsame : request = s.shown.releaseSequence
    · refine iff_of_false ?_ (not_not.mpr hsame)
      rintro ⟨hne, hpers⟩
      rcases htold hsame with h0 | hrel
      · -- nothing was ever asked for or acknowledged
        have hackLe := hs.ackLe
        by_cases hnow : s.mail.requested = s.shown.releaseSequence
        · omega
        · exact hne (hsame.trans (hack hnow).symm)
      · have hrec : s.shown.persisted request = true := by
          cases hr : s.shown.release with
          | none => exact absurd hr hrel
          | _ => simp [Facts.persisted, hsame, hr]
        rw [hrec] at hpers
        cases hpers
    · refine iff_of_true ⟨?_, ?_⟩ hsame
      · rw [hack (by omega)]
        exact hsame
      · simp [Facts.persisted, Ne.symm hsame]
  simp only [snapshotOf, viewOf, hiff]

end Look

/-! ### The observer -/

/-- What the observer will return, once it has loaded `requested_`, if the version does not move. -/
structure Promise (generation : ℕ) (s : State ι) (f : Facts) (closed : Bool) (request : ℕ) : Prop where
  agrees : s.Agrees generation (viewOf generation s.cell.version f closed request)
  coherent : ∀ e ∈ s.reports,
    Coherent e.snapshot ⟨viewOf generation s.cell.version f closed request, s.published⟩
  le : f.releaseSequence ≤ request
  requested : request ≤ s.mail.requested
  told : request = f.releaseSequence → request = 0 ∨ f.release ≠ .none

/-- What the observer may rely on. -/
def ObserverSound (generation : ℕ) (s : State ι) : ObserverPc → Prop
  | .idle => True
  | .loading v values todo => Even v ∧ Loaded s.cell v values todo
  | .haveRequest v values closed request =>
    Even v ∧ Loaded s.cell v values [] ∧
      (s.cell.version = v → Promise generation s (.ofWords values) closed request)
  | .checking v values closed request acknowledged =>
    Even v ∧ Loaded s.cell v values [] ∧
      (s.cell.version = v → Promise generation s (.ofWords values) closed request ∧
        snapshotOf generation v (.ofWords values) closed request acknowledged =
          viewOf generation v (.ofWords values) closed request)

/-- **The invariant of the stream.** -/
structure Stream (generation : ℕ) (s : State ι) : Prop where
  inv : Inv s
  cell : CellSound s s.pc
  agrees : ∀ e ∈ s.reports, s.Agrees generation e.snapshot
  coherent : s.reports.Pairwise fun later earlier => Coherent earlier.snapshot later
  observer : ObserverSound generation s s.observer

theorem stream_start (generation : ℕ) : Stream generation (start ι) where
  inv := ⟨sound_start, settling_start⟩
  cell := ⟨Even.zero, rfl, rfl⟩
  agrees := by
    intro e he
    cases he
  coherent := .nil
  observer := trivial

section ObserverSteps

variable {generation : ℕ} {s s' : State ι}

/-- The steps of the others keep what the observer has read, or move the version. -/
theorem Loaded.shared {v : ℕ} {values : Field → ℕ} {todo : List Field} (h : Loaded s.cell v values todo)
    (hv : Even v) (hstep : Shared s s') : Loaded s'.cell v values todo := by
  cases hstep with
  | same hcell => exact hcell ▸ h
  | accept hcell => exact hcell ▸ h
  | bump hcell => exact hcell ▸ h.bump
  | store i w hodd hcell => exact hcell ▸ h.store hv hodd

theorem Shared.version_le (h : Shared s s') : s.cell.version ≤ s'.cell.version := by
  cases h with
  | same hcell => rw [hcell]
  | accept hcell => rw [hcell]
  | bump hcell =>
    rw [hcell]
    exact Nat.le_succ _
  | store i w hodd hcell =>
    rw [hcell]
    exact le_rfl

/-- The steps of the others keep a promise, or move the version. -/
theorem Promise.shared {f : Facts} {closed : Bool} {request v : ℕ} {values : Field → ℕ} (hi : Inv s)
    (hc : CellSound s s.pc) (hv : Even v) (hload : Loaded s.cell v values []) (hstep : Unseen s s')
    (h : s.cell.version = v → Promise generation s f closed request) (hv' : s'.cell.version = v) :
    Promise generation s' f closed request := by
  have hkeep : s'.cell = s.cell → s'.published = s.published → s.mail.requested ≤ s'.mail.requested →
      Promise generation s' f closed request := by
    intro hcell hpub hle
    have hver : s'.cell.version = s.cell.version := by rw [hcell]
    have hp := h (hver.symm.trans hv')
    have hagrees := hp.agrees.step hi.sound hc hstep.shared
    rw [← hver] at hagrees
    refine ⟨hagrees, ?_, hp.le, hp.requested.trans hle, hp.told⟩
    intro e he
    rw [hstep.reports] at he
    rw [hver, hpub]
    exact hp.coherent e he
  cases hstep.shared with
  | same hcell hreq hacc hpub => exact hkeep hcell hpub hreq.ge
  | accept hcell hopen hack hlt hacc hpub => exact hkeep hcell hpub hlt.le
  | bump hcell =>
    rw [hcell] at hv'
    exact absurd (show s.cell.version + 1 = v from hv') (by have := hload.1; omega)
  | store i w hodd hcell =>
    rw [hcell] at hv'
    have hsame : s.cell.version = v := hv'
    exact absurd (hsame ▸ hv) (Nat.not_even_iff_odd.mpr hodd)

/-- The steps of the others. -/
theorem Stream.unseen (h : Stream generation s) (hinv : Inv s') (hstep : Unseen s s') : Stream generation s' := by
  refine ⟨hinv, hstep.cell, ?_, ?_, ?_⟩
  · intro e he
    rw [hstep.reports] at he
    exact (h.agrees e he).step h.inv.sound h.cell hstep.shared
  · rw [hstep.reports]
    exact h.coherent
  · have hobs := h.observer
    rw [hstep.observer]
    cases hpc : s.observer with
    | idle => trivial
    | loading v values todo =>
      rw [hpc] at hobs
      exact ⟨hobs.1, Loaded.shared hobs.2 hobs.1 hstep.shared⟩
    | haveRequest v values closed request =>
      rw [hpc] at hobs
      obtain ⟨heven, hload, hp⟩ := hobs
      exact ⟨heven, Loaded.shared hload heven hstep.shared,
        Promise.shared h.inv h.cell heven hload hstep hp⟩
    | checking v values closed request acknowledged =>
      rw [hpc] at hobs
      obtain ⟨heven, hload, hp⟩ := hobs
      refine ⟨heven, Loaded.shared hload heven hstep.shared, fun hv => ⟨?_, ?_⟩⟩
      · exact Promise.shared h.inv h.cell heven hload hstep (fun hv => (hp hv).1) hv
      · exact (hp (le_antisymm (hstep.shared.version_le.trans hv.le) hload.1)).2

theorem CellSound.frame {pc : OwnerPc} (h : CellSound s pc) (obs : ObserverPc) (reports : List Report) :
    CellSound { s with observer := obs, reports := reports } pc := by
  cases pc <;> exact h

/-- A step of the observer that returns nothing. -/
theorem Stream.look (h : Stream generation s) {pc : ObserverPc} (hpc : ObserverSound generation s pc) :
    Stream generation { s with observer := pc } := by
  refine ⟨⟨h.inv.sound.frame _ _, h.inv.books.frame _ _⟩, h.cell.frame _ _, h.agrees, h.coherent, ?_⟩
  · show ObserverSound generation _ pc
    cases pc with
    | idle => trivial
    | loading v values todo => exact hpc
    | haveRequest v values closed request =>
      refine ⟨hpc.1, hpc.2.1, fun hv => ?_⟩
      obtain ⟨h1, h2, h3, h4, h5⟩ := hpc.2.2 hv
      exact ⟨h1, h2, h3, h4, h5⟩
    | checking v values closed request acknowledged =>
      refine ⟨hpc.1, hpc.2.1, fun hv => ?_⟩
      obtain ⟨⟨h1, h2, h3, h4, h5⟩, heq⟩ := hpc.2.2 hv
      exact ⟨⟨h1, h2, h3, h4, h5⟩, heq⟩

/-- A step of the observer that returns a snapshot. -/
theorem Stream.returns (h : Stream generation s) {r : Report} (hagrees : s.Agrees generation r.snapshot)
    (hcoh : ∀ e ∈ s.reports, Coherent e.snapshot r) :
    Stream generation { s with observer := .idle, reports := r :: s.reports } := by
  refine ⟨⟨h.inv.sound.frame _ _, h.inv.books.frame _ _⟩, h.cell.frame _ _, ?_, ?_, trivial⟩
  · intro e he
    rcases List.mem_cons.mp he with rfl | he
    · exact hagrees
    · exact h.agrees e he
  · exact List.pairwise_cons.mpr ⟨hcoh, h.coherent⟩

/-- The load of `requested_` makes the promise. -/
theorem Stream.promise (h : Stream generation s) (hgap : ¬ s.Gap) (heven : Even s.cell.version) :
    Promise generation s s.shown s.mail.closed s.mail.requested := by
  obtain ⟨hfits, _⟩ := h.cell.tells h.inv.sound heven
  refine ⟨agrees_view h.inv h.cell hgap heven, ?_, hfits.le, le_rfl, fun heq => hfits.told heq.symm⟩
  intro e he
  exact coherent_view h.inv h.cell hgap heven (h.agrees e he)

theorem Stream.observe (h : Stream generation s) (hclear : Clear s .observe) :
    Stream generation (s.observe generation) := by
  have hobs := h.observer
  have hlook : s.observer.looks = true → ¬ s.Gap := hclear
  unfold State.observe
  cases hpc : s.observer with
  | idle =>
    dsimp only
    split
    case isTrue => exact h
    case isFalse hodd =>
      exact h.look ⟨Nat.even_iff.mpr (by omega), .start Field.mem_all⟩
  | loading v values todo =>
    rw [hpc] at hobs
    obtain ⟨heven, hload⟩ := hobs
    cases todo with
    | cons i todo => exact h.look ⟨heven, hload.load⟩
    | nil =>
      refine h.look ⟨heven, hload, fun hv => ?_⟩
      have hgap := hlook (by rw [hpc]; rfl)
      rw [hload.complete hv]
      exact h.promise hgap (hv ▸ heven)
  | haveRequest v values closed request =>
    rw [hpc] at hobs
    obtain ⟨heven, hload, hp⟩ := hobs
    refine h.look ⟨heven, hload, fun hv => ⟨hp hv, ?_⟩⟩
    have hgap := hlook (by rw [hpc]; rfl)
    have hprom := hp hv
    rw [hload.complete hv] at hprom ⊢
    subst hv
    exact snapshotOf_eq_viewOf h.inv.sound h.cell hgap heven hprom.le hprom.requested hprom.told
  | checking v values closed request acknowledged =>
    rw [hpc] at hobs
    obtain ⟨heven, hload, hp⟩ := hobs
    dsimp only
    split
    case isTrue hv =>
      obtain ⟨hprom, heq⟩ := hp hv.symm
      subst hv
      rw [heq]
      exact h.returns hprom.agrees hprom.coherent
    case isFalse => exact h.look trivial

theorem Stream.step [DecidableEq ι] {a : Act ι} (h : Stream generation s) (hclear : Clear s a)
    (hstep : Step generation s a s') : Stream generation s' := by
  have hinv := h.inv.step hstep
  cases a with
  | owner a => exact h.unseen hinv (unseen_of_ownerStep h.inv.sound h.cell hstep)
  | request i g sequence =>
    simp only [Step, Startup.step] at hstep
    split at hstep
    · cases hstep
      exact h.unseen hinv (.move h.cell)
    · cases hstep
  | requester i => exact h.unseen hinv (unseen_of_requesterNext h.inv.sound h.cell hstep)
  | observe =>
    cases hstep
    exact h.observe hclear

end ObserverSteps

/-! ### Every run -/

section Runs

variable [DecidableEq ι] {generation : ℕ} {s : State ι}

/-- **The status stream is coherent** in every run in which the observer does not look at the mailbox while it
is closed and the record at rest does not tell of the last request. -/
theorem reports_coherent (h : Reaches (Step generation) Clear (start ι) s) :
    s.reports.Pairwise fun later earlier => Coherent earlier.snapshot later := by
  have hstream : Stream generation s :=
    h.invariant (stream_start generation) fun _ _ _ hi hclear hstep => hi.step hclear hstep
  exact hstream.coherent

/-- One call of `snapshot` that nothing comes between. -/
def snapshotCall : List (Act Unit) := List.replicate 20 .observe

/-- A run: a release is asked for before the device exists and seen by the observer, the owner carries it out,
and the observer looks again. -/
def releasedBetween (before after : ℕ) : List (Act Unit) :=
  [.request () 7 1, .requester (), .requester ()] ++ snapshotCall ++
  [.owner (.call .releaseBeforeStart)] ++ List.replicate before (.owner .next) ++ snapshotCall ++
  List.replicate after (.owner .next)

/-- What the observer was given, oldest first. -/
def State.seen {ι : Type} (s : State ι) : List (ℕ × ℕ × Release) :=
  (s.reports.map fun r =>
    (r.snapshot.version, r.snapshot.facts.releaseSequence, r.snapshot.facts.release)).reverse

/-- Seen whole: revision 1 with release 1 pending, then revision 2 with release 1 done. -/
theorem exists_seen_whole :
    ∃ s : State Unit, Reaches (Step 7) Clear (start Unit) s ∧
      s.seen = [(1, 1, .pending), (2, 1, .released)] := by
  have hrun : ((exec (step 7) Clear (start Unit) (releasedBetween 21 0)).map State.seen) =
      some [(1, 1, .pending), (2, 1, .released)] := by decide +kernel
  obtain ⟨s, hs, heq⟩ := Option.map_eq_some_iff.mp hrun
  exact ⟨s, reaches_of_exec hs, heq⟩

theorem reports_coherent_whole :
    ∃ s : State Unit, s.seen = [(1, 1, .pending), (2, 1, .released)] ∧
      s.reports.Pairwise fun later earlier => Coherent earlier.snapshot later := by
  obtain ⟨s, hreach, hseen⟩ := exists_seen_whole
  exact ⟨s, hseen, reports_coherent hreach⟩

/-- Seen in the gap: revision 1 with release 1 pending, then revision 0 with no release at all, although the
owner goes on to publish revision 2. -/
theorem exists_seen_in_gap :
    ∃ s : State Unit, Reaches (Step 7) always (start Unit) s ∧ s.pc = .left ∧
      s.seen = [(1, 1, .pending), (0, 0, .none)] := by
  have hrun : ((exec (step 7) always (start Unit) (releasedBetween 2 19)).map fun s => (s.pc, s.seen)) =
      some (.left, [(1, 1, .pending), (0, 0, .none)]) := by decide +kernel
  obtain ⟨s, hs, heq⟩ := Option.map_eq_some_iff.mp hrun
  exact ⟨s, reaches_of_exec hs, congrArg Prod.fst heq, congrArg Prod.snd heq⟩

/-- Two reports with a falling revision are no coherent stream. -/
theorem not_coherent_of_seen {ι : Type} {s : State ι} {v w n k : ℕ} {r q : Release}
    (hseen : s.seen = [(v, n, r), (w, k, q)]) (hlt : w < v) :
    ¬ s.reports.Pairwise fun later earlier => Coherent earlier.snapshot later := by
  intro hpair
  obtain ⟨later, rest, hrep, hlater, hrest⟩ := List.map_eq_cons_iff.mp (List.reverse_eq_iff.mp hseen)
  obtain ⟨earlier, rest', hrep', hearlier, _⟩ := List.map_eq_cons_iff.mp hrest
  rw [hrep, hrep'] at hpair
  have hcoh := (List.pairwise_cons.mp hpair).1 earlier List.mem_cons_self
  have hw : later.snapshot.version = w := congrArg Prod.fst hlater
  have hv : earlier.snapshot.version = v := congrArg Prod.fst hearlier
  have hle := hcoh.version
  omega

/-- **The stream falls back**: with `release_before_start` between its closing of the mailbox and its record, a
snapshot is one revision behind the one before it, and denies the release that one reported. -/
theorem stream_falls_back :
    ∃ s : State Unit, Reaches (Step 7) always (start Unit) s ∧ s.pc = .left ∧
      s.seen = [(1, 1, .pending), (0, 0, .none)] ∧
      ¬ s.reports.Pairwise fun later earlier => Coherent earlier.snapshot later := by
  obtain ⟨s, hreach, hleft, hseen⟩ := exists_seen_in_gap
  exact ⟨s, hreach, hleft, hseen, not_coherent_of_seen hseen (by decide)⟩

end Runs

end OverlayBD.Ublk.Startup
