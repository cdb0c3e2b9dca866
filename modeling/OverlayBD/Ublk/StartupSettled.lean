import OverlayBD.Ublk.StartupRelease

/-!
# Release requests are settled exactly once

What the mailbox promises its callers (`src/docs/adr/0022-retain-failed-startup-owners.md`): an accepted
request is refused or carried out, whatever path the owner takes out of its startup and whenever the request
comes in.

* `Settled published n` — some published record tells how request `n` ended.
* `Settling` — the books: every accepted request but the last is settled, and the last too once it is
  acknowledged and the owner is through with publishing; no request ends in two ways.
-/

namespace OverlayBD.Ublk.Startup

open Transition

variable {ι : Type}

/-! ### Settled requests -/

/-- A release that is over. -/
def Release.Final (r : Release) : Prop := r = .refused ∨ r = .released

/-- The record tells how request `n` ended. -/
def Facts.Decides (f : Facts) (n : ℕ) : Prop := f.releaseSequence = n ∧ f.release.Final

/-- Some published record tells how request `n` ended. -/
def Settled (published : List Facts) (n : ℕ) : Prop := ∃ f ∈ published, f.Decides n

theorem Settled.cons {published : List Facts} {n : ℕ} {f : Facts} (h : Settled published n) :
    Settled (f :: published) n := by
  obtain ⟨g, hg, hd⟩ := h
  exact ⟨g, List.mem_cons_of_mem _ hg, hd⟩

/-- The owner is not on its way to publish the outcome of a request it has acknowledged. -/
def OwnerPc.Through : OwnerPc → Prop
  | .finishing => False
  | .begin _ .leave => False
  | .storing _ _ .leave => False
  | _ => True

/-- The record the owner is publishing, and what it does then. -/
def OwnerPc.inHand : OwnerPc → Option (Facts × Cont)
  | .begin f k => some (f, k)
  | .storing f _ k => some (f, k)
  | _ => none

/-- The owner is neither publishing nor about to acknowledge a refusal. -/
def OwnerPc.Plain : OwnerPc → Prop
  | .begin _ _ => False
  | .storing _ _ _ => False
  | .refusing _ => False
  | _ => True

/-- A record may follow the owner's last one: requests go up, and an outcome once told stays. -/
def Owner.Precedes (o : Owner) (f : Facts) : Prop :=
  o.sequence ≤ f.releaseSequence ∧ (o.sequence = f.releaseSequence → o.release.Final → f.release = o.release)

/-- **The books.** -/
structure Settling (s : State ι) : Prop where
  positive : 0 ∉ s.accepted
  ordered : s.accepted.Pairwise (· > ·)
  newest : (s.accepted = [] ∧ s.mail.requested = 0) ∨ ∃ rest, s.accepted = s.mail.requested :: rest
  earlier : ∀ n ∈ s.accepted, n < s.mail.requested → Settled s.published n
  acked : ∀ n ∈ s.accepted, n < s.mail.requested → n ≤ s.mail.acknowledged
  last : s.mail.requested ≠ 0 → s.mail.acknowledged = s.mail.requested → s.pc.Through →
    Settled s.published s.mail.requested
  refused : ∀ n, s.pc = .refusing n → Settled s.published n
  ready : ∀ f k, s.pc.inHand = some (f, k) → f.phase = .ready → k = .leave
  told : ∀ f ∈ s.published, f.releaseSequence ≤ s.owner.sequence ∧
    (f.releaseSequence = s.owner.sequence → f.release.Final → s.owner.release = f.release)
  once : ∀ f ∈ s.published, ∀ g ∈ s.published, ∀ n, f.Decides n → g.Decides n → f.release = g.release

theorem settling_start : Settling (start ι) where
  positive := List.not_mem_nil
  ordered := .nil
  newest := .inl ⟨rfl, rfl⟩
  earlier := by
    intro n hn
    cases hn
  acked := by
    intro n hn
    cases hn
  last := fun h => absurd rfl h
  refused := by
    rintro n ⟨⟩
  ready := by
    rintro f k ⟨⟩
  told := by
    intro f hf
    cases hf
  once := by
    intro f hf
    cases hf

section Books

variable {s s' : State ι}

variable {n : ℕ}

theorem Settling.le_requested (h : Settling s) (hn : n ∈ s.accepted) : n ≤ s.mail.requested := by
  rcases h.newest with ⟨hnil, _⟩ | ⟨rest, hrest⟩
  · rw [hnil] at hn
    cases hn
  · have hord := h.ordered
    rw [hrest] at hn hord
    rcases List.mem_cons.mp hn with rfl | hn
    · exact le_rfl
    · exact ((List.pairwise_cons.mp hord).1 n hn).le

variable {pc : OwnerPc}

/-- The owner moves, and not away from an outcome it still has to publish. -/
theorem Settling.goto (h : Settling s) (hpc : pc.Plain) (hthrough : s.pc.Through) :
    Settling { s with pc := pc } := by
  refine ⟨h.positive, h.ordered, h.newest, h.earlier, h.acked, fun h0 hack _ => h.last h0 hack hthrough, ?_, ?_, h.told, h.once⟩
  · rintro n rfl
    exact hpc.elim
  · rintro f k hk
    cases pc <;> first | exact hpc.elim | cases hk

variable {f : Facts} {k : Cont}

theorem Settling.hand (h : Settling s) (hk : k ≠ .leave → s.pc.Through)
    (hprec : s.owner.Precedes f) (hready : f.phase = .ready → k = .leave) : Settling (s.hand f k) := by
  refine ⟨h.positive, h.ordered, h.newest, h.earlier, h.acked, fun h0 hack ht => h.last h0 hack (hk ?_), ?_, ?_, ?_, h.once⟩
  · rintro rfl
    exact ht
  · rintro n ⟨⟩
  · rintro f k hf
    cases hf
    exact hready
  · intro g hg
    obtain ⟨hle, hsame⟩ := h.told g hg
    refine ⟨hle.trans hprec.1, fun heq hfin => ?_⟩
    have heq : g.releaseSequence = f.releaseSequence := heq
    have hmid : s.owner.sequence = f.releaseSequence := le_antisymm hprec.1 (heq ▸ hle)
    have hrel := hsame (heq.trans hmid.symm) hfin
    exact (hprec.2 hmid (hrel ▸ hfin)).trans hrel

variable {o : Owner}

theorem Owner.precedes_of_carries (h : o.Carries f) : o.Precedes f :=
  ⟨h.1.ge, fun _ _ => h.2⟩

theorem Owner.precedes_of_pending (hpend : o.release = .pending)
    (hseq : f.releaseSequence = o.sequence) : o.Precedes f := by
  refine ⟨hseq.ge, fun _ hfin => ?_⟩
  rw [hpend] at hfin
  rcases hfin with h | h <;> cases h

variable {m : Mailbox}

/-- What is handed to `publish` may follow the last record, and says ready only on the way out. -/
theorem Owner.precedes_of_publishes
    (hown : OwnerSound m o pc) (hfits : Fits m o.sequence o.release) (hp : o.publishes f pc = some k) :
    o.Precedes f ∧ (k ≠ .leave → pc.Through) ∧ (f.phase = .ready → k = .leave) := by
  cases pc with
  | idle =>
    simp only [Owner.publishes] at hp
    split at hp
    case isTrue hc => exact ⟨precedes_of_carries hc.2.1, fun _ => trivial, fun hr => absurd hr hc.2.2.1⟩
    case isFalse => cases hp
  | persist current =>
    obtain ⟨hserve, _, hreq, hdue⟩ := hown
    simp only [Owner.publishes] at hp
    split at hp
    case isTrue hc =>
      have hseq : f.releaseSequence = m.requested := hc.1.trans hreq.symm
      refine ⟨⟨hseq ▸ hfits.le, fun heq hfin => ?_⟩, fun _ => trivial, fun hr => ?_⟩
      · rcases hfin with href | hrel
        · -- a refused request is acknowledged, and this one is not
          exact absurd ((hserve.refused href).symm.trans (heq.trans hc.1)) hdue
        · exact absurd hrel hserve.notReleased
      · exact absurd (hr.symm.trans hc.2.2.1) (by decide)
    case isFalse => cases hp
  | finishing =>
    simp only [Owner.publishes] at hp
    split at hp
    case isTrue hc =>
      cases hp
      exact ⟨precedes_of_pending hown.1.pending hc.1, fun hne => absurd rfl hne, fun _ => rfl⟩
    case isFalse => cases hp
  | readying =>
    simp only [Owner.publishes] at hp
    split at hp
    case isTrue hc =>
      cases hp
      exact ⟨precedes_of_carries hc.1, fun _ => trivial, fun _ => rfl⟩
    case isFalse => cases hp
  | cleaning =>
    simp only [Owner.publishes] at hp
    split at hp
    case isTrue hc => exact ⟨precedes_of_carries hc.1, fun _ => trivial, fun hr => absurd hr hc.2⟩
    case isFalse => cases hp
  | _ => cases hp

variable {current : ℕ} {job : Job}

theorem Mailbox.plain_compare : (m.compare current job).Plain := by
  cases job <;> simp only [Mailbox.compare] <;> (try split) <;> trivial

theorem Mailbox.plain_close : (m.close current job).Plain := by
  cases job <;> simp only [Mailbox.close] <;> (try split_ifs) <;> trivial

theorem Owner.plain_call (h : o.call m job = some pc) :
    pc.Plain := by
  cases job <;> simp only [Owner.call] at h <;> split_ifs at h <;> cases h <;> trivial

/-- The record the owner leaves with tells how the last request ended. -/
theorem Quiet.decides (h : Quiet m o) (hf : o.Carries f)
    (hfits : Fits m o.sequence o.release) (h0 : m.requested ≠ 0) : f.Decides m.requested := by
  refine ⟨hf.1.trans h.told, ?_⟩
  have hnone := (hfits.told h.told).resolve_left h0
  have hpend := h.notPending
  rw [hf.2]
  cases hr : o.release with
  | none => exact absurd hr hnone
  | pending => exact absurd hr hpend
  | refused => exact .inl rfl
  | released => exact .inr rfl

/-- A record is out. -/
theorem Settling.published (h : Settling s) (hs : Sound s) (hpc : s.pc = .storing f [] k) :
    Settling { s with cell := s.cell.bump, pc := k.pc, published := f :: s.published } := by
  have hown := hs.owner
  rw [hpc] at hown
  obtain ⟨hcar, hk⟩ := hown
  constructor
  · exact h.positive
  · exact h.ordered
  · exact h.newest
  · exact fun n hn hlt => (h.earlier n hn hlt).cons
  · exact h.acked
  · intro h0 hack ht
    cases k with
    | leave => exact ⟨f, List.mem_cons_self, hk.decides hcar hs.fits h0⟩
    | _ => exact (h.last h0 hack (by rw [hpc]; trivial)).cons
  · intro n hn
    cases k with
    | acknowledge k =>
      cases hn
      exact ⟨f, List.mem_cons_self, hcar.1.trans hk.told, .inl (hcar.2.trans hk.refused)⟩
    | _ => cases hn
  · intro g k' hk'
    cases k <;> cases hk'
  · intro g hg
    rcases List.mem_cons.mp hg with rfl | hg
    · exact ⟨hcar.1.le, fun _ _ => hcar.2.symm⟩
    · exact h.told g hg
  · have hnew : ∀ g ∈ s.published, ∀ n, f.Decides n → g.Decides n → f.release = g.release := by
      intro g hg n hf hgn
      exact hcar.2.trans ((h.told g hg).2 (hgn.1.trans (hf.1.symm.trans hcar.1)) hgn.2)
    intro g hg g' hg' n hgn hgn'
    rcases List.mem_cons.mp hg with heq | hold
    · rcases List.mem_cons.mp hg' with heq' | hold'
      · rw [heq, heq']
      · rw [heq] at hgn ⊢
        exact hnew g' hold' n hgn hgn'
    · rcases List.mem_cons.mp hg' with heq' | hold'
      · rw [heq'] at hgn' ⊢
        exact (hnew g hold n hgn' hgn).symm
      · exact h.once g hold g' hold' n hgn hgn'

theorem Folding.precedes (h : Folding m o current) :
    o.Precedes f := by
  refine ⟨h.silent.1.le.trans (Nat.zero_le _), fun _ hfin => ?_⟩
  rw [h.silent.2] at hfin
  rcases hfin with h | h <;> cases h

/-- The newest request is acknowledged. -/
theorem Settling.acknowledge (h : Settling s) (hn : s.mail.requested = n)
    (hpc : pc.Plain) (hset : pc.Through → s.mail.requested ≠ 0 → Settled s.published s.mail.requested) :
    Settling { s with mail := { s.mail with acknowledged := n }, pc := pc } := by
  refine ⟨h.positive, h.ordered, h.newest, h.earlier, ?_, fun h0 _ ht => hset ht h0, ?_, ?_, h.told, h.once⟩
  · intro k hk hlt
    exact (show k < s.mail.requested from hlt).le.trans hn.le
  · rintro n rfl
    exact hpc.elim
  · rintro f k hk
    cases pc <;> first | exact hpc.elim | cases hk

/-- Behind the closed bit the owner has the outcome still to publish. -/
theorem Settling.acking (h : Settling s) (hs : Sound s) {accepted : Bool} (hpc : s.pc = .acking job current accepted) :
    Settling (if job = .finish then { s with mail := { s.mail with acknowledged := current }, pc := .finishing }
      else { s with mail := { s.mail with acknowledged := current } }.hand
        (releasedBeforeStart accepted current) .leave) := by
  have hown := hs.owner
  rw [hpc] at hown
  have hbefore : s.mail.requested = current ∧ (job ≠ .finish → Folding s.mail s.owner current) := by
    cases job with
    | releaseBeforeStart => exact ⟨hown.1.requested, fun _ => hown.1⟩
    | finishBeforeStart => exact ⟨hown.1.requested, fun _ => hown.1⟩
    | finish => exact ⟨hown.2, fun hne => absurd rfl hne⟩
    | _ => exact hown.elim
  have hacked : Settling { s with mail := { s.mail with acknowledged := current }, pc := .finishing } :=
    h.acknowledge hbefore.1 trivial fun ht => ht.elim
  split
  case isTrue => exact hacked
  case isFalse hne =>
    exact hacked.hand (f := releasedBeforeStart accepted current) (k := .leave) (fun hk => absurd rfl hk)
      (hbefore.2 hne).precedes fun _ => rfl

theorem Settling.ownerNext (h : Settling s) (hs : Sound s) (hstep : s.ownerNext = some s') : Settling s' := by
  unfold State.ownerNext at hstep
  cases hpc : s.pc with
  | haveRequest job current =>
    rw [hpc] at hstep
    cases hstep
    exact h.goto Mailbox.plain_compare (by rw [hpc]; trivial)
  | closing job current =>
    rw [hpc] at hstep
    cases hstep
    have hgo : Settling { s with pc := s.mail.close current job } :=
      h.goto Mailbox.plain_close (by rw [hpc]; trivial)
    exact ⟨hgo.positive, hgo.ordered, hgo.newest, hgo.earlier, hgo.acked, hgo.last, hgo.refused, hgo.ready, hgo.told, hgo.once⟩
  | closedUp current =>
    rw [hpc] at hstep
    cases hstep
    exact h.goto trivial (by rw [hpc]; trivial)
  | acking job current accepted =>
    rw [hpc] at hstep
    cases hstep
    exact h.acking hs hpc
  | begin f k =>
    rw [hpc] at hstep
    cases hstep
    refine ⟨h.positive, h.ordered, h.newest, h.earlier, h.acked, fun h0 hack ht => h.last h0 hack ?_, ?_, ?_, h.told, h.once⟩
    · rw [hpc]
      cases k <;> exact ht
    · rintro n ⟨⟩
    · intro g k' hk
      exact h.ready g k' (by rw [hpc]; exact hk)
  | storing f todo k =>
    rw [hpc] at hstep
    cases todo with
    | nil =>
      cases hstep
      exact h.published hs hpc
    | cons i todo =>
      cases hstep
      refine ⟨h.positive, h.ordered, h.newest, h.earlier, h.acked, fun h0 hack ht => h.last h0 hack ?_, ?_, ?_, h.told, h.once⟩
      · rw [hpc]
        cases k <;> exact ht
      · rintro n ⟨⟩
      · intro g k' hk
        exact h.ready g k' (by rw [hpc]; exact hk)
  | refusing n =>
    rw [hpc] at hstep
    cases hstep
    have hown := hs.owner
    rw [hpc] at hown
    have hset := h.refused n hpc
    rw [← hown.requested] at hset
    exact h.acknowledge hown.requested trivial fun _ _ => hset
  | idle => rw [hpc] at hstep; cases hstep
  | persist current => rw [hpc] at hstep; cases hstep
  | finishing => rw [hpc] at hstep; cases hstep
  | readying => rw [hpc] at hstep; cases hstep
  | cleaning => rw [hpc] at hstep; cases hstep
  | left => rw [hpc] at hstep; cases hstep

theorem Settling.ownerStep (h : Settling s) (hs : Sound s) {a : OwnerAct} (hstep : s.ownerStep a = some s') :
    Settling s' := by
  cases a with
  | enter =>
    simp only [State.ownerStep] at hstep
    split at hstep
    case isTrue hc =>
      cases hstep
      exact ⟨h.positive, h.ordered, h.newest, h.earlier, h.acked, h.last, h.refused, h.ready, h.told, h.once⟩
    case isFalse => cases hstep
  | call job =>
    simp only [State.ownerStep] at hstep
    split at hstep
    case isTrue hc =>
      obtain ⟨pc, hcall, rfl⟩ := Option.map_eq_some_iff.mp hstep
      exact h.goto (Owner.plain_call hcall) (by rw [hc]; trivial)
    case isFalse => cases hstep
  | publish f =>
    obtain ⟨k, hk, rfl⟩ := Option.map_eq_some_iff.mp hstep
    obtain ⟨hprec, hthrough, hready⟩ := Owner.precedes_of_publishes hs.owner hs.fits hk
    exact h.hand hthrough hprec hready
  | skip =>
    simp only [State.ownerStep] at hstep
    split at hstep
    case isTrue hc =>
      cases hstep
      exact h.goto trivial (by rw [hc.1]; trivial)
    case isFalse => cases hstep
  | refuse f =>
    simp only [State.ownerStep] at hstep
    split at hstep
    case isTrue hc =>
      cases hstep
      obtain ⟨hidle, hpend, hseq, _, hphase⟩ := hc
      refine h.hand (fun _ => by rw [hidle]; trivial) (Owner.precedes_of_pending hpend hseq) fun hr => ?_
      exact absurd (hr.symm.trans hphase) (by decide)
    case isFalse => cases hstep
  | next => exact h.ownerNext hs hstep

/-- A request comes in: the one before it is settled. -/
theorem Settling.accept (h : Settling s) (hs : Sound s) {r : ι → RequesterPc}
    (hopen : s.mail.closed = false) (hack : s.mail.acknowledged = s.mail.requested) (hn : s.mail.requested < n) :
    Settling { s with
      mail := { s.mail with requested := n }
      accepted := n :: s.accepted
      requester := r } := by
  have hthrough : s.pc.Through := by
    have hown := hs.owner
    have hshut : ¬ s.mail.closed = true := by simp [hopen]
    cases hpc : s.pc with
    | finishing =>
      rw [hpc] at hown
      exact hshut hown.1.closed
    | begin f k =>
      rw [hpc] at hown
      cases k with
      | leave => exact hshut hown.2.closed
      | _ => trivial
    | storing f todo k =>
      rw [hpc] at hown
      cases k with
      | leave => exact hshut hown.2.closed
      | _ => trivial
    | _ => trivial
  constructor
  · intro h0
    rcases List.mem_cons.mp h0 with h0 | h0
    · omega
    · exact h.positive h0
  · refine List.pairwise_cons.mpr ⟨fun k hk => ?_, h.ordered⟩
    exact (h.le_requested hk).trans_lt hn
  · exact .inr ⟨s.accepted, rfl⟩
  · intro k hk hlt
    rcases List.mem_cons.mp hk with rfl | hk
    · exact absurd hlt (lt_irrefl _)
    · rcases (h.le_requested hk).lt_or_eq with hold | rfl
      · exact h.earlier k hk hold
      · refine h.last (fun h0 => ?_) hack hthrough
        exact h.positive (h0 ▸ hk)
  · intro k hk hlt
    rcases List.mem_cons.mp hk with rfl | hk
    · exact absurd hlt (lt_irrefl _)
    · exact (h.le_requested hk).trans hack.ge
  · intro _ hack'
    exact absurd (hack.symm.trans hack') (by simpa using hn.ne)
  · exact h.refused
  · exact h.ready
  · exact h.told
  · exact h.once

/-- The books are not the observer's. -/
theorem Settling.frame (h : Settling s) (pc : ObserverPc) (reports : List Report) :
    Settling { s with observer := pc, reports := reports } :=
  ⟨h.positive, h.ordered, h.newest, h.earlier, h.acked, h.last, h.refused, h.ready, h.told, h.once⟩

theorem Settling.observe {generation : ℕ} (h : Settling s) : Settling (s.observe generation) := by
  unfold State.observe
  split
  · split
    · exact h
    · exact h.frame _ _
  · exact h.frame _ _
  · exact h.frame _ _
  · exact h.frame _ _
  · split
    · exact h.frame _ _
    · exact h.frame _ _

theorem Settling.step [DecidableEq ι] {generation : ℕ} {a : Act ι} (h : Settling s) (hs : Sound s)
    (hstep : Step generation s a s') : Settling s' := by
  have hmove : ∀ r : ι → RequesterPc, Settling { s with requester := r } := fun _ =>
    ⟨h.positive, h.ordered, h.newest, h.earlier, h.acked, h.last, h.refused, h.ready, h.told, h.once⟩
  cases a with
  | owner a => exact h.ownerStep hs hstep
  | request i g sequence =>
    simp only [Step, Startup.step] at hstep
    split at hstep
    · cases hstep
      exact hmove _
    · cases hstep
  | requester i =>
    have hreq := hs.requesters i
    simp only [Step, Startup.step, State.requesterNext] at hstep
    cases hpc : s.requester i with
    | idle last => rw [hpc] at hstep; cases hstep
    | loaded sequence current =>
      rw [hpc] at hstep
      cases hstep
      exact hmove _
    | matched sequence current =>
      rw [hpc] at hstep hreq
      dsimp only at hstep
      split at hstep
      case isTrue hswap =>
        cases hstep
        obtain ⟨hopen, rfl⟩ := Mailbox.swaps_iff.mp hswap
        exact h.accept hs hopen (hreq.2.2 hopen rfl) hreq.1
      case isFalse =>
        cases hstep
        exact hmove _
  | observe =>
    cases hstep
    exact h.observe

end Books

/-! ### Every run -/

section Runs

variable [DecidableEq ι] {generation : ℕ} {s : State ι}

/-- What holds in every state a run reaches. -/
structure Inv {ι : Type} (s : State ι) : Prop where
  sound : Sound s
  books : Settling s

theorem Inv.step {s' : State ι} {a : Act ι} (h : Inv s) (hstep : Step generation s a s') : Inv s' :=
  ⟨h.sound.step hstep, h.books.step h.sound hstep⟩

theorem Inv.reaches {ok : State ι → Act ι → Prop} (h : Reaches (Step generation) ok (start ι) s) : Inv s :=
  h.invariant ⟨sound_start, settling_start⟩ fun _ _ _ hi _ hstep => hi.step hstep

/-- The owner accepts no request. -/
theorem accepted_of_ownerStep {ι : Type} {s s' : State ι} {a : OwnerAct} (hstep : s.ownerStep a = some s') :
    s'.accepted = s.accepted := by
  cases a with
  | enter =>
    simp only [State.ownerStep] at hstep
    split at hstep <;> cases hstep
    rfl
  | call job =>
    simp only [State.ownerStep] at hstep
    split at hstep
    · obtain ⟨pc, _, rfl⟩ := Option.map_eq_some_iff.mp hstep
      rfl
    · cases hstep
  | publish f =>
    obtain ⟨k, _, rfl⟩ := Option.map_eq_some_iff.mp hstep
    rfl
  | skip =>
    simp only [State.ownerStep] at hstep
    split at hstep <;> cases hstep
    rfl
  | refuse f =>
    simp only [State.ownerStep] at hstep
    split at hstep <;> cases hstep
    rfl
  | next =>
    simp only [State.ownerStep, State.ownerNext] at hstep
    split at hstep
    case h_4 =>
      cases hstep
      split <;> rfl
    all_goals
      cases hstep
      try rfl

/-- No step accepts a request once the mailbox is closed. -/
theorem accepted_of_closed {s' : State ι} {a : Act ι} (hclosed : s.mail.closed = true)
    (hstep : Step generation s a s') : s'.accepted = s.accepted := by
  cases a with
  | owner a => exact accepted_of_ownerStep hstep
  | request i g sequence =>
    simp only [Step, Startup.step] at hstep
    split at hstep <;> cases hstep
    rfl
  | requester i =>
    simp only [Step, Startup.step, State.requesterNext] at hstep
    split at hstep
    · cases hstep
    · cases hstep
      rfl
    · have hswap : ∀ current, s.mail.swaps current = false := by
        simp [Mailbox.swaps, hclosed]
      rw [hswap] at hstep
      cases hstep
      rfl
  | observe =>
    cases hstep
    simp only [State.observe]
    split
    · split <;> rfl
    · rfl
    · rfl
    · rfl
    · split <;> rfl

/-- The accepted requests above the last acknowledgement. -/
def State.unacknowledged {ι : Type} (s : State ι) : List ℕ :=
  s.accepted.filter fun n => s.mail.acknowledged < n

theorem Settling.unacknowledged_length {ι : Type} {s : State ι} (h : Settling s) :
    s.unacknowledged.length ≤ 1 := by
  rcases h.newest with ⟨hnil, _⟩ | ⟨rest, hrest⟩
  · simp [State.unacknowledged, hnil]
  · have hord := h.ordered
    rw [hrest] at hord
    have hnone : rest.filter (fun n => s.mail.acknowledged < n) = [] := by
      refine List.filter_eq_nil_iff.mpr fun n hn => ?_
      have hlt := (List.pairwise_cons.mp hord).1 n hn
      have hle := h.acked n (by rw [hrest]; exact List.mem_cons_of_mem _ hn) hlt
      simpa using hle
    rw [State.unacknowledged, hrest, List.filter_cons, hnone]
    split <;> simp

theorem Settling.unacknowledged_eq_nil {ι : Type} {s : State ι} (h : Settling s)
    (hack : s.mail.acknowledged = s.mail.requested) : s.unacknowledged = [] := by
  refine List.filter_eq_nil_iff.mpr fun n hn => ?_
  have hle := (h.le_requested hn).trans hack.ge
  simpa using hle

/-- **Release requests are settled exactly once.**  Whatever callers ask for and however their calls interleave
with the owner's ready, failure, retained and pre-start paths: the accepted numbers go up; at most one accepted
request is not acknowledged; none is accepted behind the closed bit; a record that says ready is published with
none outstanding; and an owner that leaves its startup has told of every accepted request, in one way, whether
it was refused or released. -/
theorem releases_settled (h : Reaches (Step generation) always (start ι) s) :
    s.accepted.Pairwise (· > ·) ∧ s.unacknowledged.length ≤ 1 ∧
      (∀ a s', s.mail.closed = true → Step generation s a s' → s'.accepted = s.accepted) ∧
      (∀ f k, s.pc.inHand = some (f, k) → f.phase = .ready →
        s.mail.closed = true ∧ s.unacknowledged = []) ∧
      (s.pc = .left → ∀ n ∈ s.accepted, Settled s.published n) ∧
      (∀ f ∈ s.published, ∀ g ∈ s.published, ∀ n, f.Decides n → g.Decides n → f.release = g.release) := by
  obtain ⟨hsound, hbooks⟩ := Inv.reaches h
  have hown := hsound.owner
  refine ⟨hbooks.ordered, hbooks.unacknowledged_length, fun a s' => accepted_of_closed, ?_, ?_, hbooks.once⟩
  · intro f k hf hready
    have hleave := hbooks.ready f k hf hready
    subst hleave
    have hquiet : Quiet s.mail s.owner := by
      cases hpc : s.pc with
      | begin g k =>
        rw [hpc] at hf hown
        cases hf
        exact hown.2
      | storing g todo k =>
        rw [hpc] at hf hown
        cases hf
        exact hown.2
      | _ =>
        rw [hpc] at hf
        cases hf
    exact ⟨hquiet.closed, hbooks.unacknowledged_eq_nil hquiet.settled⟩
  · intro hleft n hn
    rw [hleft] at hown
    rcases (hbooks.le_requested hn).lt_or_eq with hlt | rfl
    · exact hbooks.earlier n hn hlt
    · refine hbooks.last (fun h0 => hbooks.positive (h0 ▸ hn)) hown.settled ?_
      rw [hleft]
      trivial

/-- A run: the device is being started, a release is asked for, refused, and the device becomes ready. -/
def refusedThenReady : List (Act Unit) :=
  let words : List (Act Unit) := List.replicate 18 (.owner .next)
  let pending : Facts := { phase := .releasing, releaseSequence := 1, release := .pending }
  let refused : Facts := { phase := .retained, releaseSequence := 1, release := .refused, releaseErrno := 16 }
  [.owner .enter, .request () 7 1, .requester (), .requester (), .owner (.call .pending), .owner .next,
    .owner (.publish pending)] ++ words ++ [.owner (.refuse refused)] ++ words ++
  [.owner .next, .owner (.call .ready), .owner .next, .owner .next,
    .owner (.publish { refused with phase := .ready })] ++ words

theorem exists_refusedThenReady :
    ∃ s : State Unit, Reaches (Step 7) always (start Unit) s ∧ s.pc = .left ∧ s.accepted = [1] := by
  have hrun : ((exec (step 7) always (start Unit) refusedThenReady).map fun s => (s.pc, s.accepted)) =
      some (.left, [1]) := by decide +kernel
  obtain ⟨s, hs, heq⟩ := Option.map_eq_some_iff.mp hrun
  exact ⟨s, reaches_of_exec hs, congrArg Prod.fst heq, congrArg Prod.snd heq⟩

theorem releases_settled_refusedThenReady :
    ∃ s : State Unit, Reaches (Step 7) always (start Unit) s ∧ s.pc = .left ∧ Settled s.published 1 := by
  obtain ⟨s, hreach, hleft, hacc⟩ := exists_refusedThenReady
  refine ⟨s, hreach, hleft, ?_⟩
  exact (releases_settled hreach).2.2.2.2.1 hleft 1 (by rw [hacc]; decide)

end Runs

end OverlayBD.Ublk.Startup
