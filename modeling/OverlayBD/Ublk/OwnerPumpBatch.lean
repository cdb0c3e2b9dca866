import OverlayBD.Ublk.OwnerPump

/-!
# Batched replies and delivered requests are not left behind

The owner's own side of the wake: a reply that is prepared and not submitted is either submitted at the next
turn the pump takes anyway, or has put a wake on the eventfd; and the pump does not go to its park with a
request left in the ring.

## What is proved

* `Queue.Served`, `Queue.completeOnOwner_served` — what the owner's queue functions may do, said once.
* `Batched` — the invariant; `Batched.step` keeps it under every step.
-/

namespace OverlayBD.Ublk

open Errno

variable {n : ℕ}

/-! ### The queue -/

namespace Queue

/-- The parts of the queue that only the loop and the control touch stay. -/
structure Frame (q q' : Queue n) : Prop where
  stop : q'.stop = q.stop
  releasing : q'.releasing = q.releasing
  pending : q'.completionPending = q.completionPending
  failed : q.failed = true → q'.failed = true
  owed : q.owed ≤ q'.owed

namespace Frame

variable {q q' q'' : Queue n}

theorem refl (q : Queue n) : Frame q q := ⟨rfl, rfl, rfl, id, le_rfl⟩

theorem trans (h : Frame q q') (h' : Frame q' q'') : Frame q q'' :=
  ⟨h'.stop.trans h.stop, h'.releasing.trans h.releasing, h'.pending.trans h.pending,
    fun hf => h'.failed (h.failed hf), h.owed.trans h'.owed⟩

theorem fail (q : Queue n) : Frame q q.fail := ⟨rfl, rfl, rfl, fun _ => rfl, Nat.le_succ _⟩

theorem disown (q : Queue n) : Frame q q.disown := ⟨rfl, rfl, rfl, fun _ => rfl, Nat.le_succ _⟩

theorem makeRoom (q : Queue n) (io : Io) : Frame q (q.makeRoom io) := by
  unfold Queue.makeRoom
  split_ifs
  · exact refl q
  · exact ⟨rfl, rfl, rfl, fun _ => rfl, Nat.le_succ _⟩
  · exact ⟨rfl, rfl, rfl, id, le_rfl⟩

theorem prepIoCmd (q : Queue n) (t : Fin n) (io : Io) : Frame q (q.prepIoCmd t io) := by
  unfold Queue.prepIoCmd
  split_ifs
  · exact disown q
  · exact (makeRoom q io).trans (fail _)
  · have h := makeRoom q io
    exact ⟨h.stop, h.releasing, h.pending, h.failed, h.owed⟩

end Frame

theorem makeRoom_ring (q : Queue n) (io : Io) : (q.makeRoom io).ring = q.ring := by
  unfold makeRoom
  split_ifs <;> rfl

theorem prepIoCmd_ring (q : Queue n) (t : Fin n) (io : Io) : (q.prepIoCmd t io).ring = q.ring := by
  unfold prepIoCmd
  split_ifs
  · rfl
  · exact makeRoom_ring q io
  · exact makeRoom_ring q io

/-- What a section of the owner's code may do to the queue, if it takes the worker with no write under way. -/
structure Served (q q' : Queue n) : Prop where
  stop : q'.stop = q.stop
  releasing : q'.releasing = q.releasing
  ring : q'.ring = q.ring
  failed : q.failed = true → q'.failed = true
  owed : q.owed ≤ q'.owed
  batch : (q.prepared ≠ [] → q.failed = true ∨ q.completionPending = true) →
    q'.prepared ≠ [] → q'.failed = true ∨ q'.completionPending = true
  /-- A new batch has put a wake on its way. -/
  pending : q'.completionPending = true → q.completionPending = true ∨ 0 < q'.owed
  /-- So has a reply that is left behind. -/
  left : q'.prepared ≠ [] → q.prepared ≠ [] ∨ q.completionPending = true ∨ 0 < q'.owed

namespace Served

variable {q q' q'' : Queue n}

theorem refl (q : Queue n) : Served q q := ⟨rfl, rfl, rfl, id, le_rfl, id, .inl, .inl⟩

theorem fail (q : Queue n) : Served q q.fail :=
  ⟨rfl, rfl, rfl, fun _ => rfl, Nat.le_succ _, fun _ _ => .inl rfl, .inl, .inl⟩

theorem trans (h : Served q q') (h' : Served q' q'') : Served q q'' where
  stop := h'.stop.trans h.stop
  releasing := h'.releasing.trans h.releasing
  ring := h'.ring.trans h.ring
  failed := fun hf => h'.failed (h.failed hf)
  owed := h.owed.trans h'.owed
  batch := fun hb => h'.batch (h.batch hb)
  pending := by
    intro hp
    rcases h'.pending hp with hp' | ho
    · exact (h.pending hp').imp_right fun ho => ho.trans_le h'.owed
    · exact .inr ho
  left := by
    intro hl
    rcases h'.left hl with hl' | hp | ho
    · exact (h.left hl').imp_right fun h => h.imp_right fun ho => ho.trans_le h'.owed
    · exact .inr ((h.pending hp).imp_right fun ho => ho.trans_le h'.owed)
    · exact .inr (.inr ho)

end Served

/-- **Completing a request**: its reply is submitted, or a batch is pending, or a wake is under way. -/
theorem completeOnOwner_served (q : Queue n) (t : Fin n) (result : ℤ) (io : Io) :
    Served q (q.completeOnOwner t result io) := by
  unfold completeOnOwner
  split_ifs with hbad
  · exact ⟨rfl, rfl, rfl, fun _ => rfl, Nat.le_succ _, fun _ _ => .inl rfl, .inl, .inl⟩
  · set q₀ := q.setRaw t { q.raw t with reply := result, replyReady := true }
    set q₁ := q₀.prepIoCmd t io
    have hset : Frame q q₀ := ⟨rfl, rfl, rfl, id, le_rfl⟩
    have hframe : Frame q q₁ := hset.trans (.prepIoCmd q₀ t io)
    have hring : q₁.ring = q.ring := prepIoCmd_ring q₀ t io
    dsimp only
    split_ifs with hlast hpend
    · -- the last delivered request, or a failed queue: everything goes out at once
      unfold submitOwner
      split_ifs
      · exact ⟨hframe.stop, hframe.releasing, hring, fun _ => rfl, hframe.owed.trans (Nat.le_succ _),
          fun _ _ => .inl rfl, fun h => (by cases h), fun _ => .inr (.inr (Nat.succ_pos _))⟩
      · exact ⟨hframe.stop, hframe.releasing, hring, hframe.failed, hframe.owed, fun _ h => absurd rfl h,
          fun h => (by cases h), fun h => absurd rfl h⟩
    · have hwas : q.completionPending = true := hframe.pending.symm.trans hpend
      exact ⟨hframe.stop, hframe.releasing, hring, hframe.failed, hframe.owed, fun _ _ => .inr hpend,
        fun _ => .inl hwas, fun _ => .inr (.inl hwas)⟩
    · exact ⟨hframe.stop, hframe.releasing, hring, hframe.failed, hframe.owed.trans (Nat.le_succ _),
        fun _ _ => .inr rfl, fun _ => .inr (Nat.succ_pos _), fun _ => .inr (.inr (Nat.succ_pos _))⟩

/-- Behind a flush no batch is pending. -/
theorem flush_pending (q : Queue n) (io : Io) : (q.flushOwnerCompletions io).completionPending = false := by
  unfold flushOwnerCompletions submitOwner
  split_ifs with h
  · rfl
  · rfl
  · exact Bool.eq_false_iff.mpr h

theorem flush_served (q : Queue n) (io : Io) : Served q (q.flushOwnerCompletions io) := by
  unfold flushOwnerCompletions submitOwner
  split_ifs with h
  · exact ⟨rfl, rfl, rfl, fun _ => rfl, Nat.le_succ _, fun _ _ => .inl rfl, fun h => (by cases h),
      fun _ => .inr (.inl h)⟩
  · exact ⟨rfl, rfl, rfl, id, le_rfl, fun _ h => absurd rfl h, fun h => (by cases h), fun h => absurd rfl h⟩
  · exact .refl q

theorem dispatchOwn_frame (q : Queue n) (t : Fin n) (c : Cqe) :
    Frame q (q.dispatchOwn t c) ∧ (q.dispatchOwn t c).prepared = q.prepared := by
  unfold dispatchOwn
  dsimp only
  split_ifs
  all_goals exact ⟨⟨rfl, rfl, rfl, fun hf => by first | rfl | exact hf, by first | exact le_rfl | exact Nat.le_succ _⟩, rfl⟩

theorem dispatchCqe_frame (q : Queue n) (c : Cqe) :
    Frame q (q.dispatchCqe c) ∧ (q.dispatchCqe c).prepared = q.prepared := by
  unfold dispatchCqe
  dsimp only
  split_ifs
  · exact ⟨.disown q, rfl⟩
  · exact ⟨.disown q, rfl⟩
  · exact dispatchOwn_frame q _ c
  · exact ⟨.disown q, rfl⟩

/-- Draining completions prepares nothing. -/
theorem drain_frame (q : Queue n) (batch : List Cqe) :
    Frame q (q.drain batch) ∧ (q.drain batch).prepared = q.prepared := by
  induction batch generalizing q with
  | nil => exact ⟨.refl q, rfl⟩
  | cons c batch ih =>
    obtain ⟨hc, hprep⟩ := dispatchCqe_frame q c
    obtain ⟨hrest, hprep'⟩ := ih (q.dispatchCqe c)
    exact ⟨hc.trans hrest, hprep'.trans hprep⟩

end Queue

/-! ### The invariant -/

/-- The loop gets to `flush_owner_completions` before it parks; behind the loop batching is closed with a flush. -/
def PumpPc.beforeFlush : PumpPc → Bool
  | .top | .collecting | .flushing | .awake | .exited => true
  | _ => false

/-- The loop is in `drive_owner_cq`. -/
def PumpPc.inTurn : PumpPc → Bool
  | .entering _ _ | .hinting _ _ => true
  | _ => false

/-- The loop is in a call of the engine. -/
def PumpPc.inCall : PumpPc → Bool
  | .collecting | .collectingFor _ _ | .admitting _ => true
  | _ => false

/-- **Nothing of the owner's is left behind.** -/
structure Batched (s : Pump n) : Prop where
  batch : s.queue.prepared ≠ [] → s.queue.failed = true ∨ s.queue.completionPending = true
  coming : s.queue.completionPending = true → s.pc.beforeFlush = true ∨ 0 < s.counter ∨ 0 < s.queue.owed
  turn : s.pc.inTurn = true → s.queue.completionPending = false
  parked : s.pc = .parked → s.queue.prepared ≠ [] → 0 < s.counter ∨ 0 < s.queue.owed
  ring : s.pc = .parked → s.queue.ring = []
  deciding : ∀ more, s.pc = .deciding more → s.queue.ring = [] ∨ s.queue.stop = true
  release : s.queue.releasing = true → s.queue.stop = true
  place : s.engine.owner.ofPump = true → s.pc.inCall = true

theorem batched_start (n : ℕ) : Batched (Pump.start n) where
  batch := fun h => absurd rfl h
  coming := nofun
  turn := fun _ => rfl
  parked := nofun
  ring := fun _ => rfl
  deciding := fun _ _ => .inl rfl
  release := nofun
  place := nofun

/-! ### The steps -/

namespace Batched

variable {s s' : Pump n}

theorem failures_served (s : Pump n) (e : Engine n) : Queue.Served s.queue (s.failures e) := by
  unfold Pump.failures
  split_ifs
  · exact .refl _
  · exact .fail _

theorem absorb_served (s : Pump n) (e : Engine n) (io : Io) : Queue.Served s.queue (s.absorb e io).queue := by
  unfold Pump.absorb
  dsimp only
  split
  · exact failures_served s e
  · exact (failures_served s e).trans (Queue.completeOnOwner_served _ _ _ _)

/-- A section of the owner's code that leaves the pump where it is. -/
theorem serve (h : Batched s) (ho : s.queue.owed = 0) {q : Queue n} (hq : Queue.Served s.queue q) {e : Engine n}
    (hpc : s.pc.inTurn = false) (he : e.owner.ofPump = true → s.pc.inCall = true) :
    Batched { s with engine := e, queue := q } where
  batch := hq.batch h.batch
  coming := by
    intro hp
    rcases hq.pending hp with hp | howed
    · rcases h.coming hp with hb | hc | ho'
      · exact .inl hb
      · exact .inr (.inl hc)
      · exact absurd ho' (by omega)
    · exact .inr (.inr howed)
  turn := fun ht => absurd ht (by simp [hpc])
  parked := by
    intro hpk hleft
    rcases hq.left hleft with hl | hp | howed
    · exact (h.parked hpk hl).imp_right fun ho' => ho'.trans_le hq.owed
    · rcases h.coming hp with hb | hc | ho'
      · rw [hpk] at hb
        cases hb
      · exact .inl hc
      · exact absurd ho' (by omega)
    · exact .inr howed
  ring := fun hpk => hq.ring.trans (h.ring hpk)
  deciding := by
    intro more hpk
    show q.ring = [] ∨ q.stop = true
    rw [hq.ring, hq.stop]
    exact h.deciding more hpk
  release := by
    intro hr
    show q.stop = true
    rw [hq.stop]
    exact h.release (hq.releasing.symm.trans hr)
  place := he

/-- The pump moves on, to a place where nothing is asked of it. -/
theorem goto (h : Batched s) {q : Queue n} (hq : Queue.Frame s.queue q) (hprep : q.prepared = s.queue.prepared)
    {pc : PumpPc} {e : Engine n} (hflush : s.pc.beforeFlush = true → pc.beforeFlush = true)
    (hturn : pc.inTurn = true → s.pc.inTurn = true) (hpark : pc ≠ .parked) (hdec : ∀ more, pc ≠ .deciding more)
    (he : e.owner.ofPump = true → pc.inCall = true) : Batched { s with engine := e, queue := q, pc := pc } where
  batch := by
    intro hp
    show q.failed = true ∨ q.completionPending = true
    rw [hq.pending]
    exact (h.batch (hprep ▸ hp)).imp_left hq.failed
  coming := by
    intro hp
    have hold := h.coming (hq.pending.symm.trans hp)
    exact hold.imp hflush (Or.imp_right fun ho => ho.trans_le hq.owed)
  turn := fun ht => hq.pending.trans (h.turn (hturn ht))
  parked := fun hpk => absurd hpk hpark
  ring := fun hpk => absurd hpk hpark
  deciding := fun more hpk => absurd hpk (hdec more)
  release := fun hr => hq.stop.trans (h.release (hq.releasing.symm.trans hr))
  place := he

/-- The pump stays where it is, and no wake is lost. -/
theorem stay (h : Batched s) {q : Queue n} (hstop : s.queue.stop = true → q.stop = true)
    (hrel : q.releasing = true → q.stop = true) (hring : q.ring = s.queue.ring)
    (hprep : q.prepared = s.queue.prepared) (hpend : q.completionPending = s.queue.completionPending)
    (hfail : s.queue.failed = true → q.failed = true) {e : Engine n} {c : ℕ} {l m k : List (Note n)}
    (hwake : 0 < s.counter ∨ 0 < s.queue.owed → 0 < c ∨ 0 < q.owed) (he : e.owner = s.engine.owner) :
    Batched { s with engine := e, queue := q, counter := c, marked := l, pended := m, notified := k } where
  batch := by
    intro hp
    show q.failed = true ∨ q.completionPending = true
    rw [hpend]
    exact (h.batch (hprep ▸ hp)).imp_left hfail
  coming := fun hp => (h.coming (hpend.symm.trans hp)).imp_right hwake
  turn := fun ht => hpend.trans (h.turn ht)
  parked := fun hpk hp => hwake (h.parked hpk (hprep ▸ hp))
  ring := fun hpk => hring.trans (h.ring hpk)
  deciding := by
    intro more hpk
    show q.ring = [] ∨ q.stop = true
    rw [hring]
    exact (h.deciding more hpk).imp_right hstop
  release := hrel
  place := by
    intro hp
    rw [he] at hp
    exact h.place hp

theorem not_ofPump (h : Batched s) (hpc : s.pc.inCall = false) : ¬ s.engine.owner.ofPump = true := by
  intro hp
  exact absurd (h.place hp) (by simp [hpc])

end Batched

/-- A handler's completion does not become a call of the pump's. -/
theorem not_ofPump_of_handler {e e' : Engine n} (hstep : EStep e e') (ho : e.owner.ofHandler = true) :
    ¬ e'.owner.ofPump = true := by
  have hnot : ¬ e.owner.ofPump = true := by
    cases hown : e.owner <;> simp_all [Owner.ofHandler, Owner.ofPump]
  cases hstep with
  | retire | retireFail | deactivate => nofun
  | wake | destroy | load | claim | claimFail | fill | ready | mark | pend => exact hnot
  | _ => simp_all [Owner.ofHandler]

/-- A collection stays a collection, goes on to the admission it is for, or ends. -/
theorem ofPump_or_idle_of_scan {e e' : Engine n} (hstep : EStep e e') (ho : e.owner.scanFrom.isSome) :
    e'.owner.ofPump = true ∨ e'.owner = .idle := by
  have hpump : e.owner.ofPump = true := by
    cases hown : e.owner <;> rw [hown] at ho <;> first | rfl | cases ho
  cases hstep with
  | wake | destroy | load | claim | claimFail | fill | ready | mark | pend => exact .inl hpump
  | scanNext | scanHit | takeSome | takeNone => exact .inl rfl
  | @scanEnd q =>
    cases q with
    | none => exact .inr rfl
    | some r => exact .inl rfl
  | @settle t q result throws =>
    left
    unfold Engine.settle
    cases result with
    | none => rfl
    | some r => cases throws <;> rfl
  | _ => simp_all [Owner.scanFrom]

theorem Batched.step {a : PumpAct} {s s' : Pump n} (h : Batched s) (hstep : PStep s a s') : Batched s' := by
  -- a step of the loop outside its calls
  have hmove : ∀ {q : Queue n} {pc : PumpPc} {e : Engine n}, Queue.Frame s.queue q →
      q.prepared = s.queue.prepared → (s.pc.beforeFlush = true → pc.beforeFlush = true) →
      (pc.inTurn = true → s.pc.inTurn = true) → pc ≠ .parked → (∀ more, pc ≠ .deciding more) →
      e.owner = s.engine.owner → s.pc.inCall = false →
      Batched { s with engine := e, queue := q, pc := pc } := by
    intro q pc e hq hprep hflush hturn hpark hdec he hcall
    exact h.goto hq hprep hflush hturn hpark hdec fun hp => absurd (he ▸ hp) (h.not_ofPump hcall)
  have hsame : ∀ {q : Queue n} {c : ℕ} {l m k : List (Note n)} {e : Engine n}, e.owner = s.engine.owner →
      q = s.queue → s.counter ≤ c →
      Batched { s with engine := e, queue := q, counter := c, marked := l, pended := m, notified := k } := by
    rintro q c l m k e he rfl hc
    exact h.stay id h.release rfl rfl rfl id (Or.imp_left fun h0 => h0.trans_le hc) he
  cases hstep with
  | loop hpc ho hs hf =>
    exact h.goto (.refl _) rfl (fun _ => rfl) (fun ht => by cases ht) nofun nofun fun _ => rfl
  | leave hpc ho hs =>
    exact hmove (.refl _) rfl (fun _ => rfl) (fun ht => by cases ht) nofun nofun rfl (by rw [hpc]; rfl)
  | collect ho hpc hp hst hmv hquiet =>
    have hcall : s.pc.inCall = true ∧ s.pc.inTurn = false := by
      rcases hpc with hpc | ⟨r, more, hpc⟩ | ⟨more, hpc⟩ <;> rw [hpc] <;> exact ⟨rfl, rfl⟩
    exact h.serve ho (absorb_served s _ _) hcall.2 fun _ => hcall.1
  | collected hpc ho hi =>
    refine h.goto (.refl _) rfl (fun _ => rfl) (fun ht => by cases ht) nofun nofun fun hp => ?_
    rw [hi] at hp
    cases hp
  | @flush io hpc ho =>
    have hq := Queue.flush_served s.queue io
    have hpend := Queue.flush_pending s.queue io
    refine ⟨hq.batch h.batch, fun hp => ?_, fun _ => hpend, nofun, nofun, nofun, fun hr => ?_, fun hp => ?_⟩
    · exact absurd hp (by simp [hpend])
    · exact hq.stop.trans (h.release (hq.releasing.symm.trans hr))
    · exact absurd hp (h.not_ofPump (by rw [hpc]; rfl))
  | @enter consumed hints batch more hpc ho hb =>
    obtain ⟨hframe, hprep⟩ := Queue.drain_frame s.queue batch
    have hplace : ∀ c k m, Pump.drained c k m = .popping true ∨ Pump.drained c k m = .hinting c k := by
      intro c k m
      unfold Pump.drained
      split_ifs
      · exact .inl rfl
      · exact .inl rfl
      · exact .inr rfl
    refine hmove hframe hprep (fun hb => ?_) (fun _ => by rw [hpc]; rfl) ?_ ?_ rfl (by rw [hpc]; rfl)
    · rw [hpc] at hb
      cases hb
    · rcases hplace (consumed + batch.length) hints more with hd | hd <;> rw [hd] <;> nofun
    · rcases hplace (consumed + batch.length) hints more with hd | hd <;> rw [hd] <;> nofun
  | enterFail hpc ho =>
    refine hmove (.fail _) rfl (fun hb => ?_) (fun ht => by cases ht) nofun nofun rfl (by rw [hpc]; rfl)
    rw [hpc] at hb
    cases hb
  | hint hpc ho hc =>
    -- behind the flush no batch is pending, so no wake of the owner's is taken
    have hpend := h.turn (by rw [hpc]; rfl)
    refine ⟨h.batch, fun hp => ?_, fun _ => hpend, nofun, nofun, nofun, h.release, fun hp => ?_⟩
    · exact absurd hp (by simp [hpend])
    · exact absurd hp (h.not_ofPump (by rw [hpc]; rfl))
  | noHint hpc ho hc =>
    refine hmove (.refl _) rfl (fun hb => ?_) (fun ht => by cases ht) nofun nofun rfl (by rw [hpc]; rfl)
    rw [hpc] at hb
    cases hb
  | hintFail hpc ho =>
    refine hmove (.fail _) rfl (fun hb => ?_) (fun ht => by cases ht) nofun nofun rfl (by rw [hpc]; rfl)
    rw [hpc] at hb
    cases hb
  | @pop more r rest hpc ho hr hring =>
    refine h.goto (q := { s.queue with ring := rest }) ⟨rfl, rfl, rfl, id, le_rfl⟩ rfl (fun hb => ?_) (fun ht => by cases ht) nofun nofun fun _ => rfl
    rw [hpc] at hb
    cases hb
  | @popNone more hpc ho hr =>
    refine ⟨h.batch, fun hp => ?_, nofun, nofun, nofun, fun _ _ => ?_, h.release, fun hp => ?_⟩
    · refine .inr ((h.coming hp).resolve_left ?_)
      rw [hpc]
      nofun
    · rcases hr with hr | hr
      · exact .inr (h.release hr)
      · exact .inl hr
    · exact absurd hp (h.not_ofPump (by rw [hpc]; rfl))
  | admitCall hpc ho hi =>
    refine h.goto (.refl _) rfl (fun hb => ?_) (fun ht => by cases ht) nofun nofun fun _ => rfl
    rw [hpc] at hb
    cases hb
  | @admission more r hpc ho hi =>
    split
    case isTrue hp =>
      exact h.serve ho (.refl _) (by rw [hpc]; rfl) fun _ => by rw [hpc]; rfl
    case isFalse hp =>
      exact h.goto (.fail _) rfl (fun _ => rfl) (fun ht => by cases ht) nofun nofun fun hp' => absurd hp' hp
  | activate hpc ho hi =>
    exact h.serve ho (.refl _) (by rw [hpc]; rfl) fun _ => by rw [hpc]; rfl
  | signal hpc ho hi =>
    refine h.goto (.refl _) rfl (fun hb => ?_) (fun ht => by cases ht) nofun nofun nofun
    rw [hpc] at hb
    cases hb
  | signalFail hpc ho hi =>
    refine h.goto (.refl _) rfl (fun hb => ?_) (fun ht => by cases ht) nofun nofun nofun
    rw [hpc] at hb
    cases hb
  | spawnThrows hpc ho hi =>
    exact h.goto (.fail _) rfl (fun _ => rfl) (fun ht => by cases ht) nofun nofun nofun
  | retry hpc ho hi =>
    refine h.goto (.refl _) rfl (fun hb => ?_) (fun ht => by cases ht) nofun nofun fun hp => ?_
    · rw [hpc] at hb
      cases hb
    · rw [show (s.engine.setTag _ _).owner = .idle from hi] at hp
      cases hp
  | stopNow hpc ho hs =>
    exact hmove (.refl _) rfl (fun _ => rfl) (fun ht => by cases ht) nofun nofun rfl (by rw [hpc]; rfl)
  | sleep hpc ho hs hf =>
    refine hmove (.refl _) rfl (fun hb => ?_) (fun ht => by cases ht) nofun nofun rfl (by rw [hpc]; rfl)
    rw [hpc] at hb
    cases hb
  | park hpc ho hs hf =>
    have hcoming : s.queue.completionPending = true → 0 < s.counter ∨ 0 < s.queue.owed := by
      intro hp
      refine (h.coming hp).resolve_left ?_
      rw [hpc]
      nofun
    refine ⟨h.batch, fun hp => .inr (hcoming hp), nofun, fun _ hp => ?_, fun _ => ?_, nofun, h.release,
      fun hp => ?_⟩
    · rcases h.batch hp with hfail | hpend
      · exact absurd hfail (by simp [hf])
      · exact hcoming hpend
    · exact (h.deciding false hpc).resolve_right (by simp [hs])
    · exact absurd hp (h.not_ofPump (by rw [hpc]; rfl))
  | unpark hpc hc =>
    refine ⟨h.batch, fun _ => .inl rfl, nofun, nofun, nofun, nofun, h.release, fun hp => ?_⟩
    exact absurd hp (h.not_ofPump (by rw [hpc]; rfl))
  | unparkFail hpc ho hi =>
    exact hmove (.fail _) rfl (fun _ => rfl) (fun ht => by cases ht) nofun nofun rfl (by rw [hpc]; rfl)
  | resume hpc ho hi =>
    refine hmove (.refl _) rfl (fun _ => rfl) (fun ht => by cases ht) nofun nofun rfl ?_
    rcases hpc with hpc | hpc <;> rw [hpc] <;> rfl
  | @handler e io hpc ho hst hmv =>
    have hnot : ¬ e.owner.ofPump = true := by
      rcases hmv with ⟨_, hh⟩ | ⟨hh, _⟩
      · intro hp
        cases hown : e.owner <;> simp_all [Owner.ofHandler, Owner.ofPump]
      · exact not_ofPump_of_handler hst hh
    refine h.serve ho (absorb_served s _ _) ?_ fun hp => absurd hp hnot
    cases hown : s.pc <;> rw [hown] at hpc <;> first | rfl | cases hpc
  | write ho =>
    exact h.stay (q := { s.queue with owed := s.queue.owed - 1 }) id h.release rfl rfl rfl id
      (fun _ => .inl (Nat.succ_pos _)) rfl
  | @background e hst hown hlate hclosed =>
    have hfail : (if e.failures = s.engine.failures then s.queue else { s.queue with failed := true }) = s.queue ∨
        (if e.failures = s.engine.failures then s.queue else { s.queue with failed := true }) =
          { s.queue with failed := true } := by
      split_ifs
      · exact .inl rfl
      · exact .inr rfl
    unfold Pump.outside
    rcases hfail with hq | hq <;> rw [hq]
    · exact hsame hown rfl le_rfl
    · exact h.stay (q := { s.queue with failed := true }) id h.release rfl rfl rfl (fun _ => rfl) id hown
  | mark hh => exact hsame rfl rfl le_rfl
  | pend ha => exact hsame rfl rfl le_rfl
  | notify ha => exact hsame rfl rfl (Nat.le_succ _)
  | signalled => exact hsame rfl rfl (Nat.le_succ _)
  | failed =>
    exact h.stay (q := { s.queue with failed := true }) id h.release rfl rfl rfl (fun _ => rfl) id rfl
  | stop =>
    exact h.stay (q := { s.queue with stop := true }) (fun _ => rfl) (fun _ => rfl) rfl rfl rfl id id rfl
  | release hs =>
    exact h.stay (q := { s.queue with releasing := true }) id (fun _ => hs) rfl rfl rfl id id rfl

end OverlayBD.Ublk
