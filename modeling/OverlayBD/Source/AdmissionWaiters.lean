import OverlayBD.Source.Admission

/-!
# Waiters and queues of the admission funnel

A waiter is queued, has a slot reserved, or is dropped by its request.  This module keeps the queues, the flags and
the requests consistent over every action.

* `Wf` — a queued waiter belongs to one undecided scavenger of that queue's class and has no slot yet; an undecided
  scavenger without a slot is queued; who is woken has a slot.
* `Moves`, `Wf.go` — what a request may do alone.
* `Wf.push`, `Wf.admitLocked`, `Wf.leave` — the three ways a queue changes.
* `Wf.step` — every action keeps `Wf`.
-/

namespace OverlayBD.Admission

open Transition

variable {ι : Type} [DecidableEq ι] {cfg : Config} {s s' : State ι} {a : Act ι}

/-! ### Waiters and queues -/

/-- Waiters and queues fit together. -/
structure Wf (s : State ι) : Prop where
  fresh : ∀ i w, (s.pc i).token = some w → w < s.next
  unique : ∀ i j w, (s.pc i).token = some w → (s.pc j).token = some w → i = j
  /-- Waiters not made yet have no slot. -/
  blank : ∀ w, s.next ≤ w → s.reserved w = false
  queued : ∀ q, ∀ w ∈ s.queue q, s.reserved w = false ∧ ∃ i, (s.pc i).waits = some (q.cls, w)
  /-- Nobody undecided is forgotten. -/
  waiting : ∀ i c w, (s.pc i).waits = some (c, w) → s.reserved w = false → w ∈ s.queue c.queue
  nodup : ∀ q, (s.queue q).Nodup
  scavenger : ∀ i c, (s.pc i).cls = some c → c = .onDemand → s.pc i = .holding .onDemand
  woken : ∀ i, ∀ w ∈ s.wake i, s.reserved w = true
  admitted : ∀ w, s.admitted w = true → s.reserved w = true

variable {p : Pc} {c : ReadClass} {w : ℕ}

theorem Pc.token_of_waits (h : p.waits = some (c, w)) : p.token = some w := by
  cases p <;> simp_all [waits, token]

theorem Pc.cls_of_waits (h : p.waits = some (c, w)) : p.cls = some c := by
  cases p <;> simp_all [waits, cls]

theorem Pc.waits_ne_holding {d : ReadClass} (h : p.waits = some (c, w)) : p ≠ .holding d := by
  rintro rfl
  simp [waits] at h

theorem Pc.not_holds_of_waits (h : p.waits = some (c, w)) : p.holds = false := by
  cases p <;> simp_all [waits, holds]

theorem Pc.reservation_of_waits (h : p.waits = some (c, w)) (r : ℕ → Bool) :
    p.reservation r = r w := by
  cases p <;> simp_all [waits, reservation]

omit [DecidableEq ι] in
variable {i : ι}

/-- The class of an undecided acquire is not on-demand. -/
theorem Wf.ne_onDemand (h : Wf s) (hw : (s.pc i).waits = some (c, w)) :
    c ≠ .onDemand :=
  fun hc => Pc.waits_ne_holding hw (h.scavenger i c (Pc.cls_of_waits hw) hc)

omit [DecidableEq ι] in
theorem wf_start (cfg : Config) : Wf (State.start cfg : State ι) := by
  refine ⟨fun i w h => ?_, fun i j w h => ?_, fun _ _ => rfl, fun q w h => ?_, fun i c w h => ?_,
    fun _ => List.nodup_nil, fun i c h => ?_, fun i w h => ?_, fun w h => ?_⟩
  · exact nomatch h
  · exact nomatch h
  · exact absurd h List.not_mem_nil
  · exact nomatch h
  · exact nomatch h
  · exact absurd h List.not_mem_nil
  · exact nomatch h

/-- What a move of one request has to respect. -/
structure Moves (s : State ι) (i : ι) (p : Pc) : Prop where
  token : ∀ w, p.token = some w → (s.pc i).token = some w
  waits : ∀ c w, p.waits = some (c, w) → (s.pc i).waits = some (c, w)
  /-- An acquire that is decided had its slot. -/
  decided : ∀ c w, (s.pc i).waits = some (c, w) → p.waits = some (c, w) ∨ s.reserved w = true
  scavenger : ∀ c, p.cls = some c → c = .onDemand → p = .holding .onDemand

theorem Wf.go (h : Wf s) (hm : Moves s i p) : Wf (s.go i p) := by
  have hpc : ∀ j, (s.go i p).pc j = if j = i then p else s.pc j := fun j => by
    simp [State.go, Function.update_apply]
  have htok : ∀ j w, ((s.go i p).pc j).token = some w → (s.pc j).token = some w := by
    intro j w hw
    rw [hpc] at hw
    split_ifs at hw with hj
    · exact hj ▸ hm.token w hw
    · exact hw
  refine ⟨fun j w hw => h.fresh j w (htok j w hw), fun j k w hj hk => h.unique j k w (htok j w hj) (htok k w hk),
    h.blank, fun q w hw => ?_, fun j c w hw hr => ?_, h.nodup, fun j c hc hd => ?_, h.woken, h.admitted⟩
  · obtain ⟨hr, j, hj⟩ := h.queued q w hw
    refine ⟨hr, j, ?_⟩
    rw [hpc]
    split_ifs with hji
    · subst hji
      rcases hm.decided _ w hj with hp | hres
      · exact hp
      · exact absurd (hr.symm.trans hres) Bool.false_ne_true
    · exact hj
  · rw [hpc] at hw
    split_ifs at hw with hj
    · exact h.waiting i c w (hm.waits c w hw) hr
    · exact h.waiting j c w hw hr
  · rw [hpc] at hc ⊢
    split_ifs at hc ⊢ with hj
    · exact hm.scavenger c hc hd
    · exact h.scavenger j c hc hd

/-- A free request has no undecided acquire. -/
theorem Pc.waits_of_free (h : p.free = true) : p.waits = none := by
  cases p <;> simp_all [free, waits]

omit [DecidableEq ι] in
/-- A request with nothing to decide moves to a place without a waiter. -/
theorem moves_of_decided (hp : (s.pc i).waits = none) (ht : p.token = none) (hw : p.waits = none)
    (hc : ∀ c, p.cls = some c → c = .onDemand → p = .holding .onDemand) : Moves s i p := by
  refine ⟨fun w h => ?_, fun c w h => ?_, fun c w h => ?_, hc⟩
  · rw [ht] at h
    exact nomatch h
  · rw [hw] at h
    exact nomatch h
  · rw [hp] at h
    exact nomatch h

omit [DecidableEq ι] in
/-- An undecided acquire with its slot is decided. -/
theorem moves_of_reserved (hp : (s.pc i).waits = some (c, w))
    (hr : s.reserved w = true) (ht : ∀ v, p.token = some v → v = w) (hw : p.waits = none)
    (hc : ∀ c, p.cls = some c → c = .onDemand → p = .holding .onDemand) : Moves s i p := by
  refine ⟨fun v h => ?_, fun d v h => ?_, fun d v h => ?_, hc⟩
  · rw [ht v h]
    exact Pc.token_of_waits hp
  · rw [hw] at h
    exact nomatch h
  · rw [hp] at h
    cases h
    exact .inr hr

omit [DecidableEq ι] in
/-- The wait goes on in another place. -/
theorem moves_of_waiting (hp : (s.pc i).waits = some (c, w))
    (hw : p.waits = some (c, w)) (hc : c ≠ .onDemand) : Moves s i p := by
  refine ⟨fun v h => ?_, fun d v h => ?_, fun d v h => ?_, fun d h hd => ?_⟩
  · rw [Pc.token_of_waits hw] at h
    cases h
    exact Pc.token_of_waits hp
  · rw [hw] at h
    exact hp.trans h
  · rw [hp] at h
    exact .inl (hw.trans h)
  · rw [Pc.cls_of_waits hw] at h
    cases h
    exact absurd hd hc

omit [DecidableEq ι] in
/-- Only these parts matter. -/
theorem Wf.congr {t : State ι} (h : Wf s) (hpc : t.pc = s.pc) (hq : t.queue = s.queue) (hr : t.reserved = s.reserved)
    (hn : t.next = s.next) (hw : t.wake = s.wake) (ha : t.admitted = s.admitted) : Wf t := by
  cases s
  cases t
  cases hpc
  cases hq
  cases hr
  cases hn
  cases hw
  cases ha
  exact ⟨h.fresh, h.unique, h.blank, h.queued, h.waiting, h.nodup, h.scavenger, h.woken, h.admitted⟩

/-- A new waiter at the end of its queue. -/
theorem Wf.push (h : Wf s) (hi : (s.pc i).waits = none) (hc : c ≠ .onDemand) (hp : p.waits = some (c, s.next)) :
    Wf { s.go i p with
      queue := Function.update s.queue c.queue (s.queue c.queue ++ [s.next])
      next := s.next + 1
      lock := some i } := by
  have hpc : ∀ j, (s.go i p).pc j = if j = i then p else s.pc j := fun j => by
    simp [State.go, Function.update_apply]
  have hnew : s.reserved s.next = false := h.blank _ le_rfl
  have htok := Pc.token_of_waits hp
  have hold : ∀ j w, (s.pc j).token = some w → w ≠ s.next := fun j w hw => (h.fresh j w hw).ne
  have hqueued : ∀ q, ∀ w ∈ s.queue q, w < s.next := fun q w hw => by
    obtain ⟨-, j, hj⟩ := h.queued q w hw
    exact h.fresh j w (Pc.token_of_waits hj)
  have hmem : ∀ q w, w ∈ Function.update s.queue c.queue (s.queue c.queue ++ [s.next]) q ↔
      w ∈ s.queue q ∨ q = c.queue ∧ w = s.next := fun q w => by
    by_cases hq : q = c.queue
    · subst hq
      simp
    · simp [hq]
  refine ⟨fun j w hw => ?_, fun j k w hj hk => ?_, fun w hw => h.blank w (Nat.le_of_succ_le hw), fun q w hw => ?_,
    fun j d w hw hr => ?_, fun q => ?_, fun j d hd hd' => ?_, h.woken, h.admitted⟩
  · change ((s.go i p).pc j).token = some w at hw
    rw [hpc] at hw
    split_ifs at hw
    · rw [htok] at hw
      cases hw
      exact Nat.lt_succ_self _
    · exact (h.fresh j w hw).trans (Nat.lt_succ_self _)
  · change ((s.go i p).pc j).token = some w at hj
    change ((s.go i p).pc k).token = some w at hk
    rw [hpc] at hj hk
    split_ifs at hj hk with h1 h2 h2
    · exact h1.trans h2.symm
    · rw [htok] at hj
      cases hj
      exact absurd rfl (hold k _ hk)
    · rw [htok] at hk
      cases hk
      exact absurd rfl (hold j _ hj)
    · exact h.unique j k w hj hk
  · rcases (hmem q w).mp hw with hw | ⟨rfl, rfl⟩
    · obtain ⟨hr, j, hj⟩ := h.queued q w hw
      refine ⟨hr, j, ?_⟩
      change ((s.go i p).pc j).waits = _
      rw [hpc, if_neg]
      · exact hj
      · rintro rfl
        rw [hi] at hj
        exact nomatch hj
    · refine ⟨hnew, i, ?_⟩
      change ((s.go i p).pc i).waits = _
      rw [hpc, if_pos rfl, hp, ReadClass.cls_queue hc]
  · change ((s.go i p).pc j).waits = some (d, w) at hw
    refine (hmem d.queue w).mpr ?_
    rw [hpc] at hw
    split_ifs at hw
    · rw [hp] at hw
      cases hw
      exact .inr ⟨rfl, rfl⟩
    · exact .inl (h.waiting j d w hw hr)
  · change (Function.update s.queue c.queue (s.queue c.queue ++ [s.next]) q).Nodup
    by_cases hq : q = c.queue
    · subst hq
      rw [Function.update_self]
      refine List.nodup_append'.mpr ⟨h.nodup _, List.nodup_singleton _, fun w hw hw' => ?_⟩
      exact absurd (List.mem_singleton.mp hw') (hqueued _ w hw).ne
    · rw [Function.update_of_ne hq]
      exact h.nodup q
  · change ((s.go i p).pc j).cls = some d at hd
    change (s.go i p).pc j = _
    rw [hpc] at hd ⊢
    split_ifs at hd ⊢
    · rw [Pc.cls_of_waits hp] at hd
      cases hd
      exact absurd hd' hc
    · exact h.scavenger j d hd hd'

/-- The waiter at the head of a queue gets its slot. -/
theorem Wf.admitLocked (h : Wf s) {q : Queue} {rest : List ℕ} (hq : s.queue q = w :: rest) :
    Wf { s with
      queue := Function.update s.queue q rest
      reserved := Function.update s.reserved w true
      total := s.total + 1
      wake := Function.update s.wake i (s.wake i ++ [w]) } := by
  have hhead := h.queued q w (hq ▸ List.mem_cons_self)
  obtain ⟨hw, j₀, hj₀⟩ := hhead
  have hnodup := hq ▸ h.nodup q
  -- no other queue has the waiter
  have hother : ∀ q', w ∈ s.queue q' → q' = q := by
    intro q' hw'
    obtain ⟨-, j, hj⟩ := h.queued q' w hw'
    have := h.unique j j₀ w (Pc.token_of_waits hj) (Pc.token_of_waits hj₀)
    subst this
    rw [hj₀] at hj
    cases q <;> cases q' <;> simp_all [Queue.cls]
  have hne : ∀ q', ∀ v ∈ Function.update s.queue q rest q', v ∈ s.queue q' ∧ v ≠ w := by
    intro q' v hv
    by_cases hq' : q' = q
    · subst hq'
      rw [Function.update_self] at hv
      refine ⟨hq ▸ List.mem_cons_of_mem _ hv, ?_⟩
      rintro rfl
      exact (List.nodup_cons.mp hnodup).1 hv
    · rw [Function.update_of_ne hq'] at hv
      refine ⟨hv, ?_⟩
      rintro rfl
      exact hq' (hother q' hv)
  have hgrow : ∀ v, s.reserved v = true → Function.update s.reserved w true v = true := fun v hv => by
    by_cases hvw : v = w
    · rw [hvw, Function.update_self]
    · rwa [Function.update_of_ne hvw]
  refine ⟨h.fresh, h.unique, fun v hv => ?_, fun q' v hv => ?_, fun j c v hj hr => ?_, fun q' => ?_, h.scavenger,
    fun j v hv => ?_, fun v hv => hgrow v (h.admitted v hv)⟩
  · have hlt := h.fresh j₀ w (Pc.token_of_waits hj₀)
    change Function.update s.reserved w true v = false
    rw [Function.update_of_ne (fun hvw => by subst hvw; exact absurd hlt (Nat.not_lt.mpr hv))]
    exact h.blank v hv
  · obtain ⟨hv, hvw⟩ := hne q' v hv
    obtain ⟨hr, j, hj⟩ := h.queued q' v hv
    refine ⟨?_, j, hj⟩
    change Function.update s.reserved w true v = false
    rwa [Function.update_of_ne hvw]
  · change Function.update s.reserved w true v = false at hr
    change v ∈ Function.update s.queue q rest c.queue
    have hvw : v ≠ w := by
      rintro rfl
      rw [Function.update_self] at hr
      cases hr
    rw [Function.update_of_ne hvw] at hr
    have hv := h.waiting j c v hj hr
    by_cases hcq : c.queue = q
    · rw [hcq] at hv ⊢
      rw [hq] at hv
      rw [Function.update_self]
      exact (List.mem_cons.mp hv).resolve_left hvw
    · rwa [Function.update_of_ne hcq]
  · change (Function.update s.queue q rest q').Nodup
    by_cases hq' : q' = q
    · subst hq'
      rw [Function.update_self]
      exact (List.nodup_cons.mp hnodup).2
    · rw [Function.update_of_ne hq']
      exact h.nodup q'
  · change v ∈ Function.update s.wake i (s.wake i ++ [w]) j at hv
    by_cases hji : j = i
    · subst hji
      rw [Function.update_self] at hv
      rcases List.mem_append.mp hv with hv | hv
      · exact hgrow v (h.woken j v hv)
      · rw [List.mem_singleton.mp hv]
        exact Function.update_self _ _ _
    · rw [Function.update_of_ne hji] at hv
      exact hgrow v (h.woken j v hv)

/-- An acquire leaves its queue. -/
theorem Wf.leave (h : Wf s) (hw : (s.pc i).waits = some (c, w))
    (hr : s.reserved w = false) : Wf ((s.go i (.gone (some w))).dequeue c.queue w) := by
  have hpc : ∀ j, ((s.go i (.gone (some w))).dequeue c.queue w).pc j = if j = i then .gone (some w) else s.pc j :=
    fun j => by simp [State.go, State.dequeue, Function.update_apply]
  have htok : ∀ j v, (((s.go i (.gone (some w))).dequeue c.queue w).pc j).token = some v → (s.pc j).token = some v := by
    intro j v hv
    rw [hpc] at hv
    split_ifs at hv with hj
    · subst hj
      cases hv
      exact Pc.token_of_waits hw
    · exact hv
  have hmem : ∀ q v, v ∈ ((s.go i (.gone (some w))).dequeue c.queue w).queue q →
      v ∈ s.queue q ∧ (q = c.queue → v ≠ w) := by
    intro q v hv
    change v ∈ Function.update s.queue c.queue ((s.queue c.queue).erase w) q at hv
    by_cases hq : q = c.queue
    · subst hq
      rw [Function.update_self] at hv
      exact ⟨List.mem_of_mem_erase hv, fun _ hvw => (List.Nodup.not_mem_erase (h.nodup _)) (hvw ▸ hv)⟩
    · rw [Function.update_of_ne hq] at hv
      exact ⟨hv, fun hq' => absurd hq' hq⟩
  refine ⟨fun j v hv => h.fresh j v (htok j v hv), fun j k v hj hk => h.unique j k v (htok j v hj) (htok k v hk),
    h.blank, fun q v hv => ?_, fun j d v hv hr' => ?_, fun q => ?_, fun j d hd hd' => ?_, h.woken, h.admitted⟩
  · obtain ⟨hv, hvw⟩ := hmem q v hv
    obtain ⟨hres, j, hj⟩ := h.queued q v hv
    refine ⟨hres, j, ?_⟩
    rw [hpc, if_neg]
    · exact hj
    · rintro rfl
      rw [hw] at hj
      cases hj
      exact hvw (Queue.queue_cls q).symm rfl
  · rw [hpc] at hv
    split_ifs at hv with hj
    · exact nomatch hv
    · have hmem' := h.waiting j d v hv hr'
      change v ∈ Function.update s.queue c.queue ((s.queue c.queue).erase w) d.queue
      have hvw : v ≠ w := by
        rintro rfl
        exact hj (h.unique j i v (Pc.token_of_waits hv) (Pc.token_of_waits hw))
      by_cases hq : d.queue = c.queue
      · rw [hq] at hmem' ⊢
        rw [Function.update_self]
        exact (List.mem_erase_of_ne hvw).mpr hmem'
      · rwa [Function.update_of_ne hq]
  · change (Function.update s.queue c.queue ((s.queue c.queue).erase w) q).Nodup
    by_cases hq : q = c.queue
    · subst hq
      rw [Function.update_self]
      exact (h.nodup _).erase w
    · rw [Function.update_of_ne hq]
      exact h.nodup q
  · rw [hpc] at hd ⊢
    split_ifs at hd ⊢ with hj
    · exact nomatch hd
    · exact h.scavenger j d hd hd'

/-- **Waiters and queues** fit together after every action. -/
theorem Wf.step (h : Wf s) (hs : Step cfg s a s') : Wf s' := by
  cases hs with
  | acquireOnDemand hm hp =>
    refine (h.go (moves_of_decided (Pc.waits_of_free hp) rfl rfl ?_)).congr rfl rfl rfl rfl rfl rfl
    intro c hc hd
    rfl
  | refuseOnDemand hm hp => exact h.go (moves_of_decided (Pc.waits_of_free hp) rfl rfl fun c hc => nomatch hc)
  | fast hm hp hc ho =>
    refine (h.go (moves_of_decided (Pc.waits_of_free hp) rfl rfl ?_)).congr rfl rfl rfl rfl rfl rfl
    rintro c ⟨⟩ hd
    exact absurd hd hc
  | closed hm hp hc ho =>
    refine h.go (moves_of_decided (Pc.waits_of_free hp) rfl rfl ?_)
    rintro c ⟨⟩ hd
    exact absurd hd hc
  | @push i c b hm hp =>
    have hc : c ≠ .onDemand := fun hd => by
      have := h.scavenger i c (by rw [hp]; rfl) hd
      rw [hp] at this
      exact nomatch this
    refine h.push (by rw [hp]; rfl) hc ?_
    cases b <;> rfl
  | admitLocked hl ho hq hrank => exact h.admitLocked hq
  | unlock hl hd => exact h.congr rfl rfl rfl rfl rfl rfl
  | @signal i w rest hl hw =>
    refine ⟨h.fresh, h.unique, h.blank, h.queued, h.waiting, h.nodup, h.scavenger, fun j v hv => ?_, fun v hv => ?_⟩
    · change v ∈ Function.update s.wake i rest j at hv
      by_cases hj : j = i
      · subst hj
        rw [Function.update_self] at hv
        exact h.woken j v (hw ▸ List.mem_cons_of_mem _ hv)
      · rw [Function.update_of_ne hj] at hv
        exact h.woken j v hv
    · change Function.update s.admitted w true v = true at hv
      by_cases hv' : v = w
      · subst hv'
        exact h.woken i v (hw ▸ List.mem_cons_self)
      · rw [Function.update_of_ne hv'] at hv
        exact h.admitted v hv
  | @look i c w hm hp =>
    have hw : (s.pc i).waits = some (c, w) := by rw [hp]; rfl
    have hc := h.ne_onDemand hw
    cases hr : s.reserved w with
    | true =>
      refine h.go (moves_of_reserved hw hr (fun v hv => nomatch hv) rfl ?_)
      rintro d ⟨⟩ hd
      exact absurd hd hc
    | false => exact h.go (moves_of_waiting hw rfl hc)
  | @resume i c b w hm hp ha =>
    have hw : (s.pc i).waits = some (c, w) := by rw [hp]; rfl
    refine h.go (moves_of_reserved hw (h.admitted w ha) (fun v hv => nomatch hv) rfl ?_)
    rintro d ⟨⟩ hd
    exact absurd hd (h.ne_onDemand hw)
  | @expire i c w hm hp =>
    have hw : (s.pc i).waits = some (c, w) := by rw [hp]; rfl
    exact h.go (moves_of_waiting hw rfl (h.ne_onDemand hw))
  | @throws i c w hm hp =>
    have hw : (s.pc i).waits = some (c, w) := by rw [hp]; rfl
    exact h.go (moves_of_waiting hw rfl (h.ne_onDemand hw))
  | @adopt i c w hm hp hr =>
    have hw : (s.pc i).waits = some (c, w) := by rw [hp]; rfl
    refine h.go (moves_of_reserved hw hr (fun v hv => nomatch hv) rfl ?_)
    rintro d ⟨⟩ hd
    exact absurd hd (h.ne_onDemand hw)
  | giveUp hm hp hr => exact h.leave (by rw [hp]; rfl) hr
  | @handleReserved i c w hm hp hr =>
    have hw : (s.pc i).waits = some (c, w) := by rw [hp]; rfl
    refine h.go (moves_of_reserved hw hr (fun v hv => (Option.some.inj hv).symm) rfl ?_)
    rintro d ⟨⟩ hd
    exact absurd hd (h.ne_onDemand hw)
  | handleQueued hm hp hr => exact h.leave (by rw [hp]; rfl) hr
  | @giveBack i c w hm hp =>
    have hmoves : Moves s i (.gone (some w)) := by
      refine ⟨fun v hv => ?_, fun d v hv => (nomatch hv), fun d v hv => ?_, fun d hd => (nomatch hd)⟩
      · rw [hp]
        exact hv
      · rw [hp] at hv
        exact nomatch hv
    exact (h.go hmoves).congr rfl rfl rfl rfl rfl rfl
  | releaseOnDemand hm hp =>
    exact (h.go (moves_of_decided (p := .idle) (by rw [hp]; rfl) rfl rfl fun d hd => nomatch hd)).congr rfl rfl rfl rfl rfl rfl
  | releaseScavenger hm hp hc =>
    exact (h.go (moves_of_decided (p := .idle) (by rw [hp]; rfl) rfl rfl fun d hd => nomatch hd)).congr rfl rfl rfl rfl rfl rfl
  | note hm hp => exact h.congr rfl rfl rfl rfl rfl rfl

end OverlayBD.Admission
