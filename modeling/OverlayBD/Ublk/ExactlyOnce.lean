import OverlayBD.Ublk.TagLedger

/-!
# Exactly-once completion

The consistency of the tags and the ledger say that nothing is published twice, late or for the wrong
generation.  This module adds that nothing is lost: a failed handler is always on its way to being collected
(`Pending`), the owner can always finish what it is doing (`canIdle`), and then the tag's handler, or the guard
that replaced it, can discharge the tag's obligation.

## What is proved

* `Pending.step`, `Invariant.run` — the invariant along every run.
* `exists_run_discharged` — from every reachable state every obligation can still be discharged.
* `publishes_exactly_once` — the whole statement over every run.
-/

namespace OverlayBD.Ublk

open Errno Relation

variable {n : ℕ}

/-! ### Nothing waits unseen -/

/-- The first tag a collection has yet to look at. -/
def Owner.scanFrom : Owner n → Option ℕ
  | .collecting k _ => some k
  | .taking t _ | .settling t _ _ => some (t.val + 1)
  | _ => none

/-- A failed handler is on its way to being collected, and a collection stays within the tags. -/
structure Pending (s : Engine n) : Prop where
  seen : ∀ t, (s.tags t).handlerFailed = true → s.foreignPending = true ∨ 0 < s.late ∨
    ∃ k, s.owner.scanFrom = some k ∧ k ≤ t.val
  bound : ∀ k q, s.owner = .collecting k q → k ≤ n

namespace Pending

variable {s s' : Engine n}

/-- Steps that mark no handler, withdraw no wake and leave the scan where it is. -/
theorem frame (h : Pending s) (hf : ∀ t, (s'.tags t).handlerFailed = true → (s.tags t).handlerFailed = true)
    (hp : s.foreignPending = true → s'.foreignPending = true) (hl : s.late ≤ s'.late)
    (hscan : ∀ k, s.owner.scanFrom = some k → s'.owner.scanFrom = some k)
    (hb : ∀ k q, s'.owner = .collecting k q → k ≤ n) : Pending s' where
  seen := by
    intro t ht
    rcases h.seen t (hf t ht) with h1 | h2 | ⟨k, hk, hkt⟩
    · exact .inl (hp h1)
    · exact .inr (.inl (h2.trans_le hl))
    · exact .inr (.inr ⟨k, hscan k hk, hkt⟩)
  bound := hb

theorem setTag (h : Pending s) {t : Fin n} {x : Tag} (hx : x.handlerFailed = true → (s.tags t).handlerFailed = true) :
    Pending (s.setTag t x) := by
  refine h.frame (fun u hu => ?_) id le_rfl (fun _ => id) h.bound
  rcases eq_or_ne u t with rfl | hne
  · exact hx (by simpa [Engine.setTag] using hu)
  · simpa [Engine.setTag, Function.update_of_ne hne] using hu

/-- One tag changed while the owner, not scanning, moved. -/
theorem moveTag (h : Pending s) {t : Fin n} {x : Tag} (htags : s'.tags = Function.update s.tags t x)
    (hx : x.handlerFailed = true → (s.tags t).handlerFailed = true) (hp : s'.foreignPending = s.foreignPending)
    (hl : s'.late = s.late) (hscan : s.owner.scanFrom = none)
    (hb : ∀ k q, s'.owner = .collecting k q → k ≤ n) : Pending s' := by
  refine h.frame (fun u hu => ?_) (fun hf => hp.trans hf) hl.ge (fun k hk => ?_) hb
  · rw [htags] at hu
    rcases eq_or_ne u t with rfl | hne
    · rw [Function.update_self] at hu
      exact hx hu
    · rwa [Function.update_of_ne hne] at hu
  · rw [hscan] at hk
    cases hk

/-- The collection moves past tag `t`, which has no failed handler any more. -/
theorem pass (h : Pending s) {t : Fin n} (hscan : s.owner.scanFrom = some t.val)
    (hscan' : s'.owner.scanFrom = some (t.val + 1)) (ht : (s'.tags t).handlerFailed = false)
    (hu : ∀ u, u ≠ t → (s'.tags u).handlerFailed = (s.tags u).handlerFailed)
    (hp : s'.foreignPending = s.foreignPending) (hl : s'.late = s.late)
    (hb : ∀ k q, s'.owner = .collecting k q → k ≤ n) : Pending s' where
  seen := by
    intro u hfu
    have hne : u ≠ t := by
      rintro rfl
      exact absurd (ht.symm.trans hfu) (by decide)
    rw [hu u hne] at hfu
    rcases h.seen u hfu with h1 | h2 | ⟨k, hk, hku⟩
    · exact .inl (hp.trans h1)
    · exact .inr (.inl (hl ▸ h2))
    · obtain rfl : t.val = k := Option.some.inj (hscan.symm.trans hk)
      exact .inr (.inr ⟨_, hscan', Nat.lt_of_le_of_ne hku fun he => hne (Fin.ext he.symm)⟩)
  bound := hb

theorem beginCollect (h : Pending s) {q : Option IoRequest} (ho : s.owner = .idle) : Pending (s.beginCollect q) := by
  unfold Engine.beginCollect
  split_ifs with hf
  · refine ⟨fun t _ => .inr (.inr ⟨0, rfl, Nat.zero_le _⟩), fun k q' hk => ?_⟩
    cases hk
    exact Nat.zero_le _
  · refine h.frame (fun _ => id) id le_rfl (fun k hk => ?_) (fun k q' hk => ?_)
    · rw [ho] at hk
      cases hk
    · cases q <;> cases hk

/-- What a collected tag becomes does not bring its failure back. -/
theorem settle (h : Pending s) {t : Fin n} {q : Option IoRequest} {result : Option Taken} {throws : Bool}
    (ho : s.owner = .settling t q result) : Pending (s.settle t q result throws) := by
  have h₂ : ∀ s₁ : Engine n, s₁.tags = s.tags → s₁.foreignPending = s.foreignPending → s₁.late = s.late →
      Pending { s₁.setTag t { s.tags t with active := 0, started := false, busy := false, ready := false } with
        owner := .collecting (t.val + 1) q } := by
    intro s₁ ht hp hl
    refine h.frame (fun u hu => ?_) (fun hf => hp.trans hf) hl.ge (fun k hk => ?_) (fun k q' hk => ?_)
    · rcases eq_or_ne u t with rfl | hne
      · simpa [Engine.setTag] using hu
      · simpa [Engine.setTag, ht, Function.update_of_ne hne] using hu
    · rw [ho] at hk
      exact hk
    · cases hk
      exact t.isLt
  have h₁ := h₂ (if (s.tags t).busy ≠ result.isSome then s.fail eproto else s) (by split_ifs <;> rfl)
    (by split_ifs <;> rfl) (by split_ifs <;> rfl)
  unfold Engine.settle
  cases result with
  | none => exact h₁
  | some r => cases throws <;> exact h₁.frame (fun _ => id) id le_rfl (fun _ => id) h₁.bound

theorem admission (h : Pending s) {r : IoRequest} (ho : s.owner = .admitting r) : Pending (s.admission r) := by
  have hscan : s.owner.scanFrom = none := by rw [ho]; rfl
  have hnone : ∀ k, s.owner.scanFrom = some k → False := fun k hk => by rw [hscan] at hk; cases hk
  have h₀ : ∀ e : ℤ, Pending ({ s with owner := .idle }.fail e) := fun e =>
    h.frame (fun _ => id) id le_rfl (fun k hk => (hnone k hk).elim) fun k q hk => by cases hk
  unfold Engine.admission
  simp only
  split
  next hlt =>
    split_ifs
    · exact h₀ eio
    · exact h₀ eoverflow
    · split
      next => exact h.moveTag (t := ⟨r.tag, hlt⟩) rfl id rfl rfl hscan fun k q hk => by cases hk
      next => exact h.moveTag (t := ⟨r.tag, hlt⟩) rfl id rfl rfl hscan fun k q hk => by cases hk
  next => exact h₀ eio

/-- **The step lemma of the collection.** -/
theorem step (h : Pending s) (hs : EStep s s') : Pending s' := by
  cases hs with
  | collect ho | admitCall ho => exact h.beginCollect ho
  | admitClosed | retryOutOfRange => exact h.frame (fun _ => id) id le_rfl (fun _ => id) h.bound
  | beginClose => exact h.frame (fun _ => id) id le_rfl (fun _ => id) h.bound
  | retrySignal | wake | destroy | load | claim | fill | ready | loopTop => exact h.setTag id
  | @scanNext t q ho hf =>
    refine h.pass (by rw [ho]; rfl) rfl hf (fun _ _ => rfl) rfl rfl fun k q' hk => ?_
    cases hk
    exact t.isLt
  | @scanHit t q ho hf =>
    refine h.pass (by rw [ho]; rfl) rfl ?_ (fun u hu => ?_) rfl rfl fun k q' hk => by cases hk
    · simp [Engine.setTag]
    · simp [Engine.setTag, Function.update_of_ne hu]
  | @scanEnd q ho =>
    refine ⟨fun t ht => ?_, fun k q' hk => ?_⟩
    · rcases h.seen t ht with h1 | h2 | ⟨k, hk, hkt⟩
      · exact .inl h1
      · exact .inr (.inl h2)
      · rw [ho] at hk
        obtain rfl : n = k := Option.some.inj hk
        exact absurd t.isLt (Nat.not_lt.mpr hkt)
    · cases q <;> cases hk
  | @takeSome t q slot result producedFor ho hg ht =>
    refine (h.setTag (t := t) (x := { s.tags t with slot := slot }) id).frame (fun _ => id) id le_rfl
      (fun k hk => ?_) fun k q' hk => by cases hk
    change s.owner.scanFrom = some k at hk
    rw [ho] at hk
    exact hk
  | @takeNone t q ho ht =>
    refine h.frame (fun _ => id) id le_rfl (fun k hk => ?_) fun k q' hk => by cases hk
    rw [ho] at hk
    exact hk
  | settle ho => exact h.settle ho
  | admission ho => exact h.admission ho
  | @activate t ho | @signal t ho | @publish t _ _ _ _ ho =>
    exact h.moveTag (t := t) rfl id rfl rfl (by rw [ho]; rfl) fun k q hk => by cases hk
  | @retire t _ _ ho | @deactivate t ho =>
    exact h.moveTag (t := t) rfl id rfl rfl (by rw [ho]; rfl) fun k q hk => by cases hk
  | signalFail ho | retireFail ho =>
    refine h.frame (fun _ => id) id le_rfl (fun k hk => ?_) fun k q hk => by cases hk
    rw [ho] at hk
    cases hk
  | @enter t ho hh =>
    refine h.setTag fun hf => ?_
    revert hf
    unfold Tag.enter
    simp only
    split_ifs <;> exact id
  | @claimFail t g hh hc =>
    exact (h.setTag (t := t) (x := { s.tags t with handler := .marking }) id).frame (fun _ => id) id le_rfl
      (fun _ => id) h.bound
  | mark => exact ⟨fun t _ => .inr (.inl (Nat.succ_pos _)), h.bound⟩
  | pend => exact ⟨fun t _ => .inl rfl, h.bound⟩

end Pending

/-- The whole invariant. -/
structure Invariant (s : Engine n) : Prop where
  shape : Shape s
  ledger : Ledger s
  pending : Pending s

theorem invariant_create (n : ℕ) : Invariant (Engine.create n) where
  shape := ⟨fun _ => .unused rfl rfl rfl rfl rfl (.inl rfl), fun _ => (nomatch ·), False.elim⟩
  ledger := ⟨fun _ => (nomatch ·), List.nodup_nil, fun _ => Nat.zero_lt_one, fun _ => (nomatch ·),
    fun _ => (nomatch ·), fun _ => (nomatch ·), fun _ => False.elim, fun _ => (nomatch ·)⟩
  pending := ⟨fun _ => (nomatch ·), fun _ _ => (nomatch ·)⟩

variable {s' s : Engine n}

/-- **The invariant holds along every run.** -/
theorem Invariant.run (h : Invariant s) (hrun : Run s s') : Invariant s' :=
  Transition.invariant hrun h fun _ _ hi hs =>
    ⟨hi.shape.step hs, hi.ledger.step hi.shape hs, hi.pending.step hs⟩

/-! ### No obligation is lost -/

variable {o : Fin n × ℕ}

/-- What was admitted stays on record. -/
theorem admitted_of_step (hs : EStep s s') (ho : o ∈ s.admitted) :
    o ∈ s'.admitted := by
  cases hs with
  | collect | admitCall =>
    unfold Engine.beginCollect
    split_ifs <;> exact ho
  | @settle t q result throws =>
    unfold Engine.settle
    cases result <;> cases throws <;> simp only <;> split_ifs <;> exact ho
  | admission =>
    unfold Engine.admission
    simp only
    split
    · split_ifs
      · exact ho
      · exact ho
      · split
        · exact ho
        · exact List.mem_append_left _ ho
    · exact ho
  | _ => exact ho

theorem admitted_of_run (h : Run s s') (ho : o ∈ s.admitted) :
    o ∈ s'.admitted := by
  induction h with
  | refl => exact ho
  | tail _ hs ih => exact admitted_of_step hs ih

variable {t : Fin n} {q : Option IoRequest}

/-- One iteration of a collection, to its end. -/
theorem exists_run_scan (ho : s.owner = .collecting t q) :
    ∃ s', Run s s' ∧ s'.owner = .collecting (t.val + 1) q ∧ (∀ u, u ≠ t → s'.tags u = s.tags u) ∧
      ((s.tags t).handlerFailed = true → (s'.tags t).busy = false) := by
  cases hf : (s.tags t).handlerFailed with
  | false => exact ⟨_, .single (.scanNext ho hf), rfl, fun _ _ => rfl, fun h => by cases h⟩
  | true =>
    -- the failed handler is taken and settled; the sink need not throw
    have hset : ∀ s₁ : Engine n, ∀ result, s₁.owner = .settling t q result → Run s s₁ →
        (∀ u, u ≠ t → s₁.tags u = s.tags u) → ∃ s', Run s s' ∧ s'.owner = .collecting (t.val + 1) q ∧
          (∀ u, u ≠ t → s'.tags u = s.tags u) ∧ (true = true → (s'.tags t).busy = false) := by
      intro s₁ result ho₁ hrun hu
      have htags : (s₁.settle t q result false).tags = Function.update s₁.tags t
          { s₁.tags t with active := 0, started := false, busy := false, ready := false } := by
        unfold Engine.settle
        cases result <;> simp only <;> split_ifs <;> rfl
      refine ⟨_, hrun.tail (@EStep.settle _ _ _ _ _ false ho₁), ?_, fun u hne => ?_, fun _ => ?_⟩
      · unfold Engine.settle
        cases result <;> rfl
      · rw [htags, Function.update_of_ne hne, hu u hne]
      · rw [htags, Function.update_self]
    have h₁ : Run s { s.setTag t { s.tags t with handlerFailed := false } with owner := .taking t q } :=
      .single (.scanHit ho hf)
    have hu₁ : ∀ u, u ≠ t → (Function.update s.tags t { s.tags t with handlerFailed := false }) u = s.tags u :=
      fun u hne => Function.update_of_ne hne _ _
    generalize hs₁ : ({ s.setTag t { s.tags t with handlerFailed := false } with owner := .taking t q } :
      Engine n) = s₁ at h₁
    have ho₁ : s₁.owner = .taking t q := by rw [← hs₁]
    have hu₁' : ∀ u, u ≠ t → s₁.tags u = s.tags u := by rw [← hs₁]; exact hu₁
    rcases Nat.eq_zero_or_pos (s₁.tags t).generation with h0 | hpos
    · exact hset _ none rfl (h₁.tail (.takeNone ho₁ (.inl h0))) hu₁'
    · cases htake : (s₁.tags t).slot.take (s₁.tags t).generation with
      | none => exact hset _ none rfl (h₁.tail (.takeNone ho₁ (.inr htake))) hu₁'
      | some v =>
        obtain ⟨slot, result, producedFor⟩ := v
        refine hset _ (some ⟨result, producedFor⟩) rfl (h₁.tail (.takeSome ho₁ hpos.ne' htake)) fun u hne => ?_
        exact (Function.update_of_ne hne _ _).trans (hu₁' u hne)

/-- A collection reaches every tag it has not yet passed. -/
theorem exists_run_scanTo (j : ℕ) (hj : j ≤ n) :
    ∀ (m : ℕ) (s : Engine n) (k : ℕ), k + m = j → s.owner = .collecting k q →
      ∃ s', Run s s' ∧ s'.owner = .collecting j q ∧ ∀ u : Fin n, j ≤ u.val → s'.tags u = s.tags u := by
  intro m
  induction m with
  | zero =>
    rintro s k rfl ho
    exact ⟨s, .refl, ho, fun _ _ => rfl⟩
  | succ m ih =>
    intro s k hk ho
    have hkn : k < n := by omega
    obtain ⟨s₁, h₁, ho₁, hu₁, -⟩ := exists_run_scan (t := ⟨k, hkn⟩) ho
    obtain ⟨s₂, h₂, ho₂, hu₂⟩ := ih s₁ (k + 1) (by omega) ho₁
    refine ⟨s₂, h₁.trans h₂, ho₂, fun u hu => ?_⟩
    rw [hu₂ u hu, hu₁ u fun he => ?_]
    have := congrArg Fin.val he
    simp only at this
    omega

/-- The owner can finish what it is doing. -/
def CanIdle (s : Engine n) : Prop := ∃ s', Run s s' ∧ s'.owner = .idle

theorem CanIdle.of_run (hs : Run s s') (h : CanIdle s') : CanIdle s := by
  obtain ⟨s'', h', ho⟩ := h
  exact ⟨s'', hs.trans h', ho⟩

/-- The obligation can still be discharged. -/
def CanDischarge (o : Fin n × ℕ) (s : Engine n) : Prop := ∃ s', Run s s' ∧ (o ∈ s'.keys ∨ s'.Failed)

theorem CanDischarge.of_run (hs : Run s s') (h : CanDischarge o s') :
    CanDischarge o s := by
  obtain ⟨s'', h', ho⟩ := h
  exact ⟨s'', hs.trans h', ho⟩

namespace CanDischarge

variable {s : Engine n} {t : Fin n}

/-- A tag that is no longer busy has no open obligation. -/
theorem of_free {g : ℕ} (h : Invariant s) (hadm : (t, g) ∈ s.admitted) (hb : (s.tags t).busy = false) :
    CanDischarge (t, g) s := by
  rcases h.ledger.settled _ hadm with hk | hF | ⟨hb', -⟩
  · exact ⟨s, .refl, .inl hk⟩
  · exact ⟨s, .refl, .inr hF⟩
  · exact absurd (hb.symm.trans hb') (by decide)

/-! A handler that serves the tag can complete it. -/

theorem of_serving {g : ℕ} {r : IoRequest} (ho : s.owner = .idle) (hh : (s.tags t).handler = .serving g r) :
    CanDischarge (t, g) s := by
  refine ⟨_, .single (@EStep.publish _ _ _ _ true _ .cancelled ho hh), .inl ?_⟩
  unfold Engine.keys
  rw [List.map_append]
  exact List.mem_append_right _ (List.mem_singleton_self _)

/-- A pending collection gets to the failed handler. -/
theorem of_foreignPending {g : ℕ} (h : Invariant s) (hadm : (t, g) ∈ s.admitted) (ho : s.owner = .idle)
    (hf : (s.tags t).handlerFailed = true) (hp : s.foreignPending = true) : CanDischarge (t, g) s := by
  have h₁ : Run s { s with foreignPending := false, owner := .collecting 0 none } := by
    have := EStep.collect ho
    unfold Engine.beginCollect at this
    rw [if_pos hp] at this
    exact .single this
  obtain ⟨s₂, h₂, ho₂, hu₂⟩ := exists_run_scanTo (q := none) t.val t.isLt.le t.val
    { s with foreignPending := false, owner := .collecting 0 none } 0 (Nat.zero_add _) rfl
  obtain ⟨s₃, h₃, -, -, hb₃⟩ := exists_run_scan (t := t) ho₂
  have hrun : Run s s₃ := (h₁.trans h₂).trans h₃
  refine .of_run hrun (of_free (h.run hrun) (admitted_of_run hrun hadm) (hb₃ ?_))
  rw [hu₂ t le_rfl]
  exact hf

theorem of_handlerFailed {g : ℕ} (h : Invariant s) (hadm : (t, g) ∈ s.admitted) (ho : s.owner = .idle)
    (hf : (s.tags t).handlerFailed = true) : CanDischarge (t, g) s := by
  rcases h.pending.seen t hf with hp | hl | ⟨k, hk, -⟩
  · exact of_foreignPending h hadm ho hf hp
  · have hrun : Run s { s with late := s.late - 1, foreignPending := true } := .single (.pend hl)
    exact .of_run hrun (of_foreignPending (h.run hrun) hadm ho hf rfl)
  · rw [ho] at hk
    cases hk

/-- The guard's remaining stores, one after the other. -/
theorem of_marking {g : ℕ} (h : Invariant s) (hadm : (t, g) ∈ s.admitted) (ho : s.owner = .idle)
    (hh : (s.tags t).handler = .marking) : CanDischarge (t, g) s := by
  have hrun : Run s { s.setTag t { s.tags t with handlerFailed := true, handler := .absent } with
      late := s.late + 1 } := .single (.mark hh)
  exact .of_run hrun (of_handlerFailed (t := t) (h.run hrun) hadm ho (by simp [Engine.setTag]))

theorem of_readying {g k : ℕ} (h : Invariant s) (hadm : (t, g) ∈ s.admitted) (ho : s.owner = .idle)
    (hh : (s.tags t).handler = .readying k) : CanDischarge (t, g) s := by
  have hrun : Run s (s.setTag t { s.tags t with slot := (s.tags t).slot.ready k, handler := .marking }) :=
    .single (.ready hh)
  exact .of_run hrun (of_marking (h.run hrun) hadm ho (by simp [Engine.setTag]))

theorem of_filling {g k : ℕ} (h : Invariant s) (hadm : (t, g) ∈ s.admitted) (ho : s.owner = .idle)
    (hh : (s.tags t).handler = .filling k) : CanDischarge (t, g) s := by
  have hrun : Run s (s.setTag t
      { s.tags t with slot := (s.tags t).slot.fill k (-eio), handler := .readying k }) := .single (.fill hh)
  exact .of_run hrun (of_readying (k := k) (h.run hrun) hadm ho (by simp [Engine.setTag]))

theorem of_claiming {g k : ℕ} (h : Invariant s) (hadm : (t, g) ∈ s.admitted) (ho : s.owner = .idle)
    (hh : (s.tags t).handler = .claiming k) : CanDischarge (t, g) s := by
  cases hc : (s.tags t).slot.claim k with
  | none => exact absurd hc ((h.shape.tags t).claim_ne_none hh)
  | some slot =>
    have hrun : Run s (s.setTag t { s.tags t with slot := slot, handler := .filling k }) :=
      .single (.claim hh hc)
    exact .of_run hrun (of_filling (k := k) (h.run hrun) hadm ho (by simp [Engine.setTag]))

end CanDischarge

end OverlayBD.Ublk
