import OverlayBD.Ublk.OwnerPumpBatch

/-!
# The owner pump and its wakes

`run_owner_pump` parks on one eventfd that everybody writes.  A wake is level-preserving only as long as
whoever takes the counter also does what the wake was for.  The parking read does: behind it the loop collects,
flushes and drains.  The reads inside `drive_owner_cq` do not: they take the counter for a hint that the
completion queue has something, and go on to enter the ring; a foreign guard's note, written after the turn's
collection, is taken with it, and the pump parks with the guard's result in the mailbox (`pump_parks_on_note`).

## What is proved

* `Engine.Waits` — a result still in the mailbox or in the owner's hands; `Waits.step` follows it.
* `Noted` — where each guard's note is; `Noted.step`.
* `parked_pump_idle` — if no hint takes the counter while a notified result waits, a parked pump has left no
  prepared reply, no delivered request and no notified result behind.
-/

namespace OverlayBD.Ublk

open Errno Transition

variable {n : ℕ}

/-! ### A result on its way to the sink -/

/-- The result that tag `t`'s guard left for generation `g` is in the mailbox, or the owner has taken it up. -/
inductive Engine.Waits (e : Engine n) (t : Fin n) (g : ℕ) : Prop
  | left (hg : (e.tags t).generation = g) (hf : (e.tags t).handlerFailed = true) (hr : (e.tags t).Ready)
  | taking {q : Option IoRequest} (ho : e.owner = .taking t q) (hg : (e.tags t).generation = g)
      (hr : (e.tags t).Ready)
  | settling {q : Option IoRequest} {r : Taken} (ho : e.owner = .settling t q (some r))
      (hg : (e.tags t).generation = g)

/-- A slot that is ready is neither empty nor armed. -/
theorem Tag.not_rests_of_slot {x : Tag} {f : Focus} (hslot : x.slot.state = mailboxState x.generation kReady) :
    ¬ x.Rests f := by
  intro hr
  cases f with
  | away =>
    rcases hr with hi | ha
    · exact mailboxState_ready_ne_zero _ (hslot.symm.trans hi.slot)
    · exact mailboxState_armed_ne_ready _ (ha.slot.symm.trans hslot)
  | activating => exact mailboxState_armed_ne_ready _ (hr.slot.symm.trans hslot)
  | _ => exact hr

theorem Tag.Ready.take {x : Tag} (h : x.Ready) : x.slot.take x.generation ≠ none := by
  unfold Slot.take
  rw [if_pos ⟨h.1.valid, h.1.slot⟩]
  nofun

theorem Tag.Ready.flags {x : Tag} (h : x.Ready) (failed : Bool) (handler : Handler) :
    Tag.Ready { x with handlerFailed := failed, handler := handler } :=
  ⟨⟨h.1.slot, h.1.busy, h.1.active, h.1.valid⟩, h.2⟩

namespace Engine.Waits

variable {e e' : Engine n} {t : Fin n} {g : ℕ}

/-- A waiting result's tag keeps what matters of it, whatever else a step does. -/
def SameTag (x y : Tag) : Prop :=
  y.generation = x.generation ∧ y.handlerFailed = x.handlerFailed ∧ y.slot = x.slot ∧ y.busy = x.busy ∧
    y.active = x.active ∧ y.handler = x.handler

theorem SameTag.refl (x : Tag) : SameTag x x := ⟨rfl, rfl, rfl, rfl, rfl, rfl⟩

theorem SameTag.ready {x y : Tag} (h : SameTag x y) (hr : x.Ready) : y.Ready := by
  obtain ⟨hg, -, hs, hb, ha, -⟩ := h
  refine ⟨⟨?_, hb.trans hr.1.busy, ?_, hg ▸ hr.1.valid⟩, ?_⟩
  · rw [hs, hg, hr.1.slot]
  · rw [ha, hg, hr.1.active]
  · rw [hs, hg, hr.2]

/-- One tag changes; if it is `t`, it keeps what matters. -/
theorem sameTag_update {u : Fin n} {x : Tag} (htags : e'.tags = Function.update e.tags u x)
    (hx : u = t → SameTag (e.tags t) x) : SameTag (e.tags t) (e'.tags t) := by
  rw [htags]
  rcases eq_or_ne u t with rfl | hu
  · rw [Function.update_self]
    exact hx rfl
  · rw [Function.update_of_ne hu.symm]
    exact .refl _

theorem left_of_same (hg : (e.tags t).generation = g) (hf : (e.tags t).handlerFailed = true)
    (hr : (e.tags t).Ready) (h : SameTag (e.tags t) (e'.tags t)) : e'.Waits t g :=
  .left (h.1.trans hg) (h.2.1.trans hf) (h.ready hr)

/-- Settling one tag does not touch another. -/
theorem settle_tags (e : Engine n) (u : Fin n) (q : Option IoRequest) (result : Option Taken) (throws : Bool) :
    (e.settle u q result throws).tags = Function.update e.tags u
      { e.tags u with active := 0, started := false, busy := false, ready := false } := by
  unfold Engine.settle
  cases result with
  | none => dsimp only; split_ifs <;> rfl
  | some r => cases throws <;> dsimp only [Bool.false_eq_true] <;> split_ifs <;> rfl

theorem settle_owner (e : Engine n) (u : Fin n) (q : Option IoRequest) (result : Option Taken) (throws : Bool) :
    (e.settle u q result throws).owner = .collecting (u.val + 1) q := by
  unfold Engine.settle
  cases result with
  | none => rfl
  | some r => cases throws <;> rfl

theorem settle_foreignPending (e : Engine n) (u : Fin n) (q : Option IoRequest) (result : Option Taken)
    (throws : Bool) : (e.settle u q result throws).foreignPending = e.foreignPending := by
  unfold Engine.settle
  cases result with
  | none => dsimp only; split_ifs <;> rfl
  | some r => cases throws <;> dsimp only [Bool.false_eq_true] <;> split_ifs <;> rfl

/-- What the sink is given. -/
theorem settle_published (e : Engine n) (u : Fin n) (q : Option IoRequest) (result : Option Taken)
    (throws : Bool) :
    (e.settle u q result throws).published = e.published ++ if throws then [] else
      result.toList.map fun r => ⟨u, (e.tags u).generation, r.result, r.producedFor, (e.tags u).current⟩ := by
  have h₁ : ∀ p : Prop, [Decidable p] → (if p then e.fail eproto else e).published = e.published := by
    intro p _
    split_ifs <;> rfl
  unfold Engine.settle
  cases result with
  | none => cases throws <;> exact (h₁ _).trans (List.append_nil _).symm
  | some r =>
    cases throws with
    | true => exact (h₁ _).trans (List.append_nil _).symm
    | false => exact congrArg (· ++ _) (h₁ _)

theorem settle_keys (e : Engine n) (u : Fin n) (q : Option IoRequest) (r : Taken) :
    (u, (e.tags u).generation) ∈ (e.settle u q (some r) false).keys := by
  refine List.mem_map.mpr ⟨⟨u, (e.tags u).generation, r.result, r.producedFor, (e.tags u).current⟩, ?_, rfl⟩
  rw [settle_published]
  exact List.mem_append_right _ (List.mem_singleton_self _)

/-- A busy tag is not admitted again. -/
theorem admission_sameTag (r : IoRequest) (hb : (e.tags t).busy = true) :
    SameTag (e.tags t) ((e.admission r).tags t) := by
  unfold Engine.admission
  dsimp only
  split
  next hlt =>
    have hne : (e.tags ⟨r.tag, hlt⟩).busy = false → (⟨r.tag, hlt⟩ : Fin n) ≠ t := by
      rintro hfree rfl
      exact absurd (hfree.symm.trans hb) (by decide)
    split_ifs with hbusy
    · exact .refl _
    · exact .refl _
    · have hu := hne (by simpa using hbusy)
      split
      next => exact sameTag_update (u := ⟨r.tag, hlt⟩) rfl fun h => absurd h hu
      next => exact sameTag_update (u := ⟨r.tag, hlt⟩) rfl fun h => absurd h hu
  next => exact .refl _

/-- A result in the mailbox stays there until the owner's scan takes it up. -/
theorem step_left (hsh : Shape e) (hg : (e.tags t).generation = g) (hf : (e.tags t).handlerFailed = true)
    (hr : (e.tags t).Ready) (hs : EStep e e') : e'.Waits t g := by
  obtain ⟨-, hab, hrest⟩ := (hsh.tags t).of_handlerFailed hf
  have haway : e.owner.focus t = .away := (hrest.resolve_left (Tag.not_rests_of_slot hr.1.slot)).1
  have hframe : ∀ {u : Fin n} {x : Tag} {hd : Handler}, (e.tags u).handler = hd → hd ≠ .absent → u = t →
      SameTag (e.tags t) x := by
    rintro u x hd hh hne rfl
    exact absurd (hh.symm.trans hab) hne
  have hplace : ∀ {u : Fin n} {x : Tag}, (u = t → e.owner.focus t ≠ .away) → u = t → SameTag (e.tags t) x :=
    fun h hu => absurd haway (h hu)
  have hkeep : SameTag (e.tags t) (e'.tags t) → e'.Waits t g := left_of_same hg hf hr
  cases hs with
  | collect | admitCall =>
    refine hkeep ?_
    unfold Engine.beginCollect
    split_ifs <;> exact .refl _
  | admitClosed | retryOutOfRange | scanNext | scanEnd | takeNone | signalFail | retireFail | pend =>
    exact hkeep (.refl _)
  | beginClose => exact hkeep ⟨rfl, rfl, rfl, rfl, rfl, rfl⟩
  | @retrySignal u => exact hkeep (sameTag_update (u := u) rfl fun hu => hu ▸ ⟨rfl, rfl, rfl, rfl, rfl, rfl⟩)
  | @signal u => exact hkeep (sameTag_update (u := u) rfl fun hu => hu ▸ ⟨rfl, rfl, rfl, rfl, rfl, rfl⟩)
  | @scanHit u q ho hfu =>
    rcases eq_or_ne u t with rfl | hu
    · refine .taking (q := q) rfl ?_ ?_
      · simpa [Engine.setTag] using hg
      · simpa [Engine.setTag] using hr.flags false (e.tags u).handler
    · exact hkeep (sameTag_update (u := u) rfl fun h => absurd h hu)
  | @takeSome u q slot result producedFor ho =>
    refine hkeep (sameTag_update (u := u) rfl (hplace ?_))
    rintro rfl
    simp [ho, Owner.focus]
  | @settle u q result throws ho =>
    refine hkeep (sameTag_update (u := u) (settle_tags e u q result throws) (hplace ?_))
    rintro rfl
    simp [ho, Owner.focus]
  | @admission r => exact hkeep (admission_sameTag r hr.1.busy)
  | @activate u ho =>
    refine hkeep (sameTag_update (u := u) rfl (hplace ?_))
    rintro rfl
    simp [ho, Owner.focus]
  | @retire u g' slot ho =>
    refine hkeep (sameTag_update (u := u) rfl (hplace ?_))
    rintro rfl
    simp [ho, Owner.focus]
  | @deactivate u ho =>
    refine hkeep (sameTag_update (u := u) rfl (hplace ?_))
    rintro rfl
    simp [ho, Owner.focus]
  | @loopTop u ho hh => exact hkeep (sameTag_update (u := u) rfl (hframe hh (by rintro ⟨⟩)))
  | @wake u hh => exact hkeep (sameTag_update (u := u) rfl (hframe hh (by rintro ⟨⟩)))
  | @enter u ho hh => exact hkeep (sameTag_update (u := u) rfl (hframe hh (by rintro ⟨⟩)))
  | @publish u _ _ _ _ ho hh => exact hkeep (sameTag_update (u := u) rfl (hframe hh (by rintro ⟨⟩)))
  | @destroy u hh =>
    refine hkeep (sameTag_update (u := u) rfl ?_)
    rintro rfl
    rw [hab] at hh
    exact hh.elim
  | @load u hh => exact hkeep (sameTag_update (u := u) rfl (hframe hh (by rintro ⟨⟩)))
  | @claim u _ _ hh => exact hkeep (sameTag_update (u := u) rfl (hframe hh (by rintro ⟨⟩)))
  | @claimFail u _ hh => exact hkeep (sameTag_update (u := u) rfl (hframe hh (by rintro ⟨⟩)))
  | @fill u _ hh => exact hkeep (sameTag_update (u := u) rfl (hframe hh (by rintro ⟨⟩)))
  | @ready u _ hh => exact hkeep (sameTag_update (u := u) rfl (hframe hh (by rintro ⟨⟩)))
  | @mark u hh => exact hkeep (sameTag_update (u := u) rfl (hframe hh (by rintro ⟨⟩)))

/-- While the owner collects, the steps that leave it where it is leave alone a tag without a frame. -/
theorem sameTag_of_scanning (hscan : e.owner.scanFrom.isSome) (hab : (e.tags t).handler = .absent)
    (hs : EStep e e') (hsame : e'.owner = e.owner) : SameTag (e.tags t) (e'.tags t) := by
  have hframe : ∀ {u : Fin n} {x : Tag} {hd : Handler}, (e.tags u).handler = hd → hd ≠ .absent → u = t →
      SameTag (e.tags t) x := by
    rintro u x hd hh hne rfl
    exact absurd (hh.symm.trans hab) hne
  cases hs with
  | @wake u hh => exact sameTag_update (u := u) rfl (hframe hh nofun)
  | @destroy u hh =>
    refine sameTag_update (u := u) rfl ?_
    rintro rfl
    rw [hab] at hh
    exact hh.elim
  | @load u hh => exact sameTag_update (u := u) rfl (hframe hh nofun)
  | @claim u _ _ hh => exact sameTag_update (u := u) rfl (hframe hh nofun)
  | @claimFail u _ hh => exact sameTag_update (u := u) rfl (hframe hh nofun)
  | @fill u _ hh => exact sameTag_update (u := u) rfl (hframe hh nofun)
  | @ready u _ hh => exact sameTag_update (u := u) rfl (hframe hh nofun)
  | @mark u hh => exact sameTag_update (u := u) rfl (hframe hh nofun)
  | pend | scanNext | scanEnd | takeNone => exact .refl _
  | @scanHit u q ho => simp_all
  | @takeSome u q _ _ _ ho => simp_all
  | @settle u q result throws ho =>
    rw [settle_owner, ho] at hsame
    cases hsame
  | _ => simp_all [Owner.scanFrom]

/-- The owner takes the result. -/
theorem step_taking {q : Option IoRequest} (hsh : Shape e) (ho : e.owner = .taking t q)
    (hg : (e.tags t).generation = g) (hr : (e.tags t).Ready) (hs : EStep e e') : e'.Waits t g := by
  by_cases hsame : e'.owner = e.owner
  · have hfoc : e.owner.focus t = .taking := by simp [ho, Owner.focus]
    have hab := (hfoc ▸ hsh.tags t).of_taking.2.2.1
    have hx := sameTag_of_scanning (by simp [ho, Owner.scanFrom]) hab hs hsame
    exact .taking (hsame.trans ho) (hx.1.trans hg) (hx.ready hr)
  · cases hs with
    | @takeSome u q' slot result producedFor ho' _ _ =>
      obtain ⟨rfl, rfl⟩ : t = u ∧ q = q' := by simpa using ho.symm.trans ho'
      exact .settling rfl (by simpa [Engine.setTag] using hg)
    | @takeNone u q' ho' ht =>
      obtain ⟨rfl, rfl⟩ : t = u ∧ q = q' := by simpa using ho.symm.trans ho'
      exact absurd (ht.resolve_left hr.1.valid.1) hr.take
    | wake | destroy | load | claim | claimFail | fill | ready | mark | pend => exact absurd rfl hsame
    | _ => simp_all

end Engine.Waits

/-! ### A step of the engine under the pump -/

/-- A step of the engine under a sink that takes what it is given. -/
structure Engine.Moves (e e' : Engine n) : Prop where
  step : EStep e e'
  quiet : ∀ t q r, e.owner = .settling t q (some r) → e'.owner = e.owner ∨ e' = e.settle t q (some r) false

/-- The sink forgets nothing. -/
theorem EStep.published_append {e e' : Engine n} (hs : EStep e e') : ∃ l, e'.published = e.published ++ l := by
  have hsame : ∀ {x : Engine n}, x.published = e.published → ∃ l, x.published = e.published ++ l :=
    fun h => ⟨[], h.trans (List.append_nil _).symm⟩
  cases hs with
  | collect | admitCall =>
    refine hsame ?_
    unfold Engine.beginCollect
    split_ifs <;> rfl
  | settle => exact ⟨_, Engine.Waits.settle_published _ _ _ _ _⟩
  | admission =>
    refine hsame ?_
    unfold Engine.admission
    dsimp only
    split
    · split_ifs
      · rfl
      · rfl
      · split <;> rfl
    · rfl
  | publish => exact ⟨_, rfl⟩
  | _ => exact hsame rfl

theorem EStep.keys_subset {e e' : Engine n} (hs : EStep e e') : e.keys ⊆ e'.keys := by
  obtain ⟨l, hl⟩ := hs.published_append
  unfold Engine.keys
  rw [hl, List.map_append]
  exact List.subset_append_left _ _

/-- **A result is in the mailbox or in the owner's hands until the sink has it.** -/
theorem Engine.Waits.step {e e' : Engine n} {t : Fin n} {g : ℕ} (h : e.Waits t g) (hsh : Shape e)
    (hs : e.Moves e') : (t, g) ∈ e'.keys ∨ e'.Waits t g := by
  cases h with
  | left hg hf hr => exact .inr (step_left hsh hg hf hr hs.step)
  | taking ho hg hr => exact .inr (step_taking hsh ho hg hr hs.step)
  | @settling q r ho hg =>
    rcases hs.quiet t q r ho with hsame | rfl
    · have hfoc : e.owner.focus t = .settling (some r) := by simp [ho, Owner.focus]
      have hab := (hfoc ▸ hsh.tags t).of_settling.2.1
      have hx := sameTag_of_scanning (by simp [ho, Owner.scanFrom]) hab hs.step hsame
      exact .inr (.settling (hsame.trans ho) (hx.1.trans hg))
    · exact .inl (hg ▸ settle_keys e t q r)

/-- The collection under way has yet to pass tag `t`, or has its result in hand. -/
def Engine.Collects (e : Engine n) (t : Fin n) : Prop :=
  (∃ k, e.owner.scanFrom = some k ∧ k ≤ t.val) ∨ (∃ q, e.owner = .taking t q) ∨ ∃ q r, e.owner = .settling t q r

namespace Engine.Collects

variable {e e' : Engine n} {t : Fin n} {g : ℕ}

theorem ofPump (h : e.Collects t) : e.owner.ofPump = true := by
  rcases h with ⟨k, hk, -⟩ | ⟨q, ho⟩ | ⟨q, r, ho⟩
  · cases ho : e.owner <;> rw [ho] at hk <;> first | rfl | cases hk
  · rw [ho]; rfl
  · rw [ho]; rfl

theorem congr (h : e.Collects t) (ho : e'.owner = e.owner) : e'.Collects t := by
  unfold Engine.Collects
  rw [ho]
  exact h

/-- The owner finds what the mailbox holds for tag `t` before its collection is past it. -/
theorem step (h : e.Collects t) (hw : e.Waits t g) (hsh : Shape e) (hs : e.Moves e') :
    (t, g) ∈ e'.keys ∨ e'.Collects t := by
  by_cases hsame : e'.owner = e.owner
  · exact .inr (h.congr hsame)
  have hscan : e.owner.scanFrom.isSome := by
    rcases h with ⟨k, hk, -⟩ | ⟨q, ho⟩ | ⟨q, r, ho⟩
    · simp [hk]
    · simp [ho, Owner.scanFrom]
    · simp [ho, Owner.scanFrom]
  have hquiet := hs.quiet
  cases hs.step with
  | @scanNext u q ho hf =>
    have hle : u.val ≤ t.val := by simpa [Engine.Collects, ho, Owner.scanFrom] using h
    have hne : u ≠ t := by
      rintro rfl
      cases hw with
      | left _ hf' _ => exact absurd (hf.symm.trans hf') (by decide)
      | taking ho' => simp [ho] at ho'
      | settling ho' => simp [ho] at ho'
    exact .inr (.inl ⟨_, rfl, Nat.lt_of_le_of_ne hle fun he => hne (Fin.ext he)⟩)
  | @scanHit u q ho hf =>
    have hle : u.val ≤ t.val := by simpa [Engine.Collects, ho, Owner.scanFrom] using h
    rcases eq_or_ne u t with rfl | hne
    · exact .inr (.inr (.inl ⟨q, rfl⟩))
    · exact .inr (.inl ⟨_, rfl, Nat.lt_of_le_of_ne hle fun he => hne (Fin.ext he)⟩)
  | @scanEnd q ho =>
    have hle : n ≤ t.val := by simpa [Engine.Collects, ho, Owner.scanFrom] using h
    exact absurd t.isLt (Nat.not_lt.mpr hle)
  | @takeSome u q slot result producedFor ho _ _ =>
    rcases h with ⟨k, hk, hle⟩ | ⟨q', ho'⟩ | ⟨q', r, ho'⟩
    · rw [ho] at hk
      exact .inr (.inl ⟨k, hk, hle⟩)
    · obtain ⟨rfl, rfl⟩ : u = t ∧ q = q' := by simpa using ho.symm.trans ho'
      exact .inr (.inr (.inr ⟨_, _, rfl⟩))
    · simp [ho] at ho'
  | @takeNone u q ho _ =>
    rcases h with ⟨k, hk, hle⟩ | ⟨q', ho'⟩ | ⟨q', r, ho'⟩
    · rw [ho] at hk
      exact .inr (.inl ⟨k, hk, hle⟩)
    · obtain ⟨rfl, rfl⟩ : u = t ∧ q = q' := by simpa using ho.symm.trans ho'
      exact .inr (.inr (.inr ⟨_, _, rfl⟩))
    · simp [ho] at ho'
  | @settle u q result throws ho =>
    rcases h with ⟨k, hk, hle⟩ | ⟨q', ho'⟩ | ⟨q', r, ho'⟩
    · rw [ho] at hk
      exact .inr (.inl ⟨k, by rw [Waits.settle_owner]; exact hk, hle⟩)
    · simp [ho] at ho'
    · -- what the owner has in hand for the tag is the result that waited
      obtain ⟨rfl, rfl, rfl⟩ : u = t ∧ q = q' ∧ result = r := by simpa using ho.symm.trans ho'
      cases hw with
      | left hg hf hr =>
        have hfoc : e.owner.focus u = .settling result := by simp [ho, Owner.focus]
        exact absurd ((hfoc ▸ hsh.tags u).of_settling.1.symm.trans hf) (by decide)
      | taking ho'' => simp [ho] at ho''
      | @settling q'' r' ho'' hg =>
        obtain ⟨rfl, rfl⟩ : q = q'' ∧ result = some r' := by simpa using ho.symm.trans ho''
        rcases hquiet u q r' ho with hs' | hs'
        · exact absurd hs' hsame
        · rw [hs', ← hg]
          exact .inl (Waits.settle_keys e u q r')
  | wake | destroy | load | claim | claimFail | fill | ready | mark | pend => exact absurd rfl hsame
  | _ => simp_all [Owner.scanFrom]

end Engine.Collects

/-- A collection is under way, or the next one starts from the first tag. -/
def Engine.Due (e : Engine n) (t : Fin n) : Prop := e.foreignPending = true ∨ e.Collects t

/-- `collect_foreign_results` starts from the first tag. -/
theorem Engine.beginCollect_collects {e : Engine n} {q : Option IoRequest} (h : e.foreignPending = true) (t : Fin n) :
    (e.beginCollect q).Collects t := by
  unfold Engine.beginCollect
  rw [if_pos h]
  exact .inl ⟨0, rfl, Nat.zero_le _⟩

theorem Engine.Due.step {e e' : Engine n} {t : Fin n} {g : ℕ} (h : e.Due t) (hw : e.Waits t g) (hsh : Shape e)
    (hs : e.Moves e') : (t, g) ∈ e'.keys ∨ e'.Due t := by
  rcases h with hp | hc
  · right
    cases hs.step with
    | collect | admitCall => exact .inr (Engine.beginCollect_collects hp t)
    | settle => exact .inl ((Engine.Waits.settle_foreignPending _ _ _ _ _).trans hp)
    | admission =>
      left
      unfold Engine.admission
      dsimp only
      split
      · split_ifs
        · exact hp
        · exact hp
        · split <;> exact hp
      · exact hp
    | pend => exact .inl rfl
    | _ => exact .inl hp
  · exact (hc.step hw hsh hs).imp_right .inr

/-- Steps that move the owner neither close the engine nor count a guard. -/
theorem EStep.closed_late {e e' : Engine n} (hs : EStep e e') (hmove : e'.owner ≠ e.owner) :
    e'.closed = e.closed ∧ e'.late = e.late := by
  cases hs with
  | collect | admitCall =>
    unfold Engine.beginCollect
    split_ifs <;> exact ⟨rfl, rfl⟩
  | @settle t q result throws =>
    unfold Engine.settle
    cases result with
    | none => dsimp only; split_ifs <;> exact ⟨rfl, rfl⟩
    | some r => cases throws <;> dsimp only [Bool.false_eq_true] <;> split_ifs <;> exact ⟨rfl, rfl⟩
  | admission =>
    unfold Engine.admission
    dsimp only
    split
    · split_ifs
      · exact ⟨rfl, rfl⟩
      · exact ⟨rfl, rfl⟩
      · split <;> exact ⟨rfl, rfl⟩
    · exact ⟨rfl, rfl⟩
  | mark | pend | beginClose => exact absurd rfl hmove
  | _ => exact ⟨rfl, rfl⟩

/-! ### The notes -/

/-- The loop collects before it does anything else, or is over. -/
def PumpPc.beforeCollect : PumpPc → Bool
  | .awake | .top | .exited => true
  | _ => false

/-- **Where each guard's note is.** -/
structure Noted (s : Pump n) : Prop where
  engine : Invariant s.engine
  closed : s.engine.closed = false
  late : s.engine.late = s.marked.length
  place : s.engine.owner.ofHandler = true → s.pc.suspended = true
  waits : ∀ t g, (t, some g) ∈ s.marked ∨ (t, some g) ∈ s.pended ∨ (t, some g) ∈ s.notified →
    (t, g) ∈ s.engine.keys ∨ s.engine.Waits t g
  due : ∀ t g, (t, some g) ∈ s.pended ∨ (t, some g) ∈ s.notified → (t, g) ∈ s.engine.keys ∨ s.engine.Due t
  wake : ∀ t g, (t, some g) ∈ s.notified →
    (t, g) ∈ s.engine.keys ∨ s.engine.Collects t ∨ 0 < s.counter ∨ s.pc.beforeCollect = true

theorem noted_start (n : ℕ) : Noted (Pump.start n) where
  engine := invariant_create n
  closed := rfl
  late := rfl
  place := nofun
  waits := fun _ _ h => by rcases h with h | h | h <;> cases h
  due := fun _ _ h => by rcases h with h | h <;> cases h
  wake := nofun

theorem Owner.not_ofHandler {o : Owner n} (h : o.ofPump = true) : o.ofHandler = false := by
  cases o <;> first | rfl | cases h

variable {s s' : Pump n} {a : PumpAct}

/-- Between its calls, and not suspended, the pump leaves the engine's owner idle. -/
theorem Noted.idle (h : Noted s) (hb : Batched s) (hcall : s.pc.inCall = false) (hsus : s.pc.suspended = false) :
    s.engine.owner = .idle := by
  have hp := hb.not_ofPump hcall
  have hh : ¬ s.engine.owner.ofHandler = true := fun hh => absurd (h.place hh) (by simp [hsus])
  cases hown : s.engine.owner <;> simp_all [Owner.ofPump, Owner.ofHandler]

/-- **What a step of the pump does to the engine.** -/
theorem Noted.moves (h : Noted s) (hb : Batched s) (hs : PStep s a s') :
    s'.engine = s.engine ∨ s.engine.Moves s'.engine := by
  -- the steps from an owner that settles nothing
  have hfrom : ∀ {e : Engine n} {o : Owner n}, EStep s.engine e → s.engine.owner = o →
      (∀ t q r, o ≠ .settling t q r) → s.engine.Moves e := by
    intro e o hst ho hne
    exact ⟨hst, fun t q r ht => absurd (ho.symm.trans ht) (hne t q (some r))⟩
  cases hs with
  | loop hpc =>
    have hi := h.idle hb (by rw [hpc]; rfl) (by rw [hpc]; rfl)
    exact .inr (hfrom (.collect hi) hi nofun)
  | pop hpc =>
    have hi := h.idle hb (by rw [hpc]; rfl) (by rw [hpc]; rfl)
    exact .inr (hfrom (.collect hi) hi nofun)
  | collect ho hpc hp hst hmv hquiet => exact .inr ⟨hst, fun t q r ht => .inr (hquiet t q r ht)⟩
  | admitCall hpc ho hi => exact .inr (hfrom (.admitCall hi h.closed) hi nofun)
  | @admission more r hpc ho hi =>
    right
    split <;> exact hfrom (.admission hi) hi nofun
  | activate hpc ho hi => exact .inr (hfrom (.activate hi) hi nofun)
  | signal hpc ho hi => exact .inr (hfrom (.signal hi) hi nofun)
  | signalFail hpc ho hi => exact .inr (hfrom (.signalFail hi) hi nofun)
  | spawnThrows hpc ho hi => exact .inr (hfrom (.signalFail hi) hi nofun)
  | retry hpc ho hi => exact .inr (hfrom (.retrySignal hi) hi nofun)
  | @handler e io hpc ho hst hmv =>
    refine .inr ⟨hst, fun t q r ht => ?_⟩
    rcases hmv with ⟨hi, -⟩ | ⟨hi, -⟩
    · rw [hi] at ht
      cases ht
    · rw [ht] at hi
      cases hi
  | background hst hsame => exact .inr ⟨hst, fun _ _ _ _ => .inl hsame⟩
  | mark hh => exact .inr ⟨.mark hh, fun _ _ _ _ => .inl rfl⟩
  | pend ha =>
    have hlate : 0 < s.engine.late := h.late ▸ List.length_pos_of_mem ha
    exact .inr ⟨.pend hlate, fun _ _ _ _ => .inl rfl⟩
  | _ => exact .inl rfl

theorem Noted.engine_step (h : Noted s) (hb : Batched s) (hs : PStep s a s') : Invariant s'.engine := by
  rcases h.moves hb hs with he | hm
  · exact he ▸ h.engine
  · exact h.engine.run (.single hm.step)

theorem Noted.keys_subset (h : Noted s) (hb : Batched s) (hs : PStep s a s') : s.engine.keys ⊆ s'.engine.keys := by
  rcases h.moves hb hs with he | hm
  · rw [he]
    exact List.Subset.refl _
  · exact hm.step.keys_subset

/-- The engine stays open, and the guards between their two stores are those with a mark. -/
theorem Noted.closed_late_step (h : Noted s) (hs : PStep s a s') :
    s'.engine.closed = false ∧ s'.engine.late = s'.marked.length := by
  have hmoved : ∀ {e : Engine n}, EStep s.engine e → e.owner ≠ s.engine.owner →
      e.closed = false ∧ e.late = s.marked.length := by
    intro e hst hmv
    obtain ⟨hc, hl⟩ := hst.closed_late hmv
    exact ⟨hc.trans h.closed, hl.trans h.late⟩
  have hcollect : ∀ q : Option IoRequest,
      (s.engine.beginCollect q).closed = false ∧ (s.engine.beginCollect q).late = s.marked.length := by
    intro q
    unfold Engine.beginCollect
    split_ifs <;> exact ⟨h.closed, h.late⟩
  cases hs with
  | loop | pop | admitCall => exact hcollect _
  | collect ho hpc hp hst hmv hquiet => exact hmoved hst hmv
  | @admission more r hpc ho hi =>
    have hx : (s.engine.admission r).closed = s.engine.closed ∧ (s.engine.admission r).late = s.engine.late := by
      refine (EStep.admission hi).closed_late ?_
      rw [hi]
      unfold Engine.admission
      dsimp only
      split
      · split_ifs
        · nofun
        · nofun
        · split <;> nofun
      · nofun
    split <;> exact ⟨hx.1.trans h.closed, hx.2.trans h.late⟩
  | @handler e io hpc ho hst hmv =>
    refine hmoved hst ?_
    rcases hmv with ⟨hi, hh⟩ | ⟨-, hmv⟩
    · intro heq
      have hown : e.owner = .idle := heq.trans hi
      rw [hown] at hh
      cases hh
    · exact hmv
  | background hst hsame hlate hclosed => exact ⟨hclosed.trans h.closed, hlate.trans h.late⟩
  | mark hh => exact ⟨h.closed, congrArg (· + 1) h.late⟩
  | @pend x ha =>
    refine ⟨h.closed, ?_⟩
    show s.engine.late - 1 = (s.marked.erase x).length
    rw [List.length_erase_of_mem ha, h.late]
  | _ => exact ⟨h.closed, h.late⟩

/-- A handler has the owner only while the pump is suspended. -/
theorem Noted.place_step (h : Noted s) (hs : PStep s a s') :
    s'.engine.owner.ofHandler = true → s'.pc.suspended = true := by
  have haway : ∀ {pc : PumpPc} {P : Prop}, s.pc = pc → pc.suspended = false → s.engine.owner.ofHandler = true → P := by
    intro pc P hpc hno hh
    have hsus := h.place hh
    rw [hpc, hno] at hsus
    cases hsus
  have hcollect : ∀ {q : Option IoRequest} {P : Prop}, (s.engine.beginCollect q).owner.ofHandler = true → P := by
    intro q P hh
    unfold Engine.beginCollect at hh
    split_ifs at hh
    · cases hh
    · cases q <;> cases hh
  cases hs with
  | loop | pop | admitCall => exact hcollect
  | leave hpc | flush hpc | enter hpc | enterFail hpc | hint hpc | noHint hpc | hintFail hpc | popNone hpc =>
    exact haway hpc rfl
  | collected hpc | stopNow hpc | sleep hpc | park hpc => exact haway hpc rfl
  | @collect e io ho hpc hp hst =>
    intro hh
    rcases ofPump_or_idle_of_scan hst hp with hown | hown
    · exact absurd ((Owner.not_ofHandler hown).symm.trans hh) Bool.false_ne_true
    · rw [show (s.absorb e io).engine.owner = .idle from hown] at hh
      cases hh
  | @admission more r hpc ho hi =>
    have hx : (s.engine.admission r).owner.ofHandler = false := by
      unfold Engine.admission
      dsimp only
      split
      · split_ifs
        · rfl
        · rfl
        · split <;> rfl
      · rfl
    intro hh
    split at hh <;> exact absurd (hx.symm.trans hh) Bool.false_ne_true
  | activate | signal | signalFail | spawnThrows => nofun
  | retry hpc ho hi =>
    intro hh
    rw [show (s.engine.setTag _ _).owner = .idle from hi] at hh
    cases hh
  | unpark | unparkFail => exact fun _ => rfl
  | resume hpc ho hi =>
    intro hh
    rw [show s.engine.owner = .idle from hi] at hh
    cases hh
  | handler hpc => exact fun _ => hpc
  | background hst hsame =>
    intro hh
    exact h.place (hsame ▸ hh)
  | _ => exact h.place

/-- Who holds a note before and after a step. -/
theorem PStep.notes (hs : PStep s a s') (x : Note n) :
    (x ∈ s'.marked → x ∈ s.marked ∨ ∃ t, x = (t, (s.engine.tags t).left) ∧ (s.engine.tags t).handler = .marking ∧
      s'.engine = { s.engine.setTag t { s.engine.tags t with handlerFailed := true, handler := .absent } with
        late := s.engine.late + 1 }) ∧
    (x ∈ s'.pended → x ∈ s.pended ∨ (x ∈ s.marked ∧ s'.engine.foreignPending = true)) ∧
    (x ∈ s'.notified → x ∈ s.notified ∨ (x ∈ s.pended ∧ 0 < s'.counter)) := by
  cases hs with
  | @admission more r hpc ho hi => split <;> exact ⟨.inl, .inl, .inl⟩
  | @mark t hh =>
    refine ⟨fun hx => ?_, .inl, .inl⟩
    rcases List.mem_cons.mp hx with rfl | hx
    · exact .inr ⟨t, rfl, hh, rfl⟩
    · exact .inl hx
  | @pend y ha =>
    refine ⟨fun hx => .inl (List.mem_of_mem_erase hx), fun hx => ?_, .inl⟩
    rcases List.mem_cons.mp hx with rfl | hx
    · exact .inr ⟨ha, rfl⟩
    · exact .inl hx
  | @notify y ha =>
    refine ⟨.inl, fun hx => .inl (List.mem_of_mem_erase hx), fun hx => ?_⟩
    rcases List.mem_cons.mp hx with rfl | hx
    · exact .inr ⟨ha, Nat.succ_pos _⟩
    · exact .inl hx
  | _ => exact ⟨.inl, .inl, .inl⟩

/-- What is left of a wake: only a hint takes it for nothing, and only the loop's collection spends it. -/
theorem PStep.wakes (hs : PStep s a s') :
    a = .hint ∨ (s.pc = .top ∧ s'.engine = s.engine.beginCollect none) ∨
      (0 < s.counter ∨ s.pc.beforeCollect = true → 0 < s'.counter ∨ s'.pc.beforeCollect = true) := by
  -- the loop leaves a place where it does not collect next
  have hgo : ∀ {s'' : Pump n} {pc : PumpPc}, s.pc = pc → pc.beforeCollect = false → s''.counter = s.counter →
      (0 < s.counter ∨ s.pc.beforeCollect = true → 0 < s''.counter ∨ s''.pc.beforeCollect = true) := by
    intro s'' pc hpc hno hc hw
    rw [hpc, hno] at hw
    exact .inl (hc ▸ hw.resolve_right Bool.false_ne_true)
  cases hs with
  | loop hpc => exact .inr (.inl ⟨hpc, rfl⟩)
  | hint => exact .inl rfl
  | leave | resume => exact .inr (.inr fun _ => .inr rfl)
  | unpark => exact .inr (.inr fun _ => .inr rfl)
  | spawnThrows => exact .inr (.inr fun _ => .inr rfl)
  | stopNow => exact .inr (.inr fun _ => .inr rfl)
  | @admission more r hpc ho hi =>
    right; right
    split
    · exact id
    · exact fun _ => .inr rfl
  | collected hpc | flush hpc | enter hpc | enterFail hpc | noHint hpc | hintFail hpc | pop hpc | popNone hpc =>
    exact .inr (.inr (hgo hpc rfl rfl))
  | admitCall hpc | signal hpc | signalFail hpc | retry hpc | sleep hpc | park hpc | unparkFail hpc =>
    exact .inr (.inr (hgo hpc rfl rfl))
  | write | notify | signalled => exact .inr (.inr fun _ => .inl (Nat.succ_pos _))
  | _ => exact .inr (.inr id)

/-- The condition: a hint takes the counter only when every notified result has reached the sink. -/
def HintsSpare (s : Pump n) (a : PumpAct) : Prop :=
  a = .hint → ∀ t g, (t, some g) ∈ s.notified → (t, g) ∈ s.engine.keys

namespace Noted

/-- The guard stores `handler_failed`: what it has left in the slot waits from now on. -/
theorem waits_mark (h : Noted s) {t : Fin n} {g : ℕ} (hh : (s.engine.tags t).handler = .marking)
    (hleft : (s.engine.tags t).left = some g)
    (he : s'.engine = { s.engine.setTag t { s.engine.tags t with handlerFailed := true, handler := .absent } with
      late := s.engine.late + 1 }) : s'.engine.Waits t g := by
  have hready : (s.engine.tags t).slot.state = mailboxState (s.engine.tags t).generation kReady ∧
      (s.engine.tags t).generation = g := by
    unfold Tag.left at hleft
    split_ifs at hleft with hst
    exact ⟨hst, Option.some.inj hleft⟩
  have hr : (s.engine.tags t).Ready := by
    rcases ((h.engine.shape.tags t).of_marking hh).2 with hrest | ⟨-, hr⟩
    · exact absurd hrest (Tag.not_rests_of_slot hready.1)
    · exact hr
  rw [he]
  exact .left (by simpa [Engine.setTag] using hready.2) (by simp [Engine.setTag])
    (by simpa [Engine.setTag] using hr.flags true .absent)

theorem waits_step (h : Noted s) (hb : Batched s) (hs : PStep s a s') (t : Fin n) (g : ℕ)
    (hx : (t, some g) ∈ s'.marked ∨ (t, some g) ∈ s'.pended ∨ (t, some g) ∈ s'.notified) :
    (t, g) ∈ s'.engine.keys ∨ s'.engine.Waits t g := by
  -- a note someone held already
  have hkept : (t, g) ∈ s.engine.keys ∨ s.engine.Waits t g → (t, g) ∈ s'.engine.keys ∨ s'.engine.Waits t g := by
    rintro (hk | hw)
    · exact .inl (h.keys_subset hb hs hk)
    · rcases h.moves hb hs with he | hm
      · exact .inr (he ▸ hw)
      · exact hw.step h.engine.shape hm
  obtain ⟨hmark, hpend, hnote⟩ := hs.notes (t, some g)
  rcases hx with hx | hx | hx
  · rcases hmark hx with hx | ⟨u, hxu, hh, he⟩
    · exact hkept (h.waits t g (.inl hx))
    · obtain ⟨rfl, hleft⟩ := Prod.mk.inj hxu
      exact .inr (h.waits_mark hh hleft.symm he)
  · rcases hpend hx with hx | ⟨hx, -⟩
    · exact hkept (h.waits t g (.inr (.inl hx)))
    · exact hkept (h.waits t g (.inl hx))
  · rcases hnote hx with hx | ⟨hx, -⟩
    · exact hkept (h.waits t g (.inr (.inr hx)))
    · exact hkept (h.waits t g (.inr (.inl hx)))

theorem due_step (h : Noted s) (hb : Batched s) (hs : PStep s a s') (t : Fin n) (g : ℕ)
    (hx : (t, some g) ∈ s'.pended ∨ (t, some g) ∈ s'.notified) : (t, g) ∈ s'.engine.keys ∨ s'.engine.Due t := by
  have hkept : (t, some g) ∈ s.pended ∨ (t, some g) ∈ s.notified → (t, g) ∈ s'.engine.keys ∨ s'.engine.Due t := by
    intro hx
    rcases h.due t g hx with hk | hd
    · exact .inl (h.keys_subset hb hs hk)
    · rcases h.moves hb hs with he | hm
      · exact .inr (he ▸ hd)
      · rcases h.waits t g (.inr hx) with hk | hw
        · exact .inl (h.keys_subset hb hs hk)
        · exact hd.step hw h.engine.shape hm
  obtain ⟨-, hpend, hnote⟩ := hs.notes (t, some g)
  rcases hx with hx | hx
  · rcases hpend hx with hx | ⟨-, hf⟩
    · exact hkept (.inl hx)
    · exact .inr (.inl hf)
  · rcases hnote hx with hx | ⟨hx, -⟩
    · exact hkept (.inr hx)
    · exact hkept (.inl hx)

theorem wake_step (h : Noted s) (hb : Batched s) (hok : HintsSpare s a) (hs : PStep s a s') (t : Fin n) (g : ℕ)
    (hx : (t, some g) ∈ s'.notified) :
    (t, g) ∈ s'.engine.keys ∨ s'.engine.Collects t ∨ 0 < s'.counter ∨ s'.pc.beforeCollect = true := by
  obtain ⟨-, -, hnote⟩ := hs.notes (t, some g)
  rcases hnote hx with hx | ⟨-, hc⟩
  · rcases h.wake t g hx with hk | hc | hw
    · exact .inl (h.keys_subset hb hs hk)
    · rcases h.moves hb hs with he | hm
      · exact .inr (.inl (he ▸ hc))
      · rcases h.waits t g (.inr (.inr hx)) with hk | hwait
        · exact .inl (h.keys_subset hb hs hk)
        · exact (hc.step hwait h.engine.shape hm).imp_right .inl
    · rcases hs.wakes with rfl | ⟨htop, he⟩ | hkeep
      · exact .inl (h.keys_subset hb hs (hok rfl t g hx))
      · -- the wake is spent on the collection that finds the result
        rcases h.due t g (.inr hx) with hk | hf | hc
        · exact .inl (h.keys_subset hb hs hk)
        · exact .inr (.inl (he ▸ Engine.beginCollect_collects hf t))
        · exact absurd hc.ofPump (hb.not_ofPump (by rw [htop]; rfl))
      · exact .inr (.inr (hkeep hw))
  · exact .inr (.inr (.inl hc))

theorem step (h : Noted s) (hb : Batched s) (hok : HintsSpare s a) (hs : PStep s a s') : Noted s' where
  engine := h.engine_step hb hs
  closed := (h.closed_late_step hs).1
  late := (h.closed_late_step hs).2
  place := h.place_step hs
  waits := h.waits_step hb hs
  due := h.due_step hb hs
  wake := h.wake_step hb hok hs

end Noted

/-- What holds along a run: the owner's own work and the guards' notes. -/
structure Awake (s : Pump n) : Prop where
  batched : Batched s
  noted : Noted s

theorem awake_of_reaches (h : Reaches PStep HintsSpare (Pump.start n) s) : Awake s := by
  refine h.invariant ⟨batched_start n, noted_start n⟩ fun s a s' hi hok hs => ?_
  exact ⟨hi.batched.step hs, hi.noted.step hi.batched hok hs⟩

/-- **A parked pump has nothing left to do.**  In every run whose hints spare the guards' wakes: when the pump
waits on an eventfd that nobody has written, no COMMIT is prepared and unsubmitted unless the handler that prepared
it is still about to write the eventfd, no delivered request is unpopped, and every result a guard has notified has
reached the sink. -/
theorem parked_pump_idle (h : Reaches PStep HintsSpare (Pump.start n) s) (hpc : s.pc = .parked)
    (hc : s.counter = 0) :
    (s.queue.prepared = [] ∨ 0 < s.queue.owed) ∧ s.queue.ring = [] ∧
      ∀ t g, (t, some g) ∈ s.notified → (t, g) ∈ s.engine.keys := by
  obtain ⟨hb, hn⟩ := awake_of_reaches h
  refine ⟨?_, hb.ring hpc, fun t g hx => ?_⟩
  · by_contra hne
    rw [not_or] at hne
    have := hb.parked hpc hne.1
    omega
  · rcases hn.wake t g hx with hk | hcol | hcnt | hbc
    · exact hk
    · exact absurd hcol.ofPump (hb.not_ofPump (by rw [hpc]; rfl))
    · omega
    · rw [hpc] at hbc
      cases hbc

/-! ### Two runs of one read

The kernel delivers a read, its handler starts to serve it, and the handler's frame is destroyed.  What matters is
when the guard's wake arrives. -/

/-- The kernel delivers a read on tag `0`, under the cookie of the initial command. -/
def firstRead : Cqe where
  userData := 2 ^ 16
  res := 0
  more := false
  request := ⟨0, .read, false, 0, 8⟩

/-- A submission that gets everything out. -/
def Io.good : Io where
  room := true
  flushed := 0
  flushError := false
  again := false
  submitError := false
  submitted := 0

/-- A background step that changes one tag. -/
theorem PStep.touch {s : Pump n} {t : Fin n} {x : Tag} (h : EStep s.engine (s.engine.setTag t x)) :
    PStep s .other (s.outside (s.engine.setTag t x)) :=
  .background h rfl rfl rfl

theorem PStep.flushGood {s : Pump n} (hpc : s.pc = .flushing) (ho : s.queue.owed = 0) :
    PStep s .other { s with queue := s.queue.flushOwnerCompletions Io.good, pc := .entering 0 0 } :=
  .flush hpc ho

theorem PStep.drained {s : Pump n} {consumed hints : ℕ} (batch : List Cqe) (hpc : s.pc = .entering consumed hints)
    (ho : s.queue.owed = 0) (hb : consumed + batch.length ≤ kCqTurn) :
    PStep s .other
      { s with queue := s.queue.drain batch, pc := Pump.drained (consumed + batch.length) hints false } :=
  .enter hpc ho hb

theorem PStep.collectGood {s : Pump n} {e : Engine n} (ho : s.queue.owed = 0)
    (hpc : s.pc = .collecting ∨ (∃ r more, s.pc = .collectingFor r more) ∨ ∃ more, s.pc = .admitting more)
    (hp : s.engine.owner.scanFrom.isSome) (hstep : EStep s.engine e) (hmove : e.owner ≠ s.engine.owner)
    (hquiet : ∀ t q r, s.engine.owner = .settling t q (some r) → e = s.engine.settle t q (some r) false) :
    PStep s .other (s.absorb e Io.good) :=
  .collect ho hpc hp hstep hmove hquiet

/-- The steps up to the handler's call of the source are common to the two runs. -/
theorem note_runs :
    (∃ s : Pump 1, Reaches PStep always (Pump.start 1) s ∧ s.pc = .parked ∧ s.counter = 0 ∧ s.queue.owed = 0 ∧
      s.notified = [(0, some 1)] ∧ s.engine.keys = []) ∧
    ∃ s : Pump 1, Reaches PStep HintsSpare (Pump.start 1) s ∧ s.pc = .parked ∧ s.counter = 0 ∧
      s.queue.owed = 0 ∧ s.notified = [(0, some 1)] := by
  have hok : ∀ s : Pump 1, HintsSpare s .other := fun _ => nofun
  have h₁ : Reaches PStep HintsSpare (Pump.start 1) _ := Reaches.refl.tail (.loop rfl rfl rfl rfl) (hok _)
  have h₂ := h₁.tail (.collected rfl rfl rfl) (hok _)
  have h₃ := h₂.tail (.flushGood rfl rfl) (hok _)
  have h₄ := h₃.tail (.drained [firstRead] rfl rfl (by decide)) (hok _)
  have h₅ := h₄.tail (.noHint rfl rfl rfl) (hok _)
  have h₆ := h₅.tail (.pop rfl rfl rfl rfl) (hok _)
  have h₇ := h₆.tail (.admitCall rfl rfl rfl) (hok _)
  have h₈ := h₇.tail (.admission rfl rfl rfl) (hok _)
  have h₉ := h₈.tail (.activate (t := 0) rfl rfl rfl) (hok _)
  have h₁₀ := h₉.tail (.signal (t := 0) rfl rfl rfl) (hok _)
  have h₁₁ := h₁₀.tail (.popNone rfl rfl (.inr rfl)) (hok _)
  have h₁₂ := h₁₁.tail (.park rfl rfl rfl rfl) (hok _)
  have h₁₃ := h₁₂.tail (.touch (.loopTop (t := 0) rfl rfl)) (hok _)
  have h₁₄ := h₁₃.tail (.touch (.wake (t := 0) rfl rfl)) (hok _)
  have h₁₅ := h₁₄.tail (.touch (.enter (t := 0) rfl rfl)) (hok _)
  constructor
  · -- the guard's wake arrives between the turn's collection and its hint
    have k₁ := (h₁₅.mono fun _ _ _ => trivial : Reaches PStep always (Pump.start 1) _)
    have k₂ := k₁.tail .signalled trivial
    have k₃ := k₂.tail (.unpark rfl (by decide)) trivial
    have k₄ := k₃.tail (.resume (.inl rfl) rfl rfl) trivial
    have k₅ := k₄.tail (.loop rfl rfl rfl rfl) trivial
    have k₆ := k₅.tail (.collected rfl rfl rfl) trivial
    have k₇ := k₆.tail (.flushGood rfl rfl) trivial
    have k₈ := k₇.tail (.drained [] rfl rfl (by decide)) trivial
    have k₉ := k₈.tail (.touch (.destroy (t := 0) trivial)) trivial
    have k₁₀ := k₉.tail (.touch (.load (t := 0) rfl)) trivial
    have k₁₁ := k₁₀.tail (.touch (.claim (t := 0) rfl rfl)) trivial
    have k₁₂ := k₁₁.tail (.touch (.fill (t := 0) rfl)) trivial
    have k₁₃ := k₁₂.tail (.touch (.ready (t := 0) rfl)) trivial
    have k₁₄ := k₁₃.tail (.mark (t := 0) rfl) trivial
    have k₁₅ := k₁₄.tail (.pend (.head _)) trivial
    have k₁₆ := k₁₅.tail (.notify (.head _)) trivial
    have k₁₇ := k₁₆.tail (.hint rfl rfl (by decide)) trivial
    have k₁₈ := k₁₇.tail (.drained [] rfl rfl (by decide)) trivial
    have k₁₉ := k₁₈.tail (.noHint rfl rfl rfl) trivial
    have k₂₀ := k₁₉.tail (.popNone rfl rfl (.inr rfl)) trivial
    have k₂₁ := k₂₀.tail (.park rfl rfl rfl rfl) trivial
    exact ⟨_, k₂₁, rfl, rfl, rfl, rfl, rfl⟩
  · -- it arrives at the parking read, and the loop collects behind it
    have k₁ := h₁₅.tail (.touch (.destroy (t := 0) trivial)) (hok _)
    have k₂ := k₁.tail (.touch (.load (t := 0) rfl)) (hok _)
    have k₃ := k₂.tail (.touch (.claim (t := 0) rfl rfl)) (hok _)
    have k₄ := k₃.tail (.touch (.fill (t := 0) rfl)) (hok _)
    have k₅ := k₄.tail (.touch (.ready (t := 0) rfl)) (hok _)
    have k₆ := k₅.tail (.mark (t := 0) rfl) (hok _)
    have k₇ := k₆.tail (.pend (.head _)) (hok _)
    have k₈ := k₇.tail (.notify (.head _)) (hok _)
    have k₉ := k₈.tail (.unpark rfl (by decide)) (hok _)
    have k₁₀ := k₉.tail (.resume (.inl rfl) rfl rfl) (hok _)
    have k₁₁ := k₁₀.tail (.loop rfl rfl rfl rfl) (hok _)
    have k₁₂ := k₁₁.tail (.collectGood rfl (.inl rfl) rfl (.scanHit (t := 0) rfl rfl) nofun nofun) (hok _)
    have k₁₃ := k₁₂.tail
      (.collectGood rfl (.inl rfl) rfl (.takeSome (t := 0) rfl (by decide) rfl) nofun nofun) (hok _)
    have k₁₄ := k₁₃.tail (.collectGood rfl (.inl rfl) rfl (@EStep.settle _ _ 0 _ _ false rfl) nofun
      (by rintro _ _ _ ⟨⟩; rfl)) (hok _)
    have k₁₅ := k₁₄.tail (.collectGood rfl (.inl rfl) rfl (.scanEnd rfl) nofun nofun) (hok _)
    have k₁₆ := k₁₅.tail (.collected rfl rfl rfl) (hok _)
    have k₁₇ := k₁₆.tail (.flushGood rfl rfl) (hok _)
    have k₁₈ := k₁₇.tail (.drained [] rfl rfl (by decide)) (hok _)
    have k₁₉ := k₁₈.tail (.noHint rfl rfl rfl) (hok _)
    have k₂₀ := k₁₉.tail (.popNone rfl rfl (.inr rfl)) (hok _)
    have k₂₁ := k₂₀.tail (.park rfl rfl rfl rfl) (hok _)
    exact ⟨_, k₂₁, rfl, rfl, rfl, rfl⟩

/-- A parked pump whose guard's result has been collected. -/
theorem parked_pump_idle_collected :
    ∃ s : Pump 1, Reaches PStep HintsSpare (Pump.start 1) s ∧ s.pc = .parked ∧ s.counter = 0 ∧
      s.queue.owed = 0 ∧ s.notified = [(0, some 1)] ∧ s.queue.prepared = [] ∧ s.queue.ring = [] ∧
      (0, 1) ∈ s.engine.keys := by
  obtain ⟨-, s, h, hpc, hc, ho, hn⟩ := note_runs
  obtain ⟨hprep, hring, hkeys⟩ := parked_pump_idle h hpc hc
  exact ⟨s, h, hpc, hc, ho, hn, hprep.resolve_right (by omega), hring, hkeys 0 1 (hn ▸ List.mem_singleton_self _)⟩

/-- **The hint takes a guard's wake.**  The pump is parked, nobody has written the eventfd, and the result that the
guard has notified the owner of has not been collected. -/
theorem pump_parks_on_note :
    ∃ (s : Pump 1) (t : Fin 1) (g : ℕ), Reaches PStep always (Pump.start 1) s ∧ s.pc = .parked ∧
      s.counter = 0 ∧ s.queue.owed = 0 ∧ (t, some g) ∈ s.notified ∧ (t, g) ∉ s.engine.keys := by
  obtain ⟨⟨s, h, hpc, hc, ho, hn, hk⟩, -⟩ := note_runs
  refine ⟨s, 0, 1, h, hpc, hc, ho, hn ▸ List.mem_singleton_self _, ?_⟩
  rw [hk]
  exact List.not_mem_nil

end OverlayBD.Ublk
