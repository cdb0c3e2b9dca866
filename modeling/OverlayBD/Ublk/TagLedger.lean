import OverlayBD.Ublk.TagConsistency

/-!
# The ledger of obligations

A request admitted to the tag engine is an obligation, a tag with a generation.  `Ledger` ties the obligations
to what the sink was given: an obligation is discharged by one publication, written off by a sticky failure,
or is the one its tag is still busy with.

## What is proved

* `Ledger.discharge`, `Ledger.close`, `Ledger.admitted` — the three ways an obligation moves.
* `Ledger.step` — every step keeps the ledger.
-/

namespace OverlayBD.Ublk

open Errno

variable {n : ℕ}

/-! ### The ledger -/

/-- The owner is completing the tag's obligation, already published. -/
def Owner.Finishing (o : Owner n) (t : Fin n) : Prop :=
  match o with
  | .retiring t' _ | .deactivating t' => t' = t
  | _ => False

/-- **The obligations and what the sink was given.** -/
structure Ledger (s : Engine n) : Prop where
  /-- A publication is for the generation admitted at that moment and was produced for it. -/
  sound : ∀ p ∈ s.published, p.current = some p.generation ∧ p.producedFor = p.generation ∧ p.key ∈ s.admitted
  once : s.keys.Nodup
  next : ∀ t, (s.tags t).generation < (s.tags t).nextGeneration
  bounded : ∀ o ∈ s.admitted, o.2 ≤ (s.tags o.1).generation
  opened : ∀ t, (s.tags t).busy = true → (t, (s.tags t).generation) ∈ s.admitted
  unpublished : ∀ t, (s.tags t).busy = true → ¬ s.owner.Finishing t → (t, (s.tags t).generation) ∉ s.keys
  finished : ∀ t, s.owner.Finishing t → (t, (s.tags t).generation) ∈ s.keys
  /-- Discharged, written off, or still open. -/
  settled : ∀ o ∈ s.admitted, o ∈ s.keys ∨ s.Failed ∨
    ((s.tags o.1).busy = true ∧ (s.tags o.1).generation = o.2)

namespace Ledger

variable {s s' : Engine n} {t : Fin n}

/-- Most steps do not touch what the ledger is about. -/
theorem frame (h : Ledger s) (hp : s'.published = s.published) (ha : s'.admitted = s.admitted)
    (hfail : s.Failed → s'.Failed) (hfin : ∀ t, s'.owner.Finishing t ↔ s.owner.Finishing t)
    (ht : ∀ t, (s'.tags t).busy = (s.tags t).busy ∧ (s'.tags t).generation = (s.tags t).generation ∧
      (s.tags t).nextGeneration ≤ (s'.tags t).nextGeneration) : Ledger s' where
  sound := by rw [hp, ha]; exact h.sound
  once := by unfold Engine.keys; rw [hp]; exact h.once
  next := by
    intro t
    rw [(ht t).2.1]
    exact (h.next t).trans_le (ht t).2.2
  bounded := by
    intro o ho
    rw [ha] at ho
    rw [(ht o.1).2.1]
    exact h.bounded o ho
  opened := by
    intro t hb
    rw [(ht t).1] at hb
    rw [ha, (ht t).2.1]
    exact h.opened t hb
  unpublished := by
    intro t hb hf
    rw [(ht t).1] at hb
    unfold Engine.keys
    rw [hp, (ht t).2.1]
    exact h.unpublished t hb fun hf' => hf ((hfin t).mpr hf')
  finished := by
    intro t hf
    unfold Engine.keys
    rw [hp, (ht t).2.1]
    exact h.finished t ((hfin t).mp hf)
  settled := by
    intro o ho
    rw [ha] at ho
    unfold Engine.keys
    rw [hp, (ht o.1).1, (ht o.1).2.1]
    exact (h.settled o ho).imp_right (Or.imp_left hfail)

/-- One tag changed, its obligation not. -/
theorem setTag (h : Ledger s) {x : Tag} (htags : s'.tags = Function.update s.tags t x)
    (hp : s'.published = s.published) (ha : s'.admitted = s.admitted) (hfail : s.Failed → s'.Failed)
    (hfin : ∀ t, s'.owner.Finishing t ↔ s.owner.Finishing t) (hb : x.busy = (s.tags t).busy)
    (hg : x.generation = (s.tags t).generation) (hn : (s.tags t).nextGeneration ≤ x.nextGeneration) :
    Ledger s' := by
  refine h.frame hp ha hfail hfin fun u => ?_
  rw [htags]
  rcases eq_or_ne u t with rfl | hu
  · rw [Function.update_self]
    exact ⟨hb, hg, hn⟩
  · rw [Function.update_of_ne hu]
    exact ⟨rfl, rfl, le_rfl⟩

theorem touch (h : Ledger s) {x : Tag} (hb : x.busy = (s.tags t).busy)
    (hg : x.generation = (s.tags t).generation) (hn : x.nextGeneration = (s.tags t).nextGeneration) :
    Ledger (s.setTag t x) :=
  h.setTag rfl rfl rfl id (fun _ => Iff.rfl) hb hg hn.ge

/-- The sink takes a result for the open obligation of tag `t`. -/
theorem discharge (h : Ledger s) {x : Tag} {p : Publication n} (htags : s'.tags = Function.update s.tags t x)
    (hp : s'.published = s.published ++ [p]) (ha : s'.admitted = s.admitted) (hfail : s.Failed → s'.Failed)
    (hg : x.generation = (s.tags t).generation) (hn : x.nextGeneration = (s.tags t).nextGeneration)
    (hkey : p.key = (t, (s.tags t).generation)) (hcur : p.current = some p.generation)
    (hprod : p.producedFor = p.generation) (hb : (s.tags t).busy = true) (hnf : ¬ s.owner.Finishing t)
    (hx : x.busy = false ∨ s'.owner.Finishing t)
    (hfin : ∀ u, u ≠ t → (s'.owner.Finishing u ↔ s.owner.Finishing u)) : Ledger s' := by
  have hkeys : s'.keys = s.keys ++ [(t, (s.tags t).generation)] := by
    unfold Engine.keys
    rw [hp, List.map_append, List.map_singleton, hkey]
  have hnew := h.unpublished t hb hnf
  refine ⟨?_, ?_, ?_, ?_, ?_, ?_, ?_, ?_⟩
  · intro q hq
    rw [hp] at hq
    rw [ha]
    rcases List.mem_append.mp hq with hq | hq
    · exact h.sound q hq
    · obtain rfl := List.mem_singleton.mp hq
      exact ⟨hcur, hprod, hkey ▸ h.opened t hb⟩
  · rw [hkeys, List.nodup_append]
    refine ⟨h.once, List.nodup_singleton _, fun a hain b hbin => ?_⟩
    obtain rfl := List.mem_singleton.mp hbin
    rintro rfl
    exact hnew hain
  · refine forall_tags (fun _ y => y.generation < y.nextGeneration) htags ?_ fun u _ => h.next u
    rw [hg, hn]
    exact h.next t
  · rw [ha]
    intro o ho
    refine forall_tags (fun u y => u = o.1 → o.2 ≤ y.generation) htags ?_ (fun u _ hu => hu ▸ h.bounded o ho) o.1 rfl
    intro hu
    rw [hg, hu]
    exact h.bounded o ho
  · rw [ha]
    refine forall_tags (fun u y => y.busy = true → (u, y.generation) ∈ s.admitted) htags ?_ fun u _ => h.opened u
    rw [hg]
    exact fun _ => h.opened t hb
  · rw [hkeys]
    refine forall_tags (fun u y => y.busy = true → ¬ s'.owner.Finishing u → (u, y.generation) ∉ _) htags ?_ ?_
    · exact fun hbx hfx => (hx.elim (fun hx => absurd (hx.symm.trans hbx) (by decide)) hfx).elim
    · intro u hu hbu hfu hmem
      rcases List.mem_append.mp hmem with hmem | hmem
      · exact h.unpublished u hbu (fun hf => hfu ((hfin u hu).mpr hf)) hmem
      · exact hu (congrArg Prod.fst (List.mem_singleton.mp hmem))
  · rw [hkeys]
    refine forall_tags (fun u y => s'.owner.Finishing u → (u, y.generation) ∈ _) htags ?_ ?_
    · rw [hg]
      exact fun _ => List.mem_append_right _ (List.mem_singleton_self _)
    · exact fun u hu hf => List.mem_append_left _ (h.finished u ((hfin u hu).mp hf))
  · intro o ho
    rw [ha] at ho
    rw [hkeys]
    rcases h.settled o ho with hmem | hF | ⟨hbo, hgo⟩
    · exact .inl (List.mem_append_left _ hmem)
    · exact .inr (.inl (hfail hF))
    · rcases eq_or_ne o.1 t with hu | hu
      · refine .inl (List.mem_append_right _ (List.mem_singleton.mpr ?_))
        rw [← hu, hgo]
      · rw [htags, Function.update_of_ne hu]
        exact .inr (.inr ⟨hbo, hgo⟩)

/-- The obligation of tag `t` is over: it was published, or the sink was told. -/
theorem close (h : Ledger s) {x : Tag} (htags : s'.tags = Function.update s.tags t x)
    (hp : s'.published = s.published) (ha : s'.admitted = s.admitted) (hfail : s.Failed → s'.Failed)
    (hg : x.generation = (s.tags t).generation) (hn : x.nextGeneration = (s.tags t).nextGeneration)
    (hb : x.busy = false) (hdone : (s.tags t).busy = true → (t, (s.tags t).generation) ∈ s.keys ∨ s'.Failed)
    (hfin : ∀ u, s'.owner.Finishing u ↔ u ≠ t ∧ s.owner.Finishing u) : Ledger s' := by
  have hkeys : s'.keys = s.keys := by
    unfold Engine.keys
    rw [hp]
  have hfree : x.busy ≠ true := by rw [hb]; decide
  refine ⟨?_, ?_, ?_, ?_, ?_, ?_, ?_, ?_⟩
  · rw [hp, ha]
    exact h.sound
  · rw [hkeys]
    exact h.once
  · refine forall_tags (fun _ y => y.generation < y.nextGeneration) htags ?_ fun u _ => h.next u
    rw [hg, hn]
    exact h.next t
  · rw [ha]
    intro o ho
    refine forall_tags (fun u y => u = o.1 → o.2 ≤ y.generation) htags ?_ (fun u _ hu => hu ▸ h.bounded o ho) o.1 rfl
    intro hu
    rw [hg, hu]
    exact h.bounded o ho
  · rw [ha]
    exact forall_tags (fun u y => y.busy = true → (u, y.generation) ∈ s.admitted) htags
      (fun hbx => absurd hbx hfree) fun u _ => h.opened u
  · rw [hkeys]
    exact forall_tags (fun u y => y.busy = true → ¬ s'.owner.Finishing u → (u, y.generation) ∉ s.keys) htags
      (fun hbx => absurd hbx hfree) fun u hu hbu hfu => h.unpublished u hbu fun hf => hfu ((hfin u).mpr ⟨hu, hf⟩)
  · rw [hkeys]
    exact forall_tags (fun u y => s'.owner.Finishing u → (u, y.generation) ∈ s.keys) htags
      (fun hf => absurd rfl ((hfin t).mp hf).1) fun u _ hf => h.finished u ((hfin u).mp hf).2
  · intro o ho
    rw [ha] at ho
    rw [hkeys]
    rcases h.settled o ho with hmem | hF | ⟨hbo, hgo⟩
    · exact .inl hmem
    · exact .inr (.inl (hfail hF))
    · rcases eq_or_ne o.1 t with hu | hu
      · rw [hu] at hbo hgo
        rw [show o = (t, (s.tags t).generation) from Prod.ext hu hgo.symm]
        exact (hdone hbo).imp_right .inl
      · rw [htags, Function.update_of_ne hu]
        exact .inr (.inr ⟨hbo, hgo⟩)

/-- A request is admitted: a new obligation for a tag without one. -/
theorem admitted (h : Ledger s) {x : Tag} (htags : s'.tags = Function.update s.tags t x)
    (hp : s'.published = s.published) (ha : s'.admitted = s.admitted ++ [(t, (s.tags t).nextGeneration)])
    (hfail : s.Failed → s'.Failed) (hg : x.generation = (s.tags t).nextGeneration)
    (hn : x.nextGeneration = (s.tags t).nextGeneration + 1) (hb : (s.tags t).busy = false)
    (hfin : ∀ u, ¬ s.owner.Finishing u) (hfin' : ∀ u, ¬ s'.owner.Finishing u) (hx : x.busy = true) :
    Ledger s' := by
  have hkeys : s'.keys = s.keys := by
    unfold Engine.keys
    rw [hp]
  refine ⟨?_, ?_, ?_, ?_, ?_, ?_, ?_, ?_⟩
  · intro q hq
    rw [hp] at hq
    rw [ha]
    exact ⟨(h.sound q hq).1, (h.sound q hq).2.1, List.mem_append_left _ (h.sound q hq).2.2⟩
  · rw [hkeys]
    exact h.once
  · refine forall_tags (fun _ y => y.generation < y.nextGeneration) htags ?_ fun u _ => h.next u
    rw [hg, hn]
    exact Nat.lt_succ_self _
  · intro o ho
    rw [ha] at ho
    rcases List.mem_append.mp ho with ho | ho
    · refine forall_tags (fun u y => u = o.1 → o.2 ≤ y.generation) htags ?_ ?_ o.1 rfl
      · intro hu
        rw [hg, hu]
        exact (h.bounded o ho).trans (h.next _).le
      · exact fun u _ hu => hu ▸ h.bounded o ho
    · obtain rfl := List.mem_singleton.mp ho
      rw [htags, Function.update_self, hg]
  · rw [ha]
    refine forall_tags (fun u y => y.busy = true → (u, y.generation) ∈ _) htags ?_ fun u _ hbu => ?_
    · rw [hg]
      exact fun _ => List.mem_append_right _ (List.mem_singleton_self _)
    · exact List.mem_append_left _ (h.opened u hbu)
  · rw [hkeys]
    refine forall_tags (fun u y => y.busy = true → ¬ s'.owner.Finishing u → (u, y.generation) ∉ s.keys) htags ?_
      fun u _ hbu _ => h.unpublished u hbu (hfin u)
    -- generations grow, so the new obligation is in no publication yet
    intro _ _ hmem
    rw [hg] at hmem
    obtain ⟨q, hq, hqk⟩ := List.mem_map.mp hmem
    have hbound := h.bounded _ (h.sound q hq).2.2
    rw [hqk] at hbound
    exact absurd hbound (Nat.not_le.mpr (h.next t))
  · exact fun u hfu => absurd hfu (hfin' u)
  · intro o ho
    rw [ha] at ho
    rw [hkeys]
    rcases List.mem_append.mp ho with ho | ho
    · rcases h.settled o ho with hmem | hF | ⟨hbo, hgo⟩
      · exact .inl hmem
      · exact .inr (.inl (hfail hF))
      · rcases eq_or_ne o.1 t with hu | hu
        · rw [hu] at hbo
          exact absurd (hb.symm.trans hbo) (by decide)
        · rw [htags, Function.update_of_ne hu]
          exact .inr (.inr ⟨hbo, hgo⟩)
    · obtain rfl := List.mem_singleton.mp ho
      rw [htags, Function.update_self]
      exact .inr (.inr ⟨hx, hg⟩)

end Ledger

theorem finishing_resume (q : Option IoRequest) (t : Fin n) : ¬ (Owner.resume q : Owner n).Finishing t := by
  cases q <;> exact id

theorem Ledger.beginCollect {s : Engine n} {q : Option IoRequest} (h : Ledger s) (ho : s.owner = .idle) :
    Ledger (s.beginCollect q) := by
  unfold Engine.beginCollect
  split_ifs
  · exact h.frame rfl rfl id (fun t => by rw [ho]; exact Iff.rfl) fun t => ⟨rfl, rfl, le_rfl⟩
  · refine h.frame rfl rfl id (fun t => ?_) fun t => ⟨rfl, rfl, le_rfl⟩
    rw [ho]
    exact ⟨fun hf => (finishing_resume q t hf).elim, fun hf => hf.elim⟩

theorem Ledger.settle {s : Engine n} {t : Fin n} {q : Option IoRequest} {result : Option Taken} {throws : Bool}
    (h : Ledger s) (hshape : Shape s) (ho : s.owner = .settling t q result) :
    Ledger (s.settle t q result throws) := by
  have ht := hshape.tags t
  rw [ho, show (Owner.settling t q result).focus t = .settling result from if_pos rfl] at ht
  have hnf : ∀ u, ¬ s.owner.Finishing u := fun u => by rw [ho]; exact id
  have hfin : ∀ u, (Owner.collecting (t.val + 1) q : Owner n).Finishing u ↔ u ≠ t ∧ s.owner.Finishing u :=
    fun u => ⟨fun hf => hf.elim, fun hf => (hnf u hf.2).elim⟩
  unfold Engine.settle
  obtain ⟨-, -, ⟨he, r, rfl, hp⟩ | ⟨rfl, hr⟩⟩ := ht.of_settling
  · simp only [he.busy, Option.isSome_some, ne_eq, not_true_eq_false, if_false]
    cases throws with
    | true =>
      exact h.close rfl rfl rfl (fun _ => Shape.failed_fail _ _) rfl rfl rfl
        (fun _ => .inr (Shape.failed_fail _ _)) hfin
    | false =>
      refine h.discharge rfl rfl rfl id rfl rfl rfl ?_ hp he.busy (hnf t) (.inl rfl) fun u _ => ?_
      · unfold Tag.current
        rw [he.busy]
        rfl
      · exact ⟨fun hf => hf.elim, fun hf => (hnf u hf).elim⟩
  · simp only [Option.isSome_none]
    split_ifs with hb
    · exact h.close rfl rfl rfl (fun _ => Shape.failed_fail _ _) rfl rfl rfl
        (fun _ => .inr (Shape.failed_fail s eproto)) hfin
    · exact h.close rfl rfl rfl id rfl rfl rfl (fun hb' => absurd hb' (by simpa using hb)) hfin

theorem Ledger.admission {s : Engine n} {r : IoRequest} (h : Ledger s) (ho : s.owner = .admitting r) :
    Ledger (s.admission r) := by
  have hnf : ∀ u, ¬ s.owner.Finishing u := fun u => by rw [ho]; exact id
  have h₀ : ∀ e : ℤ, Ledger ({ s with owner := .idle }.fail e) := fun e =>
    h.frame rfl rfl (fun _ => Shape.failed_fail _ _) (fun u => ⟨fun hf => hf.elim, fun hf => (hnf u hf).elim⟩)
      fun t => ⟨rfl, rfl, le_rfl⟩
  unfold Engine.admission
  simp only
  split
  next hlt =>
    split_ifs with hb hg
    · exact h₀ eio
    · exact h₀ eoverflow
    · split
      next =>
        exact h.setTag rfl rfl rfl (fun _ => Shape.failed_fail _ _)
          (fun u => ⟨fun hf => hf.elim, fun hf => (hnf u hf).elim⟩) rfl rfl (Nat.le_succ _)
      next slot harm =>
        exact h.admitted rfl rfl rfl id rfl rfl (by simpa using hb) hnf (fun _ => id) rfl
  next => exact h₀ eio

/-- **The step lemma of the ledger.** -/
theorem Ledger.step {s s' : Engine n} (h : Ledger s) (hshape : Shape s) (hs : EStep s s') : Ledger s' := by
  have hmove : ∀ {s' : Engine n}, s'.published = s.published → s'.admitted = s.admitted →
      (s.Failed → s'.Failed) → (∀ t, ¬ s.owner.Finishing t) → (∀ t, ¬ s'.owner.Finishing t) →
      s'.tags = s.tags → Ledger s' := fun hp ha hf hnf hnf' ht =>
    h.frame hp ha hf (fun t => iff_of_false (hnf' t) (hnf t)) fun t => by rw [ht]; exact ⟨rfl, rfl, le_rfl⟩
  cases hs with
  | collect ho | admitCall ho => exact h.beginCollect ho
  | admitClosed ho | retryOutOfRange ho =>
    exact h.frame rfl rfl (fun _ => Shape.failed_fail _ _) (fun _ => Iff.rfl) fun _ => ⟨rfl, rfl, le_rfl⟩
  | beginClose ho => exact h.frame rfl rfl id (fun _ => Iff.rfl) fun _ => ⟨rfl, rfl, le_rfl⟩
  | retrySignal ho => exact h.touch rfl rfl rfl
  | scanNext ho => exact hmove rfl rfl id (fun t => by rw [ho]; exact id) (fun _ => id) rfl
  | scanHit ho =>
    exact h.setTag rfl rfl rfl id (fun t => by rw [ho]; exact Iff.rfl) rfl rfl le_rfl
  | @scanEnd q ho => exact hmove rfl rfl id (fun t => by rw [ho]; exact id) (finishing_resume q) rfl
  | takeSome ho => exact h.setTag rfl rfl rfl id (fun t => by rw [ho]; exact Iff.rfl) rfl rfl le_rfl
  | takeNone ho => exact hmove rfl rfl id (fun t => by rw [ho]; exact id) (fun _ => id) rfl
  | settle ho => exact h.settle hshape ho
  | admission ho => exact h.admission ho
  | activate ho | signal ho =>
    exact h.setTag rfl rfl rfl id (fun t => by rw [ho]; exact Iff.rfl) rfl rfl le_rfl
  | signalFail ho => exact hmove rfl rfl id (fun t => by rw [ho]; exact id) (fun _ => id) rfl
  | loopTop ho hh => exact h.touch rfl rfl rfl
  | wake | destroy | load | claim | fill | ready => exact h.touch rfl rfl rfl
  | @enter t ho hh =>
    have hx : (s.tags t).enter.busy = (s.tags t).busy ∧ (s.tags t).enter.generation = (s.tags t).generation ∧
        (s.tags t).enter.nextGeneration = (s.tags t).nextGeneration := by
      unfold Tag.enter
      simp only
      split_ifs <;> exact ⟨rfl, rfl, rfl⟩
    exact h.touch hx.1 hx.2.1 hx.2.2
  | @publish t g writable r o ho hh =>
    obtain ⟨-, rfl, -, -, ha⟩ := (hshape.tags t).of_serving hh
    refine h.discharge rfl rfl rfl id rfl rfl rfl ?_ rfl ha.busy (by rw [ho]; exact id) (.inr rfl) fun u hu => ?_
    · unfold Tag.current
      rw [ha.busy]
      rfl
    · rw [ho]
      exact ⟨fun hf => hu hf.symm, fun hf => hf.elim⟩
  | retire ho => exact h.setTag rfl rfl rfl id (fun t => by rw [ho]; exact Iff.rfl) rfl rfl le_rfl
  | retireFail ho =>
    exact h.frame rfl rfl (fun _ => Shape.failed_fail s eproto) (fun t => by rw [ho]; exact Iff.rfl)
      fun _ => ⟨rfl, rfl, le_rfl⟩
  | @deactivate t ho =>
    refine h.close rfl rfl rfl id rfl rfl rfl (fun _ => .inl (h.finished t (by rw [ho]; exact rfl))) fun u => ?_
    rw [ho]
    exact ⟨fun hf => hf.elim, fun hf => hf.1 hf.2.symm⟩
  | claimFail => exact h.setTag rfl rfl rfl (fun _ => Shape.failed_fail _ _) (fun _ => Iff.rfl) rfl rfl le_rfl
  | mark => exact h.setTag rfl rfl rfl id (fun _ => Iff.rfl) rfl rfl le_rfl
  | pend => exact h.frame rfl rfl id (fun _ => Iff.rfl) fun _ => ⟨rfl, rfl, le_rfl⟩

end OverlayBD.Ublk
