import Mathlib.Algebra.BigOperators.Group.Finset.Piecewise
import Mathlib.Data.Fintype.Card
import Mathlib.Logic.Relation

/-!
# Transition systems

A system is a relation between states, or between states under an action.  What holds initially and is kept
by every step holds in every state a run reaches.  A run may also be asked to take only *allowed* actions, a
condition on the state before the step and the action.

* `invariant` — the invariant rule for unlabelled systems.
* `Reaches step ok s s'` — some run of allowed steps leads from `s` to `s'`; `ok` is `always` for all runs.
* `Reaches.invariant` — the invariant rule for it.
* `exec` — a run computed from a list of actions, where a step is a partial function.
* `tally p f` — how many components of a family satisfy a test; `tally_update` is what changing one
  component does to it.
-/

namespace Transition

open Relation

variable {σ α : Type*}

/-- **The invariant rule.** -/
theorem invariant {next : σ → σ → Prop} {inv : σ → Prop} {s s' : σ} (h : ReflTransGen next s s')
    (hinit : inv s) (hstep : ∀ s s', inv s → next s s' → inv s') : inv s' := by
  induction h with
  | refl => exact hinit
  | tail _ hnext ih => exact hstep _ _ ih hnext

/-! ### Labelled systems -/

variable {step : σ → α → σ → Prop} {ok : σ → α → Prop} {s s' s'' : σ} {a : α}

/-- Every action is allowed. -/
def always (_ : σ) (_ : α) : Prop := True

/-- One allowed step. -/
def Next (step : σ → α → σ → Prop) (ok : σ → α → Prop) (s s' : σ) : Prop := ∃ a, ok s a ∧ step s a s'

/-- A run of allowed steps. -/
def Reaches (step : σ → α → σ → Prop) (ok : σ → α → Prop) : σ → σ → Prop :=
  ReflTransGen (Next step ok)

theorem Reaches.refl : Reaches step ok s s := ReflTransGen.refl

theorem Reaches.tail (h : Reaches step ok s s') (hs : step s' a s'') (hok : ok s' a) :
    Reaches step ok s s'' :=
  ReflTransGen.tail h ⟨a, hok, hs⟩

/-- A condition that allows more has more runs. -/
theorem Reaches.mono {ok' : σ → α → Prop} (h : Reaches step ok s s') (hok : ∀ s a, ok s a → ok' s a) :
    Reaches step ok' s s' := by
  refine ReflTransGen.mono ?_ _ _ h
  rintro s s' ⟨a, ha, hs⟩
  exact ⟨a, hok s a ha, hs⟩

/-- **The invariant rule**, for runs of allowed steps. -/
theorem Reaches.invariant {inv : σ → Prop} (h : Reaches step ok s s') (hinit : inv s)
    (hstep : ∀ s a s', inv s → ok s a → step s a s' → inv s') : inv s' := by
  refine Transition.invariant h hinit ?_
  rintro s s' hi ⟨a, hok, hs⟩
  exact hstep s a s' hi hok hs

/-! ### Runs that can be computed -/

/-- Take the allowed actions of a list one after another. -/
def exec (f : σ → α → Option σ) (ok : σ → α → Prop) [∀ s a, Decidable (ok s a)] : σ → List α → Option σ
  | s, [] => some s
  | s, a :: as => if ok s a then (f s a).bind fun s' => exec f ok s' as else none

theorem exec_cons {f : σ → α → Option σ} [∀ s a, Decidable (ok s a)] {as : List α} :
    exec f ok s (a :: as) = some s' ↔ ok s a ∧ ∃ mid, f s a = some mid ∧ exec f ok mid as = some s' := by
  simp only [exec]
  split_ifs with hok
  · simp [hok, Option.bind_eq_some_iff]
  · simp [hok]

/-- A computed run is a run. -/
theorem reaches_of_exec {f : σ → α → Option σ} [∀ s a, Decidable (ok s a)] {as : List α}
    (h : exec f ok s as = some s') : Reaches (fun s a s' => f s a = some s') ok s s' := by
  induction as generalizing s with
  | nil =>
    cases h
    exact .refl
  | cons a as ih =>
    obtain ⟨hok, mid, hmid, hrest⟩ := exec_cons.mp h
    exact ReflTransGen.head ⟨a, hok, hmid⟩ (ih hrest)

instance (s : σ) (a : α) : Decidable (always s a) := inferInstanceAs (Decidable True)

/-! ### Counting components -/

section Tally

variable {ι β : Type*} [Fintype ι]

/-- The number of components of `f` that pass `p`. -/
def tally (p : β → Bool) (f : ι → β) : ℕ := (Finset.univ.filter fun i => p (f i) = true).card

theorem tally_eq_sum (p : β → Bool) (f : ι → β) : tally p f = ∑ i, (p (f i)).toNat := by
  rw [tally, Finset.card_filter]
  refine Finset.sum_congr rfl fun i _ => ?_
  cases p (f i) <;> rfl

/-- Changing one component. -/
theorem tally_update [DecidableEq ι] (p : β → Bool) (f : ι → β) (i : ι) (b : β) :
    tally p (Function.update f i b) + (p (f i)).toNat = tally p f + (p b).toNat := by
  have hother : ∑ j ∈ Finset.univ.erase i, (p (Function.update f i b j)).toNat =
      ∑ j ∈ Finset.univ.erase i, (p (f j)).toNat := by
    refine Finset.sum_congr rfl fun j hj => ?_
    rw [Function.update_of_ne (Finset.ne_of_mem_erase hj)]
  have hnew := Finset.add_sum_erase Finset.univ (fun j => (p (Function.update f i b j)).toNat) (Finset.mem_univ i)
  have hold := Finset.add_sum_erase Finset.univ (fun j => (p (f j)).toNat) (Finset.mem_univ i)
  simp only [Function.update_self] at hnew
  rw [tally_eq_sum, tally_eq_sum, ← hnew, ← hold, hother]
  omega

/-- Two tests that never pass together. -/
theorem tally_or {p q : β → Bool} (f : ι → β) (h : ∀ b, p b = true → q b = false) :
    tally (fun b => p b || q b) f = tally p f + tally q f := by
  rw [tally_eq_sum, tally_eq_sum, tally_eq_sum, ← Finset.sum_add_distrib]
  refine Finset.sum_congr rfl fun i _ => ?_
  cases hp : p (f i) with
  | false => simp
  | true => simp [h _ hp]

/-- A test that changes for one component only. -/
theorem tally_flip [DecidableEq ι] {p q : β → Bool} {f : ι → β} {i : ι} (h : ∀ j, j ≠ i → p (f j) = q (f j))
    (hp : p (f i) = false) (hq : q (f i) = true) : tally q f = tally p f + 1 := by
  have hfun : (fun j => q (f j)) = Function.update (fun j => p (f j)) i true := by
    funext j
    by_cases hj : j = i
    · rw [hj, hq, Function.update_self]
    · rw [Function.update_of_ne hj, h j hj]
  have hcount := tally_update id (fun j => p (f j)) i true
  rw [← hfun] at hcount
  simp only [id_eq, hp] at hcount
  simpa [tally] using hcount

theorem tally_le_card (p : β → Bool) (f : ι → β) : tally p f ≤ Fintype.card ι := Finset.card_filter_le _ _

theorem tally_eq_zero_iff (p : β → Bool) (f : ι → β) : tally p f = 0 ↔ ∀ i, p (f i) = false := by
  simp [tally, Finset.filter_eq_empty_iff]

end Tally

end Transition
