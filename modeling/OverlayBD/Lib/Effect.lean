import Mathlib.Data.Int.Basic
import Mathlib.Tactic.Common
import Mathlib.Tactic.SplitIfs

/-!
# Programs over a state that may fail

`Eff σ α` is a computation that reads and changes a state `σ` and either returns a value or stops with a
(positive) error number.  A failed run keeps the state it reached: what was done before the failure is done.

Programs are written with `do`; their properties are stated with `wp`, the weakest precondition, one
postcondition for each of the two ways to end.  The `wp` of every construct is computed by a `simp` lemma; loops
over a list have the invariant rule `wp_each`, and `wp_mono` is the rule of consequence.

Frame facts ("it leaves this alone") are relations between earlier and later states.  A `Guarantee` is such a
relation, and `Respects` says that a computation keeps it on every way out; it composes construct by construct.
-/

namespace Effect

variable {σ τ α β : Type}

/-- A computation over `σ`; an error is a positive error number. -/
def Eff (σ α : Type) : Type := σ → Except ℤ α × σ

instance : Monad (Eff σ) where
  pure a := fun s => (.ok a, s)
  bind m f := fun s =>
    match m s with
    | (.ok a, s') => f a s'
    | (.error e, s') => (.error e, s')

/-- Stop with an error. -/
def fail (e : ℤ) : Eff σ α := fun s => (.error e, s)

/-- Stop with an error if the condition holds. -/
def refuse (c : Prop) [Decidable c] (e : ℤ) : Eff σ Unit := if c then fail e else pure ()

/-- Run only if the condition holds. -/
def onlyIf (c : Prop) [Decidable c] (m : Eff σ Unit) : Eff σ Unit := if c then m else pure ()

/-- Read from the state. -/
def gets (f : σ → α) : Eff σ α := fun s => (.ok (f s), s)

/-- Change the state. -/
def modify (f : σ → σ) : Eff σ Unit := fun s => (.ok (), f s)

/-- The value of an option, or an error. -/
def need (e : ℤ) : Option α → Eff σ α
  | some a => pure a
  | none => fail e

/-- Change the state of a failed run; the failure stays. -/
def onError (m : Eff σ α) (h : σ → σ) : Eff σ α := fun s =>
  match m s with
  | (.ok a, s') => (.ok a, s')
  | (.error e, s') => (.error e, h s')

/-- Run once for each element. -/
def each : List α → (α → Eff σ Unit) → Eff σ Unit
  | [], _ => pure ()
  | a :: l, f => do
    f a
    each l f

/-- Run on a part of a larger state. -/
def zoom (part : τ → σ) (put : τ → σ → τ) (m : Eff σ α) : Eff τ α := fun t =>
  ((m (part t)).1, put t (m (part t)).2)

/-- Run to a result in the convention of the C library: a value, or the negated error number. -/
def run (m : Eff σ ℤ) (s : σ) : ℤ × σ :=
  match m s with
  | (.ok r, s') => (r, s')
  | (.error e, s') => (-e, s')

/-! ### Weakest preconditions -/

/-- From `s` the computation returns a value and state in `Q`, or fails with a number and state in `E`. -/
def wp (m : Eff σ α) (Q : α → σ → Prop) (E : ℤ → σ → Prop) (s : σ) : Prop :=
  match m s with
  | (.ok a, s') => Q a s'
  | (.error e, s') => E e s'

variable {Q Q' : α → σ → Prop} {E E' : ℤ → σ → Prop} {s s' : σ}

@[simp] theorem wp_pure (a : α) : wp (pure a) Q E s = Q a s := rfl

@[simp] theorem wp_fail (e : ℤ) : wp (fail e) Q E s = E e s := rfl

@[simp] theorem wp_gets (f : σ → α) : wp (gets f) Q E s = Q (f s) s := rfl

@[simp] theorem wp_modify {Q : Unit → σ → Prop} (f : σ → σ) : wp (modify f) Q E s = Q () (f s) := rfl

@[simp] theorem wp_bind {Q : β → σ → Prop} (m : Eff σ α) (f : α → Eff σ β) :
    wp (m >>= f) Q E s = wp m (fun a => wp (f a) Q E) E s := by
  have hb : (m >>= f) s =
      match m s with
      | (.ok a, s') => f a s'
      | (.error e, s') => (.error e, s') := rfl
  unfold wp
  rw [hb]
  obtain ⟨r, s'⟩ := m s
  cases r <;> rfl

@[simp] theorem wp_ite {c : Prop} [Decidable c] (m m' : Eff σ α) :
    wp (if c then m else m') Q E s ↔ (c → wp m Q E s) ∧ (¬ c → wp m' Q E s) := by
  by_cases hc : c <;> simp [hc]

@[simp] theorem wp_refuse {Q : Unit → σ → Prop} {c : Prop} [Decidable c] (e : ℤ) :
    wp (refuse c e) Q E s ↔ (c → E e s) ∧ (¬ c → Q () s) := by
  rw [refuse, wp_ite]
  rfl

@[simp] theorem wp_onlyIf {Q : Unit → σ → Prop} {c : Prop} [Decidable c] (m : Eff σ Unit) :
    wp (onlyIf c m) Q E s ↔ (c → wp m Q E s) ∧ (¬ c → Q () s) := by
  rw [onlyIf, wp_ite]
  rfl

@[simp] theorem wp_need (e : ℤ) (o : Option α) :
    wp (need e o) Q E s ↔ (∀ a, o = some a → Q a s) ∧ (o = none → E e s) := by
  cases o <;> simp [need]

theorem wp_refuse_of_not {Q : Unit → σ → Prop} {c : Prop} [Decidable c] {e : ℤ} (h : ¬ c) :
    wp (refuse c e) Q E s = Q () s := by
  rw [refuse, if_neg h, wp_pure]

theorem wp_refuse_of {Q : Unit → σ → Prop} {c : Prop} [Decidable c] {e : ℤ} (h : c) :
    wp (refuse c e) Q E s = E e s := by
  rw [refuse, if_pos h, wp_fail]

theorem wp_need_some {e : ℤ} {o : Option α} {a : α} (h : o = some a) : wp (need e o) Q E s = Q a s := by
  rw [h, need, wp_pure]

@[simp] theorem wp_onError (m : Eff σ α) (h : σ → σ) :
    wp (onError m h) Q E s = wp m Q (fun e s' => E e (h s')) s := by
  unfold wp onError
  obtain ⟨r, s'⟩ := m s
  cases r <;> rfl

@[simp] theorem wp_zoom {Q : α → τ → Prop} {E : ℤ → τ → Prop} (part : τ → σ) (put : τ → σ → τ) (m : Eff σ α)
    (t : τ) :
    wp (zoom part put m) Q E t = wp m (fun a s' => Q a (put t s')) (fun e s' => E e (put t s')) (part t) := by
  unfold wp zoom
  obtain ⟨r, s'⟩ := m (part t)
  cases r <;> rfl

/-- The rule of consequence. -/
theorem wp_mono {m : Eff σ α} (h : wp m Q E s) (hq : ∀ a s', Q a s' → Q' a s')
    (he : ∀ e s', E e s' → E' e s') : wp m Q' E' s := by
  unfold wp at *
  rcases hm : m s with ⟨e | a, s'⟩
  · rw [hm] at h
    exact he e s' h
  · rw [hm] at h
    exact hq a s' h

/-- Two facts about one run. -/
theorem wp_and {m : Eff σ α} (h : wp m Q E s) (h' : wp m Q' E' s) :
    wp m (fun a s' => Q a s' ∧ Q' a s') (fun e s' => E e s' ∧ E' e s') s := by
  unfold wp at *
  rcases hm : m s with ⟨e | a, s'⟩
  · rw [hm] at h h'
    exact ⟨h, h'⟩
  · rw [hm] at h h'
    exact ⟨h, h'⟩

/-- Nothing is asked. -/
theorem wp_trivial {m : Eff σ α} : wp m (fun _ _ => True) (fun _ _ => True) s := by
  unfold wp
  rcases m s with ⟨e | a, s'⟩ <;> trivial

/-- The rule of loops: the invariant speaks about what is left to do. -/
theorem wp_each {f : α → Eff σ Unit} (I : List α → σ → Prop)
    (hstep : ∀ a l s, I (a :: l) s → wp (f a) (fun _ s' => I l s') E s) (l : List α) (h : I l s) :
    wp (each l f) (fun _ s' => I [] s') E s := by
  induction l generalizing s with
  | nil => exact h
  | cons a l ih =>
    rw [each, wp_bind]
    exact wp_mono (hstep a l s h) (fun _ _ hs => ih hs) fun _ _ he => he

theorem ok_of_wp {m : Eff σ α} {a : α} (h : wp m Q E s) (hm : m s = (.ok a, s')) : Q a s' := by
  unfold wp at h
  rwa [hm] at h

/-- A run that is known. -/
theorem wp_of_eq {m : Eff σ α} {a : α} (h : m s = (.ok a, s')) : wp m Q E s = Q a s' := by
  rw [wp, h]

theorem eq_ok_of_wp {m : Eff σ α} {a : α} (h : wp m (fun b t => b = a ∧ t = s') (fun _ _ => False) s) :
    m s = (.ok a, s') := by
  unfold wp at h
  rcases hm : m s with ⟨e | b, t⟩
  · rw [hm] at h
    exact h.elim
  · rw [hm] at h
    obtain ⟨rfl, rfl⟩ := h
    rfl

/-- A run that cannot fail. -/
theorem exists_ok_of_wp {m : Eff σ α} (h : wp m Q (fun _ _ => False) s) : ∃ a s', m s = (.ok a, s') ∧ Q a s' := by
  unfold wp at h
  rcases hm : m s with ⟨e | a, s'⟩
  · rw [hm] at h
    exact h.elim
  · rw [hm] at h
    exact ⟨a, s', rfl, h⟩

/-- A failure that is known. -/
theorem wp_of_error {m : Eff σ α} {e : ℤ} (h : m s = (.error e, s')) : wp m Q E s = E e s' := by
  rw [wp, h]

theorem eq_error_state_of_wp {m : Eff σ α} {e : ℤ} (h : wp m (fun _ _ => False) (fun e' t => e' = e ∧ t = s') s) :
    m s = (.error e, s') := by
  unfold wp at h
  rcases hm : m s with ⟨e' | b, t⟩
  · rw [hm] at h
    obtain ⟨rfl, rfl⟩ := h
    rfl
  · rw [hm] at h
    exact h.elim

/-- A loop in two parts. -/
theorem wp_each_append {Q : Unit → σ → Prop} {f : α → Eff σ Unit} (l l' : List α) :
    wp (each (l ++ l') f) Q E s = wp (each l f) (fun _ => wp (each l' f) Q E) E s := by
  induction l generalizing s with
  | nil => rfl
  | cons a l ih =>
    have hrest : wp (each (l ++ l') f) Q E = wp (each l f) (fun _ => wp (each l' f) Q E) E := funext fun _ => ih
    rw [List.cons_append, each, each, wp_bind, wp_bind, hrest]

/-- A run that can only end in one error. -/
theorem eq_error_of_wp {m : Eff σ α} {e : ℤ} (h : wp m (fun _ _ => False) (fun e' _ => e' = e) s) :
    ∃ s', m s = (.error e, s') := by
  unfold wp at h
  rcases hm : m s with ⟨e' | b, t⟩
  · rw [hm] at h
    obtain rfl := h
    exact ⟨t, rfl⟩
  · rw [hm] at h
    exact h.elim

/-- What holds however a run ends. -/
theorem state_of_wp {m : Eff σ α} {P : σ → Prop} (h : wp m (fun _ s' => P s') (fun _ s' => P s') s) : P (m s).2 := by
  unfold wp at h
  rcases hm : m s with ⟨e | a, s'⟩
  · rw [hm] at h
    exact h
  · rw [hm] at h
    exact h

/-- A result in the C convention has what both postconditions say of it. -/
theorem run_of_wp {m : Eff σ ℤ} {R : ℤ → σ → Prop} (h : wp m R (fun e s' => R (-e) s') s) :
    R (run m s).1 (run m s).2 := by
  unfold wp at h
  unfold run
  rcases hm : m s with ⟨e | a, s'⟩
  · rw [hm] at h
    exact h
  · rw [hm] at h
    exact h

/-! ### What a computation may do to its state -/

/-- A reflexive and transitive relation between earlier and later states. -/
structure Guarantee (σ : Type) where
  rel : σ → σ → Prop
  refl : ∀ s, rel s s
  trans : ∀ {s s' s''}, rel s s' → rel s' s'' → rel s s''

/-- However it ends, the computation keeps the guarantee, and its error numbers are positive. -/
def Respects (G : Guarantee σ) (m : Eff σ α) : Prop :=
  ∀ s, wp m (fun _ s' => G.rel s s') (fun e s' => 0 < e ∧ G.rel s s') s

variable {G : Guarantee σ}

theorem respects_pure (a : α) : Respects G (pure a) := fun s => G.refl s

theorem respects_gets (f : σ → α) : Respects G (gets f) := fun s => G.refl s

theorem respects_modify {f : σ → σ} (h : ∀ s, G.rel s (f s)) : Respects G (modify f) := h

theorem respects_refuse {c : Prop} [Decidable c] {e : ℤ} (he : 0 < e) : Respects G (refuse c e) := by
  intro s
  rw [wp_refuse]
  exact ⟨fun _ => ⟨he, G.refl s⟩, fun _ => G.refl s⟩

theorem Respects.bind {m : Eff σ α} {f : α → Eff σ β} (hm : Respects G m) (hf : ∀ a, Respects G (f a)) :
    Respects G (m >>= f) := by
  intro s
  rw [wp_bind]
  refine wp_mono (hm s) (fun a s' hs => ?_) fun _ _ he => he
  exact wp_mono (hf a s') (fun _ _ h => G.trans hs h) fun _ _ h => ⟨h.1, G.trans hs h.2⟩

/-- A value that was checked for comes with the check. -/
theorem respects_need_bind {e : ℤ} (he : 0 < e) {o : Option α} {f : α → Eff σ β}
    (hf : ∀ a, o = some a → Respects G (f a)) : Respects G (need e o >>= f) := by
  cases o with
  | none => exact fun s => ⟨he, G.refl s⟩
  | some a => exact hf a rfl

theorem Respects.ite {c : Prop} [Decidable c] {m m' : Eff σ α} (hm : Respects G m) (hm' : Respects G m') :
    Respects G (if c then m else m') := by
  split_ifs
  · exact hm
  · exact hm'

theorem Respects.onlyIf {c : Prop} [Decidable c] {m : Eff σ Unit} (hm : Respects G m) :
    Respects G (onlyIf c m) :=
  hm.ite (respects_pure ())

theorem Respects.onError {m : Eff σ α} {h : σ → σ} (hm : Respects G m) (hh : ∀ s, G.rel s (h s)) :
    Respects G (onError m h) := by
  intro s
  rw [wp_onError]
  exact wp_mono (hm s) (fun _ _ hs => hs) fun _ s' hs => ⟨hs.1, G.trans hs.2 (hh s')⟩

/-- A guarantee about a part is one about the whole that speaks only of that part. -/
theorem Respects.zoom {H : Guarantee τ} {m : Eff σ α} {part : τ → σ} {put : τ → σ → τ} (hm : Respects G m)
    (hput : ∀ t s', G.rel (part t) s' → H.rel t (put t s')) : Respects H (zoom part put m) := by
  intro t
  rw [wp_zoom]
  exact wp_mono (hm (part t)) (fun _ s' hs => hput t s' hs) fun _ s' hs => ⟨hs.1, hput t s' hs.2⟩

theorem respects_each {f : α → Eff σ Unit} (hf : ∀ a, Respects G (f a)) :
    ∀ l : List α, Respects G (each l f)
  | [] => respects_pure ()
  | a :: l => (hf a).bind fun _ => respects_each hf l

end Effect
