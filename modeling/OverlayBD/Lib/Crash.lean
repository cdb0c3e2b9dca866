import Mathlib.Data.Set.Insert

/-!
# Crashes

What a crash leaves of a store whose writes are cached.  A state knows its current content and every content a crash
may leave; a write widens the second, a sync narrows it again.

* `Cached δ` — the current content and what may survive.
* `Call δ` — a call of a program: a write, which a crash may keep in part, or a sync of a part of the store.
* `exec` — a sequence of calls; its prefixes are the points a crash can happen at.
* `Certain` — what holds of every survivor; `Certain.write` and `Certain.sync` say what a call does to it.
-/

namespace Crash

variable {δ : Type*}

/-- A store with its cache. -/
structure Cached (δ : Type*) where
  now : δ
  /-- What a crash may leave. -/
  may : Set δ
  now_mem : now ∈ may

/-- Nothing is pending. -/
def settled (d : δ) : Cached δ := ⟨d, {d}, rfl⟩

/-- A call of a program. -/
structure Call (δ : Type*) where
  /-- The effect, once complete. -/
  effect : δ → δ
  /-- What a crash may make of a store the call is applied to. -/
  torn : δ → Set δ
  effect_mem : ∀ d, effect d ∈ torn d
  /-- What is certain once the call has returned: `after now d` says that `d` may still survive. -/
  after : δ → δ → Prop
  after_self : ∀ d, after d d

namespace Call

/-- A write: a crash may keep all, part or nothing of it. -/
def write (effect : δ → δ) (torn : δ → Set δ) (h : ∀ d, effect d ∈ torn d) : Call δ :=
  ⟨effect, fun d => insert d (torn d), fun d => Set.mem_insert_of_mem d (h d), fun _ _ => True, fun _ => trivial⟩

/-- A sync of the part of the store that `key` reads. -/
def sync {κ : Type*} (key : δ → κ) : Call δ :=
  ⟨id, fun d => {d}, fun _ => rfl, fun now d => key d = key now, fun _ => rfl⟩

end Call

/-- One call. -/
def Cached.call (c : Cached δ) (k : Call δ) : Cached δ where
  now := k.effect c.now
  may := {e | (∃ d ∈ c.may, e ∈ k.torn d) ∧ k.after (k.effect c.now) e}
  now_mem := ⟨⟨c.now, c.now_mem, k.effect_mem c.now⟩, k.after_self _⟩

/-- A sequence of calls. -/
def exec (c : Cached δ) (ks : List (Call δ)) : Cached δ := ks.foldl Cached.call c

@[simp] theorem exec_nil (c : Cached δ) : exec c [] = c := rfl

@[simp] theorem exec_cons (c : Cached δ) (k : Call δ) (ks : List (Call δ)) : exec c (k :: ks) = exec (c.call k) ks := rfl

/-- What is certain of the survivors. -/
def Certain (P : δ → Prop) (c : Cached δ) : Prop := ∀ d ∈ c.may, P d

theorem Certain.imp {P Q : δ → Prop} {c : Cached δ} (h : Certain P c) (hpq : ∀ d, P d → Q d) : Certain Q c :=
  fun d hd => hpq d (h d hd)

/-- **A write** keeps what every torn state has. -/
theorem Certain.write {P Q : δ → Prop} {c : Cached δ} (h : Certain P c) {effect : δ → δ} {torn : δ → Set δ}
    {hm : ∀ d, effect d ∈ torn d} (hold : ∀ d, P d → Q d) (hnew : ∀ d, P d → ∀ e ∈ torn d, Q e) :
    Certain Q (c.call (.write effect torn hm)) := by
  rintro e ⟨⟨d, hd, rfl | he⟩, -⟩
  · exact hold e (h e hd)
  · exact hnew d (h d hd) e he

/-- **A sync** makes the survivors agree with the current content. -/
theorem Certain.sync {P : δ → Prop} {c : Cached δ} (h : Certain P c) {κ : Type*} (key : δ → κ) :
    Certain (fun d => P d ∧ key d = key c.now) (c.call (.sync key)) := by
  rintro e ⟨⟨d, hd, rfl⟩, hkey⟩
  exact ⟨h e hd, hkey⟩

end Crash
