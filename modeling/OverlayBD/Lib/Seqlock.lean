import Mathlib.Algebra.Group.Even
import Mathlib.Algebra.Ring.Parity
import Mathlib.Logic.Function.Basic

/-!
# Sequence locks

One writer, any number of readers, no lock.  A record is a family of words beside a version counter.  The
writer makes the version odd, stores the words one by one and makes the version even again.  A reader loads
an even version, loads the words one by one and then looks at the version a second time: if it is still the
same, the words it has are those of one record.

* `Stored c r todo` — a writer storing `r` has stored every word but those of `todo`.
* `Loaded c v vals todo` — a reader that saw version `v` has loaded into `vals` every word but those of
  `todo`; what it has is worth nothing once the version has moved.
* `Loaded.complete` — the reader's conclusion.
-/

namespace Seqlock

variable {ι W : Type*}

/-- The shared words. -/
structure Cell (ι W : Type*) where
  version : ℕ
  words : ι → W

/-- The writer moves the version on, before its first store and after its last. -/
def Cell.bump (c : Cell ι W) : Cell ι W := { c with version := c.version + 1 }

/-- The writer stores one word. -/
def Cell.store [DecidableEq ι] (c : Cell ι W) (i : ι) (w : W) : Cell ι W :=
  { c with words := Function.update c.words i w }

/-- All of `r` is stored but the words of `todo`. -/
def Stored (c : Cell ι W) (r : ι → W) (todo : List ι) : Prop := ∀ i, i ∉ todo → c.words i = r i

variable {r : ι → W} {c : Cell ι W} {todo : List ι}

theorem Stored.start (h : ∀ i, i ∈ todo) : Stored c r todo :=
  fun i hi => absurd (h i) hi

variable {i : ι}

theorem Stored.store [DecidableEq ι] (h : Stored c r (i :: todo)) : Stored (c.store i (r i)) r todo := by
  intro j hj
  by_cases hji : j = i
  · rw [hji]
    exact Function.update_self ..
  · refine (Function.update_of_ne hji ..).trans (h j ?_)
    simpa [hji] using hj

theorem Stored.complete (h : Stored c r []) : c.words = r :=
  funext fun i => h i List.not_mem_nil

/-- As long as the version is `v`, the words loaded are those of the record. -/
def Loaded (c : Cell ι W) (v : ℕ) (vals : ι → W) (todo : List ι) : Prop :=
  v ≤ c.version ∧ (c.version = v → ∀ i, i ∉ todo → vals i = c.words i)

variable {vals : ι → W}

theorem Loaded.start (h : ∀ i, i ∈ todo) :
    Loaded c c.version vals todo :=
  ⟨le_rfl, fun _ i hi => absurd (h i) hi⟩

variable {v : ℕ}

theorem Loaded.load [DecidableEq ι]
    (h : Loaded c v vals (i :: todo)) : Loaded c v (Function.update vals i (c.words i)) todo := by
  refine ⟨h.1, fun hv j hj => ?_⟩
  by_cases hji : j = i
  · rw [hji]
    exact Function.update_self ..
  · refine (Function.update_of_ne hji ..).trans (h.2 hv j ?_)
    simpa [hji] using hj

/-- The version never comes back. -/
theorem Loaded.bump (h : Loaded c v vals todo) :
    Loaded c.bump v vals todo := by
  have hv : v < c.bump.version := Nat.lt_succ_of_le h.1
  exact ⟨Nat.le_of_lt hv, fun he => absurd he (Nat.ne_of_gt hv)⟩

/-- A store happens at an odd version, and the reader's is even. -/
theorem Loaded.store [DecidableEq ι] {w : W}
    (h : Loaded c v vals todo) (hv : Even v) (hc : Odd c.version) : Loaded (c.store i w) v vals todo := by
  refine ⟨h.1, fun he => ?_⟩
  have heq : c.version = v := he
  rw [heq] at hc
  exact absurd hv (Nat.not_even_iff_odd.mpr hc)

/-- **What the second look is worth**: at an unchanged version the reader holds the record. -/
theorem Loaded.complete (h : Loaded c v vals []) (hv : c.version = v) :
    vals = c.words :=
  funext fun i => h.2 hv i List.not_mem_nil

end Seqlock
