import Mathlib.Data.Nat.Basic

/-!
# Bisection

The search of `std::upper_bound`, as the library carries it out: it halves a range of positions and never asks whether
the range is partitioned.  On a range that is not, what it still guarantees is local: the comparison fails at the
position before the one it returns, and holds at the one it returns.

The search for the last position of a property, with its two bounds, is the other form in use.
-/

namespace Search

/-- One bisection of `[first, first + len)`; `p i` is the comparison at position `i`, and `len` steps are always
enough. -/
def bisect (p : ℕ → Bool) : ℕ → ℕ → ℕ → ℕ
  | 0, first, _ => first
  | fuel + 1, first, len =>
    if len = 0 then first
    else if p (first + len / 2) then bisect p fuel first (len / 2)
    else bisect p fuel (first + len / 2 + 1) (len - len / 2 - 1)

/-- `std::upper_bound` over `[first, first + len)`. -/
def upperBound (p : ℕ → Bool) (first len : ℕ) : ℕ := bisect p len first len

theorem bisect_spec (p : ℕ → Bool) {fuel first len : ℕ} (h : len ≤ fuel) :
    first ≤ bisect p fuel first len ∧ bisect p fuel first len ≤ first + len ∧
      (first < bisect p fuel first len → p (bisect p fuel first len - 1) = false) ∧
      (bisect p fuel first len < first + len → p (bisect p fuel first len) = true) := by
  induction fuel generalizing first len with
  | zero =>
    obtain rfl : len = 0 := by omega
    rw [bisect]
    exact ⟨le_rfl, le_rfl, fun h => absurd h (lt_irrefl _), fun h => absurd h (lt_irrefl _)⟩
  | succ fuel ih =>
    rw [bisect]
    by_cases h0 : len = 0
    · rw [if_pos h0]
      exact ⟨le_rfl, by omega, fun h => absurd h (lt_irrefl _), fun h => absurd h (by omega)⟩
    rw [if_neg h0]
    by_cases hmid : p (first + len / 2) = true
    · rw [if_pos hmid]
      obtain ⟨h1, h2, h3, h4⟩ := @ih first (len / 2) (by omega)
      refine ⟨h1, by omega, h3, fun _ => ?_⟩
      rcases Nat.lt_or_ge (bisect p fuel first (len / 2)) (first + len / 2) with hlt | hge
      · exact h4 hlt
      · rwa [Nat.le_antisymm h2 hge]
    · rw [if_neg hmid]
      obtain ⟨h1, h2, h3, h4⟩ := @ih (first + len / 2 + 1) (len - len / 2 - 1) (by omega)
      refine ⟨by omega, by omega, fun _ => ?_, fun hlt => h4 (by omega)⟩
      rcases Nat.lt_or_ge (first + len / 2 + 1) (bisect p fuel (first + len / 2 + 1) (len - len / 2 - 1)) with hlt | hge
      · exact h3 hlt
      · rw [Nat.le_antisymm hge h1, Nat.add_sub_cancel]
        simpa using hmid

/-- **What the search guarantees** on any range. -/
theorem upperBound_spec (p : ℕ → Bool) (first len : ℕ) :
    first ≤ upperBound p first len ∧ upperBound p first len ≤ first + len ∧
      (first < upperBound p first len → p (upperBound p first len - 1) = false) ∧
      (upperBound p first len < first + len → p (upperBound p first len) = true) :=
  bisect_spec p le_rfl

/-! ### The last position at which a property holds -/

/-- A bisection of `[lo, hi]` that rounds up, for a property that holds up to some position. -/
def lastTrue (p : ℕ → Bool) (lo hi : ℕ) : ℕ :=
  if lo < hi then
    let mid := lo + (hi - lo + 1) / 2
    if p mid then lastTrue p mid hi else lastTrue p lo (mid - 1)
  else lo
termination_by hi - lo

/-- **The last position**, if the property holds at the first one and is lost for good. -/
theorem lastTrue_spec {p : ℕ → Bool} {lo hi : ℕ} (hle : lo ≤ hi) (hlo : p lo = true)
    (hdown : ∀ i j, i ≤ j → p j = true → p i = true) :
    lo ≤ lastTrue p lo hi ∧ lastTrue p lo hi ≤ hi ∧ p (lastTrue p lo hi) = true ∧
      ∀ k, p k = true → k ≤ hi → k ≤ lastTrue p lo hi := by
  fun_induction lastTrue p lo hi with
  | case1 lo hi hlt mid hmid ih =>
    obtain ⟨h1, h2, h3, h4⟩ := ih (by omega) hmid
    exact ⟨by omega, h2, h3, h4⟩
  | case2 lo hi hlt mid hmid ih =>
    obtain ⟨h1, h2, h3, h4⟩ := ih (by omega) hlo
    refine ⟨h1, by omega, h3, fun k hk hkhi => h4 k hk ?_⟩
    by_contra hgt
    exact hmid (hdown mid k (by omega) hk)
  | case3 lo hi hlt =>
    exact ⟨le_rfl, hle, hlo, fun k _ hk => by omega⟩

end Search
