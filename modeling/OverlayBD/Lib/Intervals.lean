import Mathlib.Data.List.Basic
import Mathlib.Tactic.Common
import Mathlib.Tactic.SplitIfs

/-!
# Interval lists

A finite list of half-open intervals of `ℕ`, each carrying a value that may depend on the position
inside it, is the usual concrete representation of a partial function with long runs: an extent
map, a log-structured index, a page table of ranges.  This module develops the representation on
its own, over an arbitrary type `α` of entries and an arbitrary value reading `v : α → ℕ → β`.

## The model

* `Interval α` — the bounds `lo`/`hi` of an entry.
* `lookup v l x` — the value the list gives to position `x`: that of its first entry covering `x`.
* `Ordered l` — entries in increasing order, each ending where or before the next begins.
* `Proper l` — no entry is empty.

## What is proved

* `lookup_append`, `lookup_cons`, `lookup_none_iff` — how lookups compose.
* `Ordered.lookup_of_mem` — in an ordered list a lookup is decided by membership alone.
* `Ordered.lookup_insert`, `lookup_join` — an entry among others, and one entry in place of two neighbours.
* `lookup_dropWhile_of_le` — starting a scan at the first entry past a point.
-/

namespace Intervals

variable {α β γ : Type*}

/-- Half-open bounds of an entry. -/
class Interval (α : Type*) where
  /-- First position of the entry. -/
  lo : α → ℕ
  /-- First position past the entry. -/
  hi : α → ℕ

export Interval (lo hi)

variable [Interval α] [Interval γ]

/-- The entry covers a position. -/
def Covers (s : α) (x : ℕ) : Prop := lo s ≤ x ∧ x < hi s

instance (s : α) (x : ℕ) : Decidable (Covers s x) := inferInstanceAs (Decidable (_ ∧ _))

/-- The value of the first entry that covers a position. -/
def lookup (v : α → ℕ → β) : List α → ℕ → Option β
  | [], _ => none
  | s :: l, x => if Covers s x then some (v s x) else lookup v l x

/-- Increasing and non-overlapping. -/
def Ordered (l : List α) : Prop := l.Pairwise fun a b => hi a ≤ lo b

/-- No entry is empty. -/
def Proper (l : List α) : Prop := ∀ s ∈ l, lo s < hi s

/-- Every entry lies inside `[a, b)`. -/
def Within (a b : ℕ) (l : List α) : Prop := ∀ s ∈ l, a ≤ lo s ∧ hi s ≤ b

/-- No two entries cover a common position. -/
def Disjoint (l : List α) : Prop := l.Pairwise fun a b => ∀ x, Covers a x → ¬ Covers b x

variable {v : α → ℕ → β} {l m : List α} {s : α} {x a b : ℕ}

/-! ### Composition of lookups -/

@[simp] theorem lookup_nil : lookup v [] x = none := rfl

theorem lookup_cons :
    lookup v (s :: l) x = if Covers s x then some (v s x) else lookup v l x := rfl

theorem lookup_cons_of_covers (h : Covers s x) : lookup v (s :: l) x = some (v s x) :=
  if_pos h

theorem lookup_cons_of_not (h : ¬ Covers s x) : lookup v (s :: l) x = lookup v l x :=
  if_neg h

theorem lookup_append : lookup v (l ++ m) x = (lookup v l x).or (lookup v m x) := by
  induction l with
  | nil => rfl
  | cons s l ih =>
    by_cases h : Covers s x
    · simp [lookup_cons_of_covers h]
    · simp only [List.cons_append, lookup_cons_of_not h, ih]

theorem lookup_none_iff : lookup v l x = none ↔ ∀ s ∈ l, ¬ Covers s x := by
  induction l with
  | nil => simp
  | cons s l ih =>
    by_cases h : Covers s x
    · simp [lookup_cons_of_covers h, h]
    · simp [lookup_cons_of_not h, ih, h]

theorem lookup_none_of_within (h : Within a b l) (hx : ¬ (a ≤ x ∧ x < b)) : lookup v l x = none := by
  rw [lookup_none_iff]
  intro s hs hc
  have hb := h s hs
  unfold Covers at hc
  omega

/-- Behind every entry nothing is found. -/
theorem lookup_none_of_ge (h : ∀ s ∈ l, hi s ≤ b) (hx : b ≤ x) : lookup v l x = none :=
  lookup_none_iff.mpr fun s hs hc => absurd hc.2 (Nat.not_lt.mpr (Nat.le_trans (h s hs) hx))

/-- In front of every entry nothing is found. -/
theorem lookup_none_of_lt (h : ∀ s ∈ l, a ≤ lo s) (hx : x < a) : lookup v l x = none :=
  lookup_none_iff.mpr fun s hs hc => absurd hc.1 (Nat.not_le.mpr (Nat.lt_of_lt_of_le hx (h s hs)))

theorem exists_of_lookup_some {r : β} (h : lookup v l x = some r) :
    ∃ s ∈ l, Covers s x ∧ v s x = r := by
  induction l with
  | nil => simp at h
  | cons s l ih =>
    by_cases hc : Covers s x
    · rw [lookup_cons_of_covers hc] at h
      exact ⟨s, List.mem_cons_self, hc, Option.some.inj h⟩
    · rw [lookup_cons_of_not hc] at h
      obtain ⟨t, ht, hct, hv⟩ := ih h
      exact ⟨t, List.mem_cons_of_mem _ ht, hct, hv⟩

/-- Rewriting every entry in place, bounds kept, rewrites the value found. -/
theorem lookup_map {w : γ → ℕ → β} (f : α → γ) (hlo : ∀ s, lo (f s) = lo s)
    (hhi : ∀ s, hi (f s) = hi s) : lookup w (l.map f) x = lookup (fun s y => w (f s) y) l x := by
  induction l with
  | nil => rfl
  | cons s l ih =>
    have hc : Covers (f s) x ↔ Covers s x := by simp only [Covers, hlo, hhi]
    by_cases h : Covers s x <;> simp [lookup_cons, hc, h, ih]

/-! ### Order -/

theorem Ordered.tail (h : Ordered (s :: l)) : Ordered l := List.Pairwise.of_cons h

theorem Ordered.head_le (h : Ordered (s :: l)) {t : α} (ht : t ∈ l) : hi s ≤ lo t :=
  List.rel_of_pairwise_cons h ht

/-- An entry of an ordered list shares no position with a later one. -/
theorem Ordered.lookup_tail (h : Ordered (s :: l)) (hc : Covers s x) : lookup v l x = none :=
  lookup_none_of_lt (fun _ ht => h.head_le ht) hc.2

/-- In front of its head an ordered list says nothing. -/
theorem Ordered.lookup_lt_head (h : Ordered (s :: l)) (hs : lo s ≤ hi s) (hx : x < lo s) : lookup v (s :: l) x = none := by
  rw [lookup_cons_of_not fun hc => absurd hc.1 (Nat.not_le.mpr hx)]
  exact lookup_none_of_lt (fun _ ht => h.head_le ht) (Nat.lt_of_lt_of_le hx hs)

theorem ordered_nil : Ordered ([] : List α) := List.Pairwise.nil

theorem ordered_singleton (s : α) : Ordered [s] := List.pairwise_singleton _ _

theorem ordered_cons : Ordered (s :: l) ↔ (∀ t ∈ l, hi s ≤ lo t) ∧ Ordered l := List.pairwise_cons

theorem ordered_append :
    Ordered (l ++ m) ↔ Ordered l ∧ Ordered m ∧ ∀ s ∈ l, ∀ t ∈ m, hi s ≤ lo t :=
  List.pairwise_append

theorem Ordered.sublist (h : Ordered m) (hs : l.Sublist m) : Ordered l := List.Pairwise.sublist hs h

theorem Ordered.disjoint (h : Ordered l) : Disjoint l := by
  refine List.Pairwise.imp ?_ h
  intro a b hab x ha hb
  unfold Covers at ha hb
  omega

/-- In a disjoint list membership decides a lookup. -/
theorem Disjoint.lookup_of_mem (h : Disjoint l) (hs : s ∈ l) (hc : Covers s x) :
    lookup v l x = some (v s x) := by
  induction l with
  | nil => cases hs
  | cons t l ih =>
    rcases List.mem_cons.mp hs with rfl | hs'
    · exact lookup_cons_of_covers hc
    · have ht : ¬ Covers t x := fun hct => List.rel_of_pairwise_cons h hs' x hct hc
      rw [lookup_cons_of_not ht]
      exact ih (List.Pairwise.of_cons h) hs'

theorem Ordered.lookup_of_mem (h : Ordered l) (hs : s ∈ l) (hc : Covers s x) :
    lookup v l x = some (v s x) :=
  h.disjoint.lookup_of_mem hs hc

/-! ### Adding an entry, joining two -/

omit [Interval α] in
theorem forall_mem_concat {p : α → Prop} : (∀ t ∈ l ++ [s], p t) ↔ (∀ t ∈ l, p t) ∧ p s := by
  rw [List.forall_mem_append, List.forall_mem_singleton]

theorem Ordered.concat (h : Ordered l) (hs : ∀ t ∈ l, hi t ≤ lo s) : Ordered (l ++ [s]) :=
  ordered_append.mpr ⟨h, ordered_singleton s, fun t ht _ hu => List.mem_singleton.mp hu ▸ hs t ht⟩

/-- In an ordered list an entry decides what it covers, and the others the rest. -/
theorem Ordered.lookup_insert (h : Ordered (l ++ s :: m)) :
    lookup v (l ++ s :: m) x = if Covers s x then some (v s x) else lookup v (l ++ m) x := by
  split_ifs with hc
  · exact h.lookup_of_mem (List.mem_append_right _ List.mem_cons_self) hc
  · rw [lookup_append, lookup_cons_of_not hc, lookup_append]

/-- **Two neighbours and one entry in their place.** -/
structure Joined (v : α → ℕ → β) (s t r : α) : Prop where
  lo_eq : lo r = lo s
  meets : hi s = lo t
  hi_eq : hi r = hi t
  first_le : lo s ≤ hi s
  second_le : lo t ≤ hi t
  first : ∀ x, Covers s x → v r x = v s x
  second : ∀ x, Covers t x → v r x = v t x

variable {t r : α}

theorem forall_mem_join {p : α → Prop} (h : ∀ u ∈ l ++ s :: t :: m, p u) (hr : p r) : ∀ u ∈ l ++ r :: m, p u := by
  simp only [List.forall_mem_append, List.forall_mem_cons] at h ⊢
  exact ⟨h.1, hr, h.2.2.2⟩

theorem Ordered.join (h : Ordered (l ++ s :: t :: m)) (hj : Joined v s t r) : Ordered (l ++ r :: m) := by
  obtain ⟨h1, h2, h3⟩ := ordered_append.mp h
  refine ordered_append.mpr ⟨h1, ordered_cons.mpr ⟨fun u hu => hj.hi_eq ▸ h2.tail.head_le hu, h2.tail.tail⟩, ?_⟩
  exact fun u hu => forall_mem_join (l := []) (h3 u hu) (hj.lo_eq ▸ h3 u hu s List.mem_cons_self)

/-- Joining changes nothing that is looked up. -/
theorem lookup_join (hj : Joined v s t r) : lookup v (l ++ r :: m) x = lookup v (l ++ s :: t :: m) x := by
  have hr : Covers r x ↔ Covers s x ∨ Covers t x := by
    obtain ⟨hlo, hmid, hhi, hs, ht, -, -⟩ := hj
    unfold Covers
    omega
  rw [lookup_append, lookup_append]
  congr 1
  by_cases hs : Covers s x
  · rw [lookup_cons_of_covers (hr.mpr (.inl hs)), lookup_cons_of_covers hs, hj.first x hs]
  rw [lookup_cons_of_not hs]
  by_cases ht : Covers t x
  · rw [lookup_cons_of_covers (hr.mpr (.inr ht)), lookup_cons_of_covers ht, hj.second x ht]
  · rw [lookup_cons_of_not ht, lookup_cons_of_not fun hc => (hr.mp hc).elim hs ht]

/-! ### Starting a scan past a point -/

/-- Entries ending at or before `a` do not matter from `a` on. -/
theorem lookup_dropWhile_of_le (hx : a ≤ x) :
    lookup v (l.dropWhile fun s => decide (hi s ≤ a)) x = lookup v l x := by
  induction l with
  | nil => rfl
  | cons s l ih =>
    by_cases hs : hi s ≤ a
    · rw [List.dropWhile_cons_of_pos (by simpa using hs), ih, lookup_cons_of_not]
      unfold Covers
      omega
    · rw [List.dropWhile_cons_of_neg (by simpa using hs)]

/-- What is left of an ordered proper list once the entries ending by `a` are dropped ends past `a`. -/
theorem Ordered.lt_hi_of_mem_dropWhile (h : Ordered l) (hp : Proper l)
    (hs : s ∈ l.dropWhile fun t => decide (hi t ≤ a)) : a < hi s := by
  induction l with
  | nil => simp at hs
  | cons t l ih =>
    by_cases ht : hi t ≤ a
    · rw [List.dropWhile_cons_of_pos (by simpa using ht)] at hs
      exact ih h.tail (fun u hu => hp u (List.mem_cons_of_mem _ hu)) hs
    · rw [List.dropWhile_cons_of_neg (by simpa using ht)] at hs
      rcases List.mem_cons.mp hs with rfl | hs'
      · omega
      · have h1 := h.head_le hs'
        have h2 := hp s hs
        omega

end Intervals
