import Mathlib.Data.Finset.Card
import Mathlib.Data.List.Nodup
import Mathlib.Data.List.TakeWhile
import OverlayBD.Lib.Intervals

/-!
# Overwriting in a map of intervals

An ordered map from starts to intervals is kept up to date by one operation: a new interval takes its range, and
what it overlaps is cut.  Here is the operation as an implementation over a balanced tree has it, with `lower_bound`,
one look at the predecessor, a loop that erases and remembers remnants, and `emplace`; and as a reader thinks of it.

## The model

* `Cut α` — how an entry is cut at a position.
* `overwrite c m l` — the operation on the tree's entries, in order.
* `trim`, `putSorted` — every entry loses what the range covers, and the new entry is put between them.

## What is proved

* `overwrite_eq` — the loop over the tree is `trim` and `putSorted`.
* `overwrite_spec` — the map stays ordered and proper, and only the range changes.
* `lookup_history` — after any history, each position has the value of the last entry that covers it.
* `length_history` — and the map has one entry for each run of positions that belong to one entry of the history.
-/

namespace Intervals

variable {α β : Type*}

/-- How an entry is cut in two. -/
structure Cut (α : Type*) where
  /-- The part below a position. -/
  left : ℕ → α → α
  /-- The part from a position on. -/
  right : ℕ → α → α

variable [Interval α]

/-- Cutting an entry that satisfies `P` inside its bounds gives entries that do, with the bounds they should have, and
keeps the values. -/
structure Cut.Lawful (c : Cut α) (P : α → Prop) (v : α → ℕ → β) : Prop where
  lo_left : ∀ {s k}, lo s < k → k < hi s → lo (c.left k s) = lo s
  hi_left : ∀ {s k}, lo s < k → k < hi s → hi (c.left k s) = k
  lo_right : ∀ {s k}, lo s < k → k < hi s → lo (c.right k s) = k
  hi_right : ∀ {s k}, lo s < k → k < hi s → hi (c.right k s) = hi s
  all_left : ∀ {s k}, P s → lo s < k → k < hi s → P (c.left k s)
  all_right : ∀ {s k}, P s → lo s < k → k < hi s → P (c.right k s)
  left : ∀ {s k x}, P s → lo s < k → k < hi s → x < k → v (c.left k s) x = v s x
  right : ∀ {s k x}, P s → lo s < k → k < hi s → k ≤ x → v (c.right k s) x = v s x

/-- The entries of a tree: in order, none empty, each satisfying `P`. -/
structure Tidy (P : α → Prop) (l : List α) : Prop where
  ordered : Ordered l
  proper : Proper l
  all : ∀ s ∈ l, P s

/-! ### The operation on a tree -/

/-- What is left of an overlapped entry: the part before the range, the part behind it. -/
def Cut.remnants (c : Cut α) (a b : ℕ) (s : α) : List α :=
  (if lo s < a then [c.left a s] else []) ++ if b < hi s then [c.right b s] else []

/-- The loop: erase entries while they start before `b`, remember what is left of them; the rest of the tree. -/
def Cut.scan (c : Cut α) (a b : ℕ) : List α → List α × List α
  | [] => ([], [])
  | s :: l => if lo s < b then ((c.remnants a b s) ++ (c.scan a b l).1, (c.scan a b l).2) else ([], s :: l)

/-- Put an entry where its start belongs. -/
def putSorted (l : List α) (m : α) : List α :=
  (l.takeWhile fun s => decide (lo s < lo m)) ++ m :: l.dropWhile fun s => decide (lo s < lo m)

/-- `emplace`: nothing happens if the start is taken. -/
def emplace (l : List α) (m : α) : List α :=
  if l.any fun s => decide (lo s = lo m) then l else putSorted l m

/-- `lower_bound`, and one step back if the predecessor reaches into the range. -/
def splitAt (a : ℕ) (l : List α) : List α × List α :=
  let before := l.takeWhile fun s => decide (lo s < a)
  let after := l.dropWhile fun s => decide (lo s < a)
  match before.getLast? with
  | some p => if a < hi p then (before.dropLast, p :: after) else (before, after)
  | none => (before, after)

/-- The new entry takes its range. -/
def overwrite (c : Cut α) (m : α) (l : List α) : List α :=
  let (before, after) := splitAt (lo m) l
  let (kept, rest) := c.scan (lo m) (hi m) after
  emplace (kept.foldl emplace (before ++ rest)) m

/-- What is left of any entry. -/
def Cut.trim (c : Cut α) (a b : ℕ) (s : α) : List α := if hi s ≤ a ∨ b ≤ lo s then [s] else c.remnants a b s

variable {c : Cut α} {P : α → Prop} {v : α → ℕ → β} {l : List α} {m s t : α} {a b x : ℕ}

theorem tidy_nil : Tidy P ([] : List α) :=
  ⟨ordered_nil, fun _ hs => absurd hs List.not_mem_nil, fun _ hs => absurd hs List.not_mem_nil⟩

/-! ### The parts of a tree -/

/-- The entries before, those that overlap a range, and those behind. -/
structure Parts (a b : ℕ) (l before met rest : List α) : Prop where
  eq : l = before ++ met ++ rest
  before : ∀ s ∈ before, hi s ≤ a
  met : ∀ s ∈ met, lo s < b ∧ a < hi s
  rest : ∀ s ∈ rest, b ≤ lo s

theorem le_lo_of_mem_dropWhile (ho : Ordered l) (hp : Proper l) (hs : s ∈ l.dropWhile fun t => decide (lo t < a)) :
    a ≤ lo s := by
  induction l with
  | nil => simp at hs
  | cons t l ih =>
    by_cases ht : lo t < a
    · rw [List.dropWhile_cons_of_pos (by simpa using ht)] at hs
      exact ih ho.tail (fun u hu => hp u (List.mem_cons_of_mem _ hu)) hs
    · rw [List.dropWhile_cons_of_neg (by simpa using ht)] at hs
      rcases List.mem_cons.mp hs with rfl | hs
      · omega
      · have h1 := ho.head_le hs
        have h2 := hp t List.mem_cons_self
        omega

/-- Where `lower_bound` and the step back split the tree. -/
theorem splitAt_spec (ho : Ordered l) (hp : Proper l) :
    l = (splitAt a l).1 ++ (splitAt a l).2 ∧ (∀ s ∈ (splitAt a l).1, hi s ≤ a) ∧
      ∀ s ∈ (splitAt a l).2, a < hi s := by
  have hsplit : (l.takeWhile fun s => decide (lo s < a)) ++ (l.dropWhile fun s => decide (lo s < a)) = l :=
    List.takeWhile_append_dropWhile
  have hafter : ∀ s ∈ l.dropWhile fun s => decide (lo s < a), a < hi s := by
    intro s hs
    have h1 := le_lo_of_mem_dropWhile ho hp hs
    have h2 := hp s ((List.dropWhile_sublist _).subset hs)
    omega
  have hord : Ordered (l.takeWhile fun s => decide (lo s < a)) := ho.sublist (List.takeWhile_sublist _)
  rcases List.eq_nil_or_concat (l.takeWhile fun s => decide (lo s < a)) with hnil | ⟨init, p, hcat⟩
  · have hval : splitAt a l = ([], l.dropWhile fun s => decide (lo s < a)) := by
      simp only [splitAt, hnil, List.getLast?_nil]
    rw [hval]
    rw [hnil] at hsplit
    exact ⟨hsplit.symm, fun s hs => absurd hs List.not_mem_nil, hafter⟩
  · rw [List.concat_eq_append] at hcat
    have hval : splitAt a l = if a < hi p then (init, p :: l.dropWhile fun s => decide (lo s < a))
        else (init ++ [p], l.dropWhile fun s => decide (lo s < a)) := by
      simp only [splitAt, hcat, List.getLast?_append, List.getLast?_singleton, Option.or_some,
        List.dropLast_concat]
      rfl
    have hlo : lo p < a := by
      have hmem : p ∈ l.takeWhile fun s => decide (lo s < a) := hcat ▸ List.mem_append_right _ List.mem_cons_self
      simpa using List.mem_takeWhile_imp hmem
    rw [hcat] at hord hsplit
    have hinit : ∀ s ∈ init, hi s ≤ lo p := fun s hs => (ordered_append.mp hord).2.2 s hs p List.mem_cons_self
    rw [hval]
    split_ifs with hover
    · refine ⟨?_, fun s hs => (hinit s hs).trans hlo.le, fun s hs => ?_⟩
      · exact hsplit.symm.trans (List.append_assoc _ _ _)
      · rcases List.mem_cons.mp hs with rfl | hs
        · exact hover
        · exact hafter s hs
    · refine ⟨hsplit.symm, fun s hs => ?_, hafter⟩
      rcases List.mem_append.mp hs with hs | hs
      · exact (hinit s hs).trans hlo.le
      · obtain rfl := List.mem_singleton.mp hs
        omega

/-- The loop stops at the first entry behind the range. -/
theorem Cut.scan_eq (c : Cut α) (a b : ℕ) (l : List α) :
    c.scan a b l = ((l.takeWhile fun s => decide (lo s < b)).flatMap (c.remnants a b),
      l.dropWhile fun s => decide (lo s < b)) := by
  induction l with
  | nil => rfl
  | cons s l ih =>
    unfold Cut.scan
    by_cases hs : lo s < b
    · rw [if_pos hs, ih, List.takeWhile_cons_of_pos (by simpa using hs),
        List.dropWhile_cons_of_pos (by simpa using hs), List.flatMap_cons]
    · rw [if_neg hs, List.takeWhile_cons_of_neg (by simpa using hs), List.dropWhile_cons_of_neg (by simpa using hs)]
      rfl

/-- Every range splits a tree into its parts. -/
theorem parts_of_ordered (ho : Ordered l) (hp : Proper l) (a b : ℕ) :
    Parts a b l (splitAt a l).1 ((splitAt a l).2.takeWhile fun s => decide (lo s < b))
      ((splitAt a l).2.dropWhile fun s => decide (lo s < b)) := by
  obtain ⟨heq, hbefore, hafter⟩ := splitAt_spec (a := a) ho hp
  have hsub : (splitAt a l).2.Sublist l := by
    conv_rhs => rw [heq]
    exact List.sublist_append_right _ _
  refine ⟨?_, hbefore, fun s hs => ?_, fun s hs => ?_⟩
  · rw [List.append_assoc, List.takeWhile_append_dropWhile]
    exact heq
  · exact ⟨by simpa using List.mem_takeWhile_imp hs, hafter s ((List.takeWhile_sublist _).subset hs)⟩
  · exact le_lo_of_mem_dropWhile (ho.sublist hsub) (fun u hu => hp u (hsub.subset hu)) hs

/-- An entry that the range does not meet stays; one that it meets is cut. -/
theorem Parts.flatMap_trim {before met rest : List α} (h : Parts a b l before met rest) :
    l.flatMap (c.trim a b) = before ++ met.flatMap (c.remnants a b) ++ rest := by
  have hself : ∀ {k : List α}, (∀ s ∈ k, hi s ≤ a ∨ b ≤ lo s) → k.flatMap (c.trim a b) = k := by
    intro k hk
    induction k with
    | nil => rfl
    | cons s k ih =>
      rw [List.flatMap_cons, ih fun t ht => hk t (List.mem_cons_of_mem _ ht), Cut.trim,
        if_pos (hk s List.mem_cons_self)]
      rfl
  have hcut : met.flatMap (c.trim a b) = met.flatMap (c.remnants a b) := by
    refine List.flatMap_congr fun s hs => ?_
    have := h.met s hs
    rw [Cut.trim, if_neg (by omega)]
  rw [h.eq, List.flatMap_append, List.flatMap_append, hcut, hself fun s hs => .inl (h.before s hs),
    hself fun s hs => .inr (h.rest s hs)]

/-! ### Cutting -/

theorem Cut.mem_trim (h : t ∈ c.trim a b s) :
    (t = s ∧ (hi s ≤ a ∨ b ≤ lo s)) ∨ (lo s < a ∧ a < hi s ∧ t = c.left a s) ∨
      lo s < b ∧ b < hi s ∧ t = c.right b s := by
  unfold Cut.trim Cut.remnants at h
  by_cases hout : hi s ≤ a ∨ b ≤ lo s
  · rw [if_pos hout] at h
    exact .inl ⟨List.mem_singleton.mp h, hout⟩
  · rw [if_neg hout] at h
    rcases List.mem_append.mp h with h | h
    · by_cases hl : lo s < a
      · rw [if_pos hl] at h
        exact .inr (.inl ⟨hl, by omega, List.mem_singleton.mp h⟩)
      · rw [if_neg hl] at h
        exact absurd h List.not_mem_nil
    · by_cases hr : b < hi s
      · rw [if_pos hr] at h
        exact .inr (.inr ⟨by omega, hr, List.mem_singleton.mp h⟩)
      · rw [if_neg hr] at h
        exact absurd h List.not_mem_nil

namespace Cut.Lawful

/-- A remnant is a part of its entry outside the range. -/
theorem bounds_trim (hc : c.Lawful P v) (hs : lo s < hi s) (h : t ∈ c.trim a b s) :
    lo s ≤ lo t ∧ hi t ≤ hi s ∧ lo t < hi t ∧ (hi t ≤ a ∨ b ≤ lo t) := by
  rcases Cut.mem_trim h with ⟨rfl, hout⟩ | ⟨h1, h2, rfl⟩ | ⟨h1, h2, rfl⟩
  · exact ⟨le_rfl, le_rfl, hs, hout⟩
  · rw [hc.lo_left h1 h2, hc.hi_left h1 h2]
    omega
  · rw [hc.lo_right h1 h2, hc.hi_right h1 h2]
    omega

theorem ordered_trim (hc : c.Lawful P v) (hab : a ≤ b) : Ordered (c.trim a b s) := by
  unfold Cut.trim Cut.remnants
  split_ifs with h1 h2 h3 h3
  · exact ordered_singleton s
  · refine ordered_cons.mpr ⟨fun t ht => ?_, ordered_singleton _⟩
    obtain rfl := List.mem_singleton.mp ht
    rw [hc.hi_left h2 (by omega), hc.lo_right (by omega) h3]
    exact hab
  · exact ordered_singleton _
  · exact ordered_singleton _
  · exact ordered_nil

/-- A remnant's values are those of its entry. -/
theorem value_trim (hc : c.Lawful P v) (hs : P s) (h : t ∈ c.trim a b s) (hx : Covers t x) : v t x = v s x := by
  rcases Cut.mem_trim h with ⟨rfl, -⟩ | ⟨h1, h2, rfl⟩ | ⟨h1, h2, rfl⟩
  · rfl
  · rw [Covers, hc.hi_left h1 h2] at hx
    exact hc.left hs h1 h2 hx.2
  · rw [Covers, hc.lo_right h1 h2] at hx
    exact hc.right hs h1 h2 hx.1

theorem all_trim (hc : c.Lawful P v) (hs : P s) (h : t ∈ c.trim a b s) : P t := by
  rcases Cut.mem_trim h with ⟨rfl, -⟩ | ⟨h1, h2, rfl⟩ | ⟨h1, h2, rfl⟩
  · exact hs
  · exact hc.all_left hs h1 h2
  · exact hc.all_right hs h1 h2

/-- What an entry covers outside the range, a remnant covers. -/
theorem exists_remnant (hc : c.Lawful P v) (hx : Covers s x) (hout : ¬ (a ≤ x ∧ x < b)) :
    ∃ t ∈ c.trim a b s, Covers t x := by
  unfold Cut.trim Cut.remnants
  split_ifs with h1 h2 h3 h3
  · exact ⟨s, List.mem_singleton_self s, hx⟩
  · rcases Nat.lt_or_ge x a with hlt | hge
    · refine ⟨_, List.mem_cons_self, ?_⟩
      rw [Covers, hc.lo_left h2 (by omega), hc.hi_left h2 (by omega)]
      exact ⟨hx.1, hlt⟩
    · refine ⟨_, List.mem_append_right _ List.mem_cons_self, ?_⟩
      rw [Covers, hc.lo_right (by omega) h3, hc.hi_right (by omega) h3]
      exact ⟨by omega, hx.2⟩
  · refine ⟨_, List.mem_cons_self, ?_⟩
    rw [Covers] at hx ⊢
    rw [hc.lo_left h2 (by omega), hc.hi_left h2 (by omega)]
    omega
  · refine ⟨_, List.mem_append_right _ List.mem_cons_self, ?_⟩
    rw [Covers] at hx ⊢
    rw [hc.lo_right (by omega) h3, hc.hi_right (by omega) h3]
    omega
  · rw [Covers] at hx
    omega

/-- **Taking a range out** leaves an ordered map without it. -/
theorem erase_spec (hc : c.Lawful P v) (hl : Tidy P l) (hab : a ≤ b) :
    Tidy P (l.flatMap (c.trim a b)) ∧
      ∀ x, lookup v (l.flatMap (c.trim a b)) x = if a ≤ x ∧ x < b then none else lookup v l x := by
  have hord : Ordered (l.flatMap (c.trim a b)) := by
    refine List.pairwise_flatMap.mpr ⟨fun s _ => hc.ordered_trim hab, ?_⟩
    refine List.Pairwise.imp_of_mem (fun {s t} hs ht hst => ?_) hl.ordered
    intro s' hs' t' ht'
    have h1 := hc.bounds_trim (hl.proper s hs) hs'
    have h2 := hc.bounds_trim (hl.proper t ht) ht'
    omega
  refine ⟨⟨hord, fun t ht => ?_, fun t ht => ?_⟩, fun x => ?_⟩
  · obtain ⟨s, hs, hts⟩ := List.mem_flatMap.mp ht
    exact (hc.bounds_trim (hl.proper s hs) hts).2.2.1
  · obtain ⟨s, hs, hts⟩ := List.mem_flatMap.mp ht
    exact hc.all_trim (hl.all s hs) hts
  · split_ifs with hx
    · refine lookup_none_iff.mpr fun t ht htx => ?_
      obtain ⟨s, hs, hts⟩ := List.mem_flatMap.mp ht
      have := (hc.bounds_trim (hl.proper s hs) hts).2.2.2
      unfold Covers at htx
      omega
    · cases hlook : lookup v l x with
      | none =>
        refine lookup_none_iff.mpr fun t ht htx => ?_
        obtain ⟨s, hs, hts⟩ := List.mem_flatMap.mp ht
        have := hc.bounds_trim (hl.proper s hs) hts
        refine lookup_none_iff.mp hlook s hs ?_
        unfold Covers at htx ⊢
        omega
      | some r =>
        obtain ⟨s, hs, hsx, rfl⟩ := exists_of_lookup_some hlook
        obtain ⟨t, ht, htx⟩ := hc.exists_remnant hsx hx
        rw [hord.lookup_of_mem (List.mem_flatMap.mpr ⟨s, hs, ht⟩) htx, hc.value_trim (hl.all s hs) ht htx]

end Cut.Lawful

/-! ### Putting an entry in -/

theorem mem_putSorted : s ∈ putSorted l m ↔ s = m ∨ s ∈ l := by
  have hsplit : (l.takeWhile fun s => decide (lo s < lo m)) ++ (l.dropWhile fun s => decide (lo s < lo m)) = l :=
    List.takeWhile_append_dropWhile
  rw [putSorted, List.mem_append, List.mem_cons, ← or_assoc, or_comm (b := s = m), or_assoc, ← List.mem_append,
    hsplit]

theorem putSorted_append {pre post : List α} (hpre : ∀ s ∈ pre, lo s < lo m) (hpost : ∀ s ∈ post, lo m ≤ lo s) :
    putSorted (pre ++ post) m = pre ++ m :: post := by
  have hpre' : ∀ s ∈ pre, decide (lo s < lo m) = true := fun s hs => by simpa using hpre s hs
  have htake : (post.takeWhile fun s => decide (lo s < lo m)) = [] := by
    cases post with
    | nil => rfl
    | cons s post => exact List.takeWhile_cons_of_neg (by simpa using hpost s List.mem_cons_self)
  have hdrop : (post.dropWhile fun s => decide (lo s < lo m)) = post := by
    cases post with
    | nil => rfl
    | cons s post => exact List.dropWhile_cons_of_neg (by simpa using hpost s List.mem_cons_self)
  unfold putSorted
  rw [List.takeWhile_append_of_pos hpre', List.dropWhile_append_of_pos hpre', htake, hdrop, List.append_nil]

theorem emplace_append {pre post : List α} (hpre : ∀ s ∈ pre, lo s < lo m) (hpost : ∀ s ∈ post, lo m < lo s) :
    emplace (pre ++ post) m = pre ++ m :: post := by
  have hfree : ((pre ++ post).any fun s => decide (lo s = lo m)) = false := by
    rw [List.any_eq_false]
    intro s hs
    have : lo s ≠ lo m := by
      rcases List.mem_append.mp hs with hs | hs
      · exact (hpre s hs).ne
      · exact (hpost s hs).ne'
    simpa using this
  rw [emplace, hfree]
  exact putSorted_append hpre fun s hs => (hpost s hs).le

/-- Entries that belong between two parts of a tree end up there. -/
theorem foldl_emplace {kept pre post : List α} (hkept : kept.Pairwise fun s t => lo s < lo t)
    (hpre : ∀ s ∈ pre, ∀ t ∈ kept, lo s < lo t) (hpost : ∀ s ∈ kept, ∀ t ∈ post, lo s < lo t) :
    kept.foldl emplace (pre ++ post) = pre ++ kept ++ post := by
  induction kept generalizing pre with
  | nil => rw [List.foldl_nil, List.append_nil]
  | cons k kept ih =>
    obtain ⟨hk, hrest⟩ := List.pairwise_cons.mp hkept
    rw [List.foldl_cons, emplace_append (fun s hs => hpre s hs k List.mem_cons_self)
      (hpost k List.mem_cons_self)]
    have hassoc : pre ++ k :: post = (pre ++ [k]) ++ post := by simp
    rw [hassoc, ih hrest ?_ fun s hs => hpost s (List.mem_cons_of_mem _ hs)]
    · simp
    · intro s hs t ht
      rcases List.mem_append.mp hs with hs | hs
      · exact hpre s hs t (List.mem_cons_of_mem _ ht)
      · obtain rfl := List.mem_singleton.mp hs
        exact hk t ht

/-- **Putting in** an entry whose range is free. -/
theorem putSorted_spec (hl : Tidy P l) (hm : lo m < hi m) (hPm : P m)
    (hfree : ∀ s ∈ l, hi s ≤ lo m ∨ hi m ≤ lo s) :
    Tidy P (putSorted l m) ∧
      ∀ x, lookup v (putSorted l m) x = if Covers m x then some (v m x) else lookup v l x := by
  have hsplit : (l.takeWhile fun s => decide (lo s < lo m)) ++ (l.dropWhile fun s => decide (lo s < lo m)) = l :=
    List.takeWhile_append_dropWhile
  have hbefore : ∀ s ∈ l.takeWhile fun s => decide (lo s < lo m), hi s ≤ lo m := by
    intro s hs
    have h1 : lo s < lo m := by simpa using List.mem_takeWhile_imp hs
    have h2 := hfree s ((List.takeWhile_sublist _).subset hs)
    omega
  have hafter : ∀ s ∈ l.dropWhile fun s => decide (lo s < lo m), hi m ≤ lo s := by
    intro s hs
    have h1 := le_lo_of_mem_dropWhile hl.ordered hl.proper hs
    have h2 := hfree s ((List.dropWhile_sublist _).subset hs)
    have h3 := hl.proper s ((List.dropWhile_sublist _).subset hs)
    omega
  obtain ⟨hob, hoa, hba⟩ := ordered_append.mp (hsplit ▸ hl.ordered)
  refine ⟨⟨?_, fun s hs => ?_, fun s hs => ?_⟩, fun x => ?_⟩
  · refine ordered_append.mpr ⟨hob, ordered_cons.mpr ⟨hafter, hoa⟩, fun s hs t ht => ?_⟩
    rcases List.mem_cons.mp ht with rfl | ht
    · exact hbefore s hs
    · exact hba s hs t ht
  · rcases mem_putSorted.mp hs with rfl | hs
    · exact hm
    · exact hl.proper s hs
  · rcases mem_putSorted.mp hs with rfl | hs
    · exact hPm
    · exact hl.all s hs
  · have hsame : lookup v l x = (lookup v (l.takeWhile fun s => decide (lo s < lo m)) x).or
        (lookup v (l.dropWhile fun s => decide (lo s < lo m)) x) := by
      rw [← lookup_append, hsplit]
    rw [putSorted, lookup_append, hsame]
    split_ifs with hx
    · have hnone : lookup v (l.takeWhile fun s => decide (lo s < lo m)) x = none := lookup_none_of_ge hbefore hx.1
      rw [hnone, lookup_cons_of_covers hx]
      rfl
    · rw [lookup_cons_of_not hx]

/-! ### The operation -/

/-- **The loop over the tree** cuts every entry and puts the new one between them. -/
theorem overwrite_eq (hc : c.Lawful P v) (hl : Tidy P l) (hm : lo m < hi m) :
    overwrite c m l = putSorted (l.flatMap (c.trim (lo m) (hi m))) m := by
  obtain ⟨⟨hord, hproper, -⟩, -⟩ := hc.erase_spec hl hm.le
  have hparts := parts_of_ordered hl.ordered hl.proper (lo m) (hi m)
  set before := (splitAt (lo m) l).1
  set met := (splitAt (lo m) l).2.takeWhile fun s => decide (lo s < hi m)
  set rest := (splitAt (lo m) l).2.dropWhile fun s => decide (lo s < hi m)
  have hflat := hparts.flatMap_trim (c := c)
  set kept := met.flatMap (c.remnants (lo m) (hi m))
  -- the remnants keep their places
  have hlt : (l.flatMap (c.trim (lo m) (hi m))).Pairwise fun s t => lo s < lo t := by
    refine List.Pairwise.imp_of_mem (fun {s t} hs _ hst => ?_) hord
    have := hproper s hs
    omega
  rw [hflat, List.pairwise_append, List.pairwise_append] at hlt
  obtain ⟨⟨-, hkept, hbk⟩, -, hrest⟩ := hlt
  have hfold : kept.foldl emplace (before ++ rest) = before ++ kept ++ rest :=
    foldl_emplace hkept hbk fun s hs => hrest s (List.mem_append_right _ hs)
  have hval : overwrite c m l = emplace (kept.foldl emplace (before ++ rest)) m := by
    simp only [overwrite, Cut.scan_eq]
    rfl
  have hfree : (l.flatMap (c.trim (lo m) (hi m))).any (fun s => decide (lo s = lo m)) = false := by
    rw [List.any_eq_false]
    intro t ht
    obtain ⟨s, hs, hts⟩ := List.mem_flatMap.mp ht
    have := hc.bounds_trim (hl.proper s hs) hts
    have hne : lo t ≠ lo m := by omega
    simpa using hne
  rw [hval, hfold, ← hflat, emplace, hfree]
  rfl

/-- **Overwriting** keeps the map ordered and changes the range only. -/
theorem overwrite_spec (hc : c.Lawful P v) (hl : Tidy P l) (hm : lo m < hi m) (hPm : P m) :
    Tidy P (overwrite c m l) ∧
      ∀ x, lookup v (overwrite c m l) x = if Covers m x then some (v m x) else lookup v l x := by
  obtain ⟨htidy, hlook⟩ := hc.erase_spec hl hm.le
  obtain ⟨htidy', hput⟩ := putSorted_spec (v := v) htidy hm hPm fun t ht => by
    obtain ⟨s, hs, hts⟩ := List.mem_flatMap.mp ht
    exact (hc.bounds_trim (hl.proper s hs) hts).2.2.2
  rw [overwrite_eq hc hl hm]
  refine ⟨htidy', fun x => ?_⟩
  rw [hput x, hlook x]
  split_ifs with hx hx'
  · rfl
  · exact absurd hx' hx
  · rfl

/-! ### Histories -/

/-- The map after a history, newest entry first. -/
def history (c : Cut α) (h : List α) : List α := h.foldr (overwrite c) []

/-- The entry of the history, counted from the oldest, that a position belongs to. -/
def owner : List α → ℕ → Option ℕ
  | [], _ => none
  | m :: older, x => if Covers m x then some older.length else owner older x

/-- A run of positions that belong to one entry of the history starts here. -/
def StartsRun (h : List α) (x : ℕ) : Prop := (owner h x).isSome ∧ (x = 0 ∨ owner h (x - 1) ≠ owner h x)

instance (h : List α) (x : ℕ) : Decidable (StartsRun h x) := inferInstanceAs (Decidable (_ ∧ _))

/-- How many such runs there are below a bound. -/
def runCount (h : List α) (bound : ℕ) : ℕ := ((Finset.range bound).filter (StartsRun h)).card

variable {h older : List α}

/-- **Last writer wins.** -/
theorem lookup_history (hc : c.Lawful P v) (hh : Proper h) (hP : ∀ s ∈ h, P s) :
    Tidy P (history c h) ∧ ∀ x, lookup v (history c h) x = lookup v h x := by
  induction h with
  | nil => exact ⟨tidy_nil, fun _ => rfl⟩
  | cons m older ih =>
    obtain ⟨ht, hl⟩ := ih (fun s hs => hh s (List.mem_cons_of_mem _ hs)) fun s hs => hP s (List.mem_cons_of_mem _ hs)
    obtain ⟨ht', hl'⟩ := overwrite_spec hc ht (hh m List.mem_cons_self) (hP m List.mem_cons_self)
    refine ⟨ht', fun x => ?_⟩
    rw [lookup_cons, ← hl x]
    exact hl' x

theorem owner_isSome_iff : (owner h x).isSome = true ↔ ∃ s ∈ h, Covers s x := by
  induction h with
  | nil => simp [owner]
  | cons m older ih =>
    unfold owner
    split_ifs with hx
    · exact ⟨fun _ => ⟨m, List.mem_cons_self, hx⟩, fun _ => rfl⟩
    · rw [ih]
      simp [hx]

theorem owner_lt {i : ℕ} (hi : owner h x = some i) : i < h.length := by
  induction h with
  | nil => cases hi
  | cons m older ih =>
    unfold owner at hi
    split_ifs at hi
    · obtain rfl := Option.some.inj hi
      exact Nat.lt_succ_self _
    · exact (ih hi).trans (Nat.lt_succ_self _)

/-- The newest entry starts a run, ends those it overlaps, and starts one behind itself if that is covered. -/
theorem startsRun_cons (hm : lo m < hi m) :
    StartsRun (m :: older) x ↔ x = lo m ∨ (¬ (lo m ≤ x ∧ x ≤ hi m) ∧ StartsRun older x) ∨
      (x = hi m ∧ (owner older x).isSome) := by
  have hfresh : ∀ y, owner older y ≠ some older.length := fun y hy => absurd (owner_lt hy) (lt_irrefl _)
  by_cases hx : Covers m x
  · have hown : owner (m :: older) x = some older.length := if_pos hx
    unfold Covers at hx
    rcases eq_or_ne x (lo m) with rfl | hne
    · refine ⟨fun _ => .inl rfl, fun _ => ⟨by rw [hown]; rfl, ?_⟩⟩
      rcases Nat.eq_zero_or_pos (lo m) with h0 | hpos
      · exact .inl h0
      · right
        have hout : ¬ Covers m (lo m - 1) := by
          unfold Covers
          omega
        rw [hown, owner, if_neg hout]
        exact hfresh _
    · have hin : Covers m (x - 1) := by
        unfold Covers
        omega
      have hno : ¬ StartsRun (m :: older) x := by
        rintro ⟨-, h0 | hne'⟩
        · omega
        · exact hne' (by rw [hown, owner, if_pos hin])
      refine ⟨fun hs => absurd hs hno, fun hs => ?_⟩
      omega
  · have hown : owner (m :: older) x = owner older x := if_neg hx
    unfold Covers at hx
    rcases eq_or_ne x (hi m) with rfl | hne
    · have hin : Covers m (hi m - 1) := by
        unfold Covers
        omega
      have hprev : owner (m :: older) (hi m - 1) = some older.length := if_pos hin
      unfold StartsRun
      rw [hown, hprev]
      refine ⟨fun hs => .inr (.inr ⟨rfl, hs.1⟩), fun hs => ⟨?_, .inr (hfresh _).symm⟩⟩
      rcases hs with hs | ⟨hs, -⟩ | ⟨-, hs⟩
      · omega
      · omega
      · exact hs
    · have hprev : owner (m :: older) (x - 1) = owner older (x - 1) ∨ x = 0 := by
        rcases Nat.eq_zero_or_pos x with h0 | hpos
        · exact .inr h0
        · refine .inl (if_neg ?_)
          unfold Covers
          omega
      have hsame : StartsRun (m :: older) x ↔ StartsRun older x := by
        unfold StartsRun
        rw [hown]
        rcases hprev with hprev | h0
        · rw [hprev]
        · simp [h0]
      rw [hsame]
      constructor
      · intro hs
        exact .inr (.inl ⟨by omega, hs⟩)
      · rintro (hs | ⟨-, hs⟩ | ⟨hs, -⟩)
        · omega
        · exact hs
        · exact absurd hs hne

/-- Where the entries start once one is overwritten. -/
theorem mem_lo_overwrite (hc : c.Lawful P v) (hl : Tidy P l) (hm : lo m < hi m) :
    x ∈ (overwrite c m l).map lo ↔ x = lo m ∨ (¬ (lo m ≤ x ∧ x ≤ hi m) ∧ x ∈ l.map lo) ∨
      (x = hi m ∧ ∃ s ∈ l, Covers s x) := by
  rw [overwrite_eq hc hl hm]
  simp only [List.mem_map, mem_putSorted, List.mem_flatMap]
  constructor
  · rintro ⟨t, rfl | ⟨s, hs, hts⟩, rfl⟩
    · exact .inl rfl
    · have hps := hl.proper s hs
      rcases Cut.mem_trim hts with ⟨rfl, hout⟩ | ⟨h1, h2, rfl⟩ | ⟨h1, h2, rfl⟩
      · rcases eq_or_ne (lo t) (hi m) with heq | hne
        · exact .inr (.inr ⟨heq, t, hs, le_rfl, hps⟩)
        · exact .inr (.inl ⟨by omega, t, hs, rfl⟩)
      · rw [hc.lo_left h1 h2]
        exact .inr (.inl ⟨by omega, s, hs, rfl⟩)
      · rw [hc.lo_right h1 h2]
        exact .inr (.inr ⟨rfl, s, hs, h1.le, h2⟩)
  · rintro (rfl | ⟨hout, s, hs, rfl⟩ | ⟨rfl, s, hs, hsx⟩)
    · exact ⟨m, .inl rfl, rfl⟩
    · have hps := hl.proper s hs
      by_cases hmeet : hi s ≤ lo m ∨ hi m ≤ lo s
      · exact ⟨s, .inr ⟨s, hs, by rw [Cut.trim, if_pos hmeet]; exact List.mem_singleton_self s⟩, rfl⟩
      · refine ⟨c.left (lo m) s, .inr ⟨s, hs, ?_⟩, hc.lo_left (by omega) (by omega)⟩
        rw [Cut.trim, if_neg hmeet, Cut.remnants, if_pos (by omega)]
        exact List.mem_cons_self
    · unfold Covers at hsx
      rcases Nat.eq_or_lt_of_le hsx.1 with heq | hlt
      · refine ⟨s, .inr ⟨s, hs, ?_⟩, heq⟩
        rw [Cut.trim, if_pos (.inr heq.ge)]
        exact List.mem_singleton_self s
      · refine ⟨c.right (hi m) s, .inr ⟨s, hs, ?_⟩, hc.lo_right hlt hsx.2⟩
        rw [Cut.trim, if_neg (by omega), Cut.remnants, if_pos hsx.2]
        exact List.mem_append_right _ List.mem_cons_self

/-- The entries of the map start where the runs of the history do. -/
theorem mem_lo_history (hc : c.Lawful P v) (hh : Proper h) (hP : ∀ s ∈ h, P s) :
    x ∈ (history c h).map lo ↔ StartsRun h x := by
  induction h generalizing x with
  | nil => simp [history, StartsRun, owner]
  | cons m older ih =>
    have hold : Proper older := fun s hs => hh s (List.mem_cons_of_mem _ hs)
    have hPold : ∀ s ∈ older, P s := fun s hs => hP s (List.mem_cons_of_mem _ hs)
    have hm := hh m List.mem_cons_self
    obtain ⟨ht, hl⟩ := lookup_history hc hold hPold
    have hcov : (∃ s ∈ history c older, Covers s x) ↔ (owner older x).isSome = true := by
      have h1 := lookup_none_iff (v := v) (l := history c older) (x := x)
      have h2 := lookup_none_iff (v := v) (l := older) (x := x)
      rw [hl x, h2] at h1
      rw [owner_isSome_iff]
      constructor
      · intro hex
        by_contra hno
        push Not at hno
        obtain ⟨s, hs, hsx⟩ := hex
        exact h1.mp hno s hs hsx
      · intro hex
        by_contra hno
        push Not at hno
        obtain ⟨s, hs, hsx⟩ := hex
        exact h1.mpr hno s hs hsx
    rw [startsRun_cons hm, ← ih hold hPold, ← hcov]
    exact mem_lo_overwrite hc ht hm

/-- **The size of the map** is the number of runs. -/
theorem length_history (hc : c.Lawful P v) (hh : Proper h) (hP : ∀ s ∈ h, P s) {bound : ℕ}
    (hb : ∀ m ∈ h, hi m ≤ bound) : (history c h).length = runCount h bound := by
  obtain ⟨⟨ho, hp, -⟩, -⟩ := lookup_history hc hh hP
  have hnodup : ((history c h).map lo).Nodup := by
    refine List.pairwise_map.mpr (List.Pairwise.imp_of_mem (fun {s t} hs _ hst => ?_) ho)
    have := hp s hs
    omega
  rw [← List.length_map (f := lo), ← List.toFinset_card_of_nodup hnodup, runCount]
  congr 1
  ext x
  rw [List.mem_toFinset, mem_lo_history hc hh hP, Finset.mem_filter, Finset.mem_range]
  refine ⟨fun hx => ⟨?_, hx⟩, fun hx => hx.2⟩
  obtain ⟨s, hs, hsx⟩ := owner_isSome_iff.mp hx.1
  exact hsx.2.trans_le (hb s hs)

@[simp] theorem runCount_nil (bound : ℕ) : runCount ([] : List α) bound = 0 := by
  refine Finset.card_eq_zero.mpr (Finset.filter_eq_empty_iff.mpr fun x _ hx => ?_)
  exact absurd hx.1 Bool.false_ne_true

theorem runCount_le (h : List α) (bound : ℕ) : runCount h bound ≤ bound :=
  (Finset.card_filter_le _ _).trans (Finset.card_range bound).le

/-- Only the bounds of a history matter to its runs. -/
theorem runCount_map {γ : Type*} [Interval γ] (f : α → γ) (hlo : ∀ s, lo (f s) = lo s) (hhi : ∀ s, hi (f s) = hi s)
    (h : List α) (bound : ℕ) : runCount (h.map f) bound = runCount h bound := by
  have howner : ∀ x, owner (h.map f) x = owner h x := by
    intro x
    induction h with
    | nil => rfl
    | cons m older ih =>
      have hc : Covers (f m) x ↔ Covers m x := by simp only [Covers, hlo, hhi]
      simp only [List.map_cons, owner, hc, ih, List.length_map]
  unfold runCount
  congr 1
  refine Finset.filter_congr fun x _ => ?_
  simp only [StartsRun, howner]

end Intervals
