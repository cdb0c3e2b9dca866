import OverlayBD.Format.Merge

/-!
# Merging the indexes that `LsmtLayer::open` accepts

`LsmtLayer::open` checks the order of an index, not that its entries are long enough to map something.  The loop of
`merge_range` passes an empty entry, but not before it has handed the gap in front of it to the lower levels; its
window does not move, so the same gap is handed down again.

## The model

* `AcceptedIndex` — what the checks of `open` give.
* `ScanStep`, `scanSteps` — the loop over one level as the sequence of what it does: hand a gap down, or append an
  entry.
* `Harmless` — no empty entry stands behind a gap in which the lower levels map something.

## What is proved

* `mergeRange_of_harmless` — the merge does not notice harmless empty entries.
* `coverage_twice` — a harmful one makes the merge emit a sector twice.
* `goodIndex_iff` — the merged index is in order and resolves as the topmost level exactly when the empty
  entries are harmless.
-/

namespace OverlayBD

open Intervals SegmentMapping

/-- **An index as `open` accepts it**: in order, with lengths of the encoding.  Entries may be empty. -/
structure AcceptedIndex (l : List SegmentMapping) : Prop where
  ordered : Ordered l
  short : ∀ s ∈ l, s.length ≤ kMaxLength

/-- The entries that map something. -/
def nonempty (l : List SegmentMapping) : List SegmentMapping := l.filter fun s => decide (s.length ≠ 0)

section Nonempty

variable {l : List SegmentMapping}

theorem resolve_nonempty (l : List SegmentMapping) (x : ℕ) : resolve (nonempty l) x = resolve l x := by
  induction l with
  | nil => rfl
  | cons s l ih =>
    by_cases hs : s.length = 0
    · have hn : ¬ Covers s x := by
        simp only [covers_iff]
        omega
      rw [nonempty, List.filter_cons_of_neg (by simp [hs]), resolve, resolve, lookup_cons_of_not hn]
      exact ih
    · rw [nonempty, List.filter_cons_of_pos (by simp [hs])]
      by_cases hc : Covers s x
      · rw [resolve, resolve, lookup_cons_of_covers hc, lookup_cons_of_covers hc]
      · rw [resolve, resolve, lookup_cons_of_not hc, lookup_cons_of_not hc]
        exact ih

theorem AcceptedIndex.nonempty_wf (h : AcceptedIndex l) : IndexWf (nonempty l) where
  ordered := h.ordered.sublist List.filter_sublist
  proper := by
    intro s hs
    have := (List.mem_filter.mp hs).2
    simp only [ne_eq, decide_not, Bool.not_eq_true', decide_eq_false_iff_not] at this
    simp only [lo_eq, hi_eq]
    omega
  short := fun s hs => h.short s (List.mem_filter.mp hs).1

theorem nonempty_dropWhile (h : Ordered l) (lo : ℕ) :
    nonempty (l.dropWhile fun s => decide (s.stop ≤ lo)) = (nonempty l).dropWhile fun s => decide (s.stop ≤ lo) := by
  have hsub : Ordered (nonempty l) := h.sublist List.filter_sublist
  rw [dropWhile_eq_filter h, dropWhile_eq_filter hsub, nonempty, nonempty, List.filter_comm]

end Nonempty

theorem topmost_nonempty (layers : List (List SegmentMapping)) (level x : ℕ) :
    topmost (layers.map nonempty) level x = topmost layers level x := by
  induction layers generalizing level with
  | nil => rfl
  | cons l lower ih => rw [List.map_cons, topmost, topmost, resolve_nonempty, ih]

/-! ### The loop as a sequence of steps -/

/-- One thing the loop does. -/
inductive ScanStep where
  /-- Hand `[lo, hi)` to the levels below. -/
  | gap (lo hi : ℕ)
  /-- Append an entry of this level. -/
  | own (s : SegmentMapping)

/-- What the loop does over the rest of a level. -/
def scanSteps (hi : ℕ) : List SegmentMapping → ℕ → List ScanStep
  | [], lo => if lo < hi then [.gap lo hi] else []
  | s :: rest, lo =>
    if hi ≤ s.offset then (if lo < hi then [.gap lo hi] else [])
    else
      (if lo < s.offset then [.gap lo s.offset] else []) ++
        if (clip s lo hi).length = 0 then scanSteps hi rest lo
        else .own (clip s lo hi) ::
          if hi ≤ (clip s lo hi).stop then [] else scanSteps hi rest (clip s lo hi).stop

/-- The effect of a step on the output. -/
def runStep (below : ℕ → ℕ → List SegmentMapping → List SegmentMapping) (level outputBegin : ℕ)
    (out : List SegmentMapping) : ScanStep → List SegmentMapping
  | .gap lo hi => below lo hi out
  | .own s => pushMerged outputBegin out { s with tag := level % 256 }

theorem mergeScan_eq (below : ℕ → ℕ → List SegmentMapping → List SegmentMapping) (level hi b : ℕ)
    (segs : List SegmentMapping) (lo : ℕ) (out : List SegmentMapping) :
    mergeScan below level hi b segs lo out = (scanSteps hi segs lo).foldl (runStep below level b) out := by
  induction segs generalizing lo out with
  | nil =>
    rw [mergeScan, scanSteps]
    split_ifs <;> rfl
  | cons s rest ih =>
    rw [mergeScan, scanSteps]
    by_cases hpast : hi ≤ s.offset
    · rw [if_pos hpast, if_pos hpast]
      split_ifs <;> rfl
    · rw [if_neg hpast, if_neg hpast, List.foldl_append]
      have hgap : (if lo < s.offset then [ScanStep.gap lo s.offset] else []).foldl (runStep below level b) out =
          if lo < s.offset then below lo s.offset out else out := by
        split_ifs <;> rfl
      rw [hgap]
      by_cases hz : (clip s lo hi).length = 0
      · simp only [if_pos hz]
        exact ih lo _
      · simp only [if_neg hz, List.foldl_cons]
        by_cases hdone : hi ≤ (clip s lo hi).stop
        · simp only [if_pos hdone]
          rfl
        · simp only [if_neg hdone]
          exact ih _ _

/-! ### Harmless empty entries -/

/-- **Over `[lo, hi)` the empty entries are harmless**: where one stands behind a gap, no level below maps a sector of
that gap. -/
def HarmlessIn (layers : List (List SegmentMapping)) (lo hi : ℕ) : Prop :=
  ∀ above l below, layers = above ++ l :: below → ∀ e ∈ l, e.length = 0 → e.offset < hi →
    ∀ x, lo ≤ x → x < e.offset → (∃ m ∈ below, Mapped m x) →
      (∃ y, x ≤ y ∧ y < e.offset ∧ Mapped l y) ∨ ∃ m ∈ above, ∃ y, x ≤ y ∧ y ≤ e.offset ∧ Mapped m y

/-- The empty entries of a stack are harmless. -/
def Harmless (layers : List (List SegmentMapping)) : Prop := HarmlessIn layers 0 kMaxOffset

section Harmless

variable {segs : List SegmentMapping} {lower layers : List (List SegmentMapping)} {lo hi : ℕ}

/-- A gap of the first level hands its window down. -/
theorem HarmlessIn.gap (h : HarmlessIn (segs :: lower) lo hi) {a c : ℕ} (ha : lo ≤ a) (hc : c ≤ hi)
    (hun : ∀ x, a ≤ x → x < c → ¬ Mapped segs x) : HarmlessIn lower a c := by
  intro above l below hsplit e he hz hec x hx hxe hm
  rcases h (segs :: above) l below (by rw [hsplit]; rfl) e he hz (by omega) x (by omega) hxe hm with hown | ⟨m, hmem, y, hy⟩
  · exact .inl hown
  · rcases List.mem_cons.mp hmem with rfl | hmem
    · exact absurd hy.2.2 (hun y (by omega) (by omega))
    · exact .inr ⟨m, hmem, y, hy⟩

/-- Nothing below a gap in front of an empty entry. -/
theorem HarmlessIn.vain (h : HarmlessIn (segs :: lower) lo hi) {e : SegmentMapping} (he : e ∈ segs) (hz : e.length = 0)
    (hhi : e.offset < hi) {a : ℕ} (ha : lo ≤ a) (hun : ∀ x, a ≤ x → x < e.offset → ¬ Mapped segs x) :
    ∀ m ∈ lower, ∀ x, a ≤ x → x < e.offset → ¬ Mapped m x := by
  intro m hm x hx hxe hmap
  rcases h [] segs lower rfl e he hz hhi x (by omega) hxe ⟨m, hm, hmap⟩ with ⟨y, hy1, hy2, hy3⟩ | ⟨m, hm, -⟩
  · exact hun y (by omega) hy2 hy3
  · exact nomatch hm

/-- A window no level maps adds nothing. -/
theorem mergeRange_unmapped (b : ℕ) {layers : List (List SegmentMapping)} {level lo hi : ℕ} {out : List SegmentMapping}
    (hord : ∀ l ∈ layers, Ordered l) (hun : ∀ l ∈ layers, ∀ x, lo ≤ x → x < hi → ¬ Mapped l x) :
    mergeRange layers level lo hi out b = out := by
  induction layers generalizing level lo hi out with
  | nil => rfl
  | cons segs lower ih =>
    rw [mergeRange]
    by_cases hlt : hi ≤ lo
    · rw [if_pos hlt]
    rw [if_neg hlt]
    have hsegs := hord segs List.mem_cons_self
    refine mergeScan_invariant (I := fun _ out' => out' = out) (fun _ _ _ _ _ h => h) (fun a c o ha _ hc _ h => ?_)
      (fun s hs a o ha hah hl hh hpos _ => ?_) (hsegs.sublist (List.dropWhile_sublist _)) (ahead_dropWhile hsegs lo)
      (by omega) rfl
    · rw [ih (fun l hl => hord l (List.mem_cons_of_mem _ hl))
        fun l hl x hx hx' => hun l (List.mem_cons_of_mem _ hl) x (by omega) (by omega)]
      exact h
    · -- an entry that would be appended maps a sector of the window
      refine absurd ⟨s, (List.dropWhile_sublist _).subset hs, ?_⟩ (hun segs List.mem_cons_self (max s.offset a) (by omega) (by omega))
      have h1 : (clip s a hi).length ≤ s.length := clip_length_le
      simp only [covers_iff, stop] at hl ⊢
      omega

/-- The step lemma: over one level, empty entries that hand nothing down can be left out. -/
theorem mergeScan_nonempty {below below' : ℕ → ℕ → List SegmentMapping → List SegmentMapping} {level b : ℕ}
    (hord : Ordered segs) (hahead : Ahead segs lo) (hlt : lo < hi)
    (hsame : ∀ a c o, lo ≤ a → c ≤ hi → (∀ x, a ≤ x → x < c → ¬ Mapped segs x) → below a c o = below' a c o)
    (hvain : ∀ e ∈ segs, e.length = 0 → e.offset < hi → ∀ a o, lo ≤ a → (∀ x, a ≤ x → x < e.offset → ¬ Mapped segs x) →
      below a e.offset o = o) (out : List SegmentMapping) :
    mergeScan below level hi b segs lo out = mergeScan below' level hi b (nonempty segs) lo out := by
  induction segs generalizing lo out with
  | nil =>
    rw [nonempty, List.filter_nil, mergeScan, mergeScan, if_pos hlt, if_pos hlt]
    exact hsame lo hi out le_rfl le_rfl (by rintro x _ _ ⟨_, ⟨⟩, _⟩)
  | cons s rest ih =>
    have hlater : ∀ t ∈ rest, s.stop ≤ t.offset := fun t ht => hord.head_le ht
    have hbefore : ∀ {c : ℕ}, c ≤ s.offset → ∀ x, lo ≤ x → x < c → ¬ Mapped (s :: rest) x := by
      rintro c hc x _ hx ⟨t, ht, hcov⟩
      rcases List.mem_cons.mp ht with rfl | ht
      · simp only [covers_iff] at hcov
        omega
      · have := hlater t ht
        simp only [covers_iff, stop] at hcov this
        omega
    have hrest : ∀ {p : ℕ}, lo ≤ p → s.stop ≤ p ∨ s.length = 0 → p < hi → Ahead rest p → ∀ o,
        mergeScan below level hi b rest p o = mergeScan below' level hi b (nonempty rest) p o := by
      intro p hp hdone hphi hah o
      have hcons : ∀ {a c : ℕ}, p ≤ a → (∀ x, a ≤ x → x < c → ¬ Mapped rest x) →
          ∀ x, a ≤ x → x < c → ¬ Mapped (s :: rest) x := by
        rintro a c ha hun x hx hx' ⟨t, ht, hcov⟩
        rcases List.mem_cons.mp ht with rfl | ht
        · simp only [covers_iff, stop] at hcov hdone
          omega
        · exact hun x hx hx' ⟨t, ht, hcov⟩
      exact ih hord.tail hah hphi (fun a c o ha hc hun => hsame a c o (hp.trans ha) hc (hcons ha hun))
        (fun e he hz hh a o ha hun => hvain e (List.mem_cons_of_mem _ he) hz hh a o (hp.trans ha) (hcons ha hun)) o
    by_cases hz : s.length = 0
    · have hfilter : nonempty (s :: rest) = nonempty rest := List.filter_cons_of_neg (by simp [hz])
      rw [mergeScan, hfilter]
      by_cases hpast : hi ≤ s.offset
      · -- neither loop has anything more in the window
        rw [if_pos hpast, if_pos hlt, hsame lo hi out le_rfl le_rfl (hbefore hpast)]
        cases hn : nonempty rest with
        | nil => rw [mergeScan, if_pos hlt]
        | cons t rest' =>
          have ht : t ∈ rest := (List.mem_filter.mp (hn ▸ List.mem_cons_self : t ∈ nonempty rest)).1
          have := hlater t ht
          rw [mergeScan, if_pos (by simp only [stop] at this; omega), if_pos hlt]
      · rw [if_neg hpast]
        have hgap : (if lo < s.offset then below lo s.offset out else out) = out := by
          by_cases hg : lo < s.offset
          · rw [if_pos hg]
            exact hvain s List.mem_cons_self hz (by omega) lo out le_rfl (hbefore le_rfl)
          · rw [if_neg hg]
        simp only [hgap, if_pos (clip_length_zero hz)]
        exact hrest le_rfl (.inr hz) hlt (fun t ht => hahead t (List.mem_cons_of_mem _ ht)) out
    · have hfilter : nonempty (s :: rest) = s :: nonempty rest := List.filter_cons_of_pos (by simp [hz])
      rw [mergeScan, hfilter, mergeScan]
      by_cases hpast : hi ≤ s.offset
      · rw [if_pos hpast, if_pos hpast, if_pos hlt, if_pos hlt]
        exact hsame lo hi out le_rfl le_rfl (hbefore hpast)
      · rw [if_neg hpast, if_neg hpast]
        have hgap : (if lo < s.offset then below lo s.offset out else out) =
            if lo < s.offset then below' lo s.offset out else out := by
          by_cases hg : lo < s.offset
          · rw [if_pos hg, if_pos hg]
            exact hsame lo s.offset out le_rfl (by omega) (hbefore le_rfl)
          · rw [if_neg hg, if_neg hg]
        obtain ⟨hl, hpos, hstop⟩ := clip_length_pos (by omega) hlt (hahead s List.mem_cons_self) hz
        simp only [hgap, if_neg (Nat.pos_iff_ne_zero.mp hpos)]
        by_cases hdone : hi ≤ (clip s lo hi).stop
        · rw [if_pos hdone, if_pos hdone]
        · rw [if_neg hdone, if_neg hdone]
          rw [hstop] at hdone ⊢
          rw [show min s.stop hi = s.stop by omega] at hdone ⊢
          exact hrest hl.le (.inl le_rfl) (by omega) (Ahead.after hord) _

/-- **Harmless empty entries can be left out** of the merge. -/
theorem mergeRange_of_harmless (b : ℕ) {layers : List (List SegmentMapping)} {level lo hi : ℕ} (out : List SegmentMapping)
    (hord : ∀ l ∈ layers, Ordered l) (h : HarmlessIn layers lo hi) :
    mergeRange layers level lo hi out b = mergeRange (layers.map nonempty) level lo hi out b := by
  induction layers generalizing level lo hi out with
  | nil => rfl
  | cons segs lower ih =>
    have hsegs := hord segs List.mem_cons_self
    have hlower : ∀ l ∈ lower, Ordered l := fun l hl => hord l (List.mem_cons_of_mem _ hl)
    have hsame : ∀ {a c : ℕ}, lo ≤ a → (∀ x, a ≤ x → x < c → ¬ Mapped (segs.dropWhile fun s => decide (s.stop ≤ lo)) x) →
        ∀ x, a ≤ x → x < c → ¬ Mapped segs x := by
      rintro a c ha hun x hx hx' ⟨s, hs, hcov⟩
      refine hun x hx hx' ⟨s, ?_, hcov⟩
      rw [dropWhile_eq_filter hsegs]
      refine List.mem_filter.mpr ⟨hs, decide_eq_true ?_⟩
      simp only [covers_iff, stop] at hcov ⊢
      omega
    rw [List.map_cons, mergeRange, mergeRange]
    by_cases hlt : hi ≤ lo
    · rw [if_pos hlt, if_pos hlt]
    rw [if_neg hlt, if_neg hlt, ← nonempty_dropWhile hsegs]
    refine mergeScan_nonempty (hsegs.sublist (List.dropWhile_sublist _)) (ahead_dropWhile hsegs lo) (by omega)
      (fun a c o ha hc hun => ih o hlower (h.gap ha hc (hsame ha hun))) (fun e he hz hh a o ha hun => ?_) out
    exact mergeRange_unmapped b hlower
      (h.vain ((List.dropWhile_sublist _).subset he) hz hh ha (hsame ha hun))

end Harmless

/-! ### Harmful ones -/

/-- How many entries map the sector. -/
def coverage (l : List SegmentMapping) (x : ℕ) : ℕ := l.countP fun s => decide (Covers s x)

theorem coverage_append (l m : List SegmentMapping) (x : ℕ) : coverage (l ++ m) x = coverage l x + coverage m x :=
  List.countP_append

theorem coverage_singleton (s : SegmentMapping) (x : ℕ) : coverage [s] x = if Covers s x then 1 else 0 := by
  rw [coverage, List.countP_singleton]
  simp only [decide_eq_true_eq]

/-- Entries in order map no sector twice. -/
theorem coverage_le_one {l : List SegmentMapping} (h : Ordered l) (x : ℕ) : coverage l x ≤ 1 := by
  induction l with
  | nil => exact Nat.zero_le _
  | cons s l ih =>
    rw [← List.singleton_append, coverage_append, coverage_singleton]
    by_cases hc : Covers s x
    · have hzero : coverage l x = 0 := by
        refine List.countP_eq_zero.mpr fun t ht => ?_
        have : s.stop ≤ t.offset := h.head_le ht
        simp only [covers_iff, stop, decide_eq_true_eq] at *
        omega
      rw [if_pos hc, hzero]
    · rw [if_neg hc, Nat.zero_add]
      exact ih h.tail

/-- An append counts its entry. -/
theorem coverage_pushMerged (b : ℕ) (out : List SegmentMapping) (s : SegmentMapping) (x : ℕ) :
    coverage out x + (if Covers s x then 1 else 0) ≤ coverage (pushMerged b out s) x := by
  have happend : coverage out x + (if Covers s x then 1 else 0) ≤ coverage (out ++ [s]) x := by
    rw [coverage_append, coverage_singleton]
  unfold pushMerged
  cases hl : out.getLast? with
  | none => exact happend
  | some previous =>
    by_cases hcont : b < out.length ∧ Continues previous s
    · simp only [if_pos hcont]
      have hout : out = out.dropLast ++ [previous] := (List.dropLast_append_getLast? _ hl).symm
      have hstop : previous.stop = s.offset := hcont.2.1
      conv_lhs => rw [hout, coverage_append, coverage_singleton]
      rw [coverage_append, coverage_singleton, Nat.add_assoc]
      refine Nat.add_le_add_left ?_ _
      simp only [covers_iff, stop] at hstop ⊢
      split_ifs <;> omega
    · simp only [if_neg hcont]
      exact happend

/-- A step that hands down a window with this sector. -/
def ScanStep.HandsDown (x : ℕ) : ScanStep → Prop
  | .gap lo hi => lo ≤ x ∧ x < hi
  | .own _ => False

instance (x : ℕ) (step : ScanStep) : Decidable (step.HandsDown x) := by
  cases step <;> unfold ScanStep.HandsDown <;> infer_instance

section Steps

variable {segs : List SegmentMapping} {lo hi : ℕ}

/-- Sectors the level does not map are handed down together. -/
theorem exists_gap (hord : Ordered segs) (hahead : Ahead segs lo) {x o : ℕ} (hlo : lo ≤ x) (hxo : x ≤ o) (ho : o < hi)
    (hun : ∀ y, x ≤ y → y ≤ o → ¬ Mapped segs y) : ∃ a c, ScanStep.gap a c ∈ scanSteps hi segs lo ∧ a ≤ x ∧ o < c := by
  induction segs generalizing lo with
  | nil =>
    rw [scanSteps, if_pos (by omega)]
    exact ⟨lo, hi, List.mem_singleton_self _, hlo, ho⟩
  | cons s rest ih =>
    have hun' : ∀ y, x ≤ y → y ≤ o → ¬ Mapped rest y := fun y h1 h2 ⟨t, ht, hc⟩ =>
      hun y h1 h2 ⟨t, List.mem_cons_of_mem _ ht, hc⟩
    rw [scanSteps]
    by_cases hpast : hi ≤ s.offset
    · rw [if_pos hpast, if_pos (by omega)]
      exact ⟨lo, hi, List.mem_singleton_self _, hlo, ho⟩
    rw [if_neg hpast]
    by_cases hz : s.length = 0
    · rw [if_pos (clip_length_zero hz)]
      obtain ⟨a, c, hmem, ha, hc⟩ := ih hord.tail (fun t ht => hahead t (List.mem_cons_of_mem _ ht)) hlo hun'
      exact ⟨a, c, List.mem_append_right _ hmem, ha, hc⟩
    have hlt : lo < hi := by omega
    obtain ⟨hl, hpos, hstop⟩ := clip_length_pos (by omega) hlt (hahead s List.mem_cons_self) hz
    rw [if_neg (Nat.pos_iff_ne_zero.mp hpos)]
    rcases Nat.lt_or_ge o s.offset with hos | hos
    · -- the run is in front of the entry
      rw [if_pos (by omega)]
      exact ⟨lo, s.offset, List.mem_cons_self, hlo, hos⟩
    · -- it is behind it
      have hxs : s.stop ≤ x := by
        by_contra hlt
        refine hun (max x s.offset) (le_max_left _ _) (max_le hxo hos) ⟨s, List.mem_cons_self, ?_⟩
        simp only [covers_iff, stop] at hlt ⊢
        omega
      rw [if_neg (show ¬ hi ≤ (clip s lo hi).stop by omega), hstop, show min s.stop hi = s.stop by omega]
      obtain ⟨a, c, hmem, ha, hc⟩ := ih hord.tail (Ahead.after hord) hxs hun'
      exact ⟨a, c, List.mem_append_right _ (List.mem_cons_of_mem _ hmem), ha, hc⟩

/-- The gap in front of an empty entry is handed down twice. -/
theorem gap_twice (hord : Ordered segs) (hahead : Ahead segs lo) {e : SegmentMapping} (he : e ∈ segs) (hz : e.length = 0)
    (hhi : e.offset < hi) {x : ℕ} (hlo : lo ≤ x) (hx : x < e.offset) (hun : ∀ y, x ≤ y → y < e.offset → ¬ Mapped segs y) :
    2 ≤ (scanSteps hi segs lo).countP fun step => decide (step.HandsDown x) := by
  induction segs generalizing lo with
  | nil => exact nomatch he
  | cons s rest ih =>
    have hun' : ∀ y, x ≤ y → y < e.offset → ¬ Mapped rest y := fun y h1 h2 ⟨t, ht, hc⟩ =>
      hun y h1 h2 ⟨t, List.mem_cons_of_mem _ ht, hc⟩
    rw [scanSteps]
    have hlater : ∀ t ∈ rest, s.stop ≤ t.offset := fun t ht => hord.head_le ht
    rcases List.mem_cons.mp he with rfl | he
    · -- once before it, and once more when the loop comes back
      rw [if_neg (by omega), if_pos (by omega), if_pos (clip_length_zero hz), List.countP_append]
      have hfirst : [ScanStep.gap lo e.offset].countP (fun step => decide (step.HandsDown x)) = 1 := by
        rw [List.countP_singleton, if_pos (decide_eq_true ⟨hlo, hx⟩)]
      obtain ⟨a, c, hmem, ha, hc⟩ := exists_gap hord.tail (fun t ht => hahead t (List.mem_cons_of_mem _ ht)) hlo le_rfl
        (show x < hi by omega) fun y h1 h2 => hun' y h1 (by omega)
      have hagain : 0 < (scanSteps hi rest lo).countP fun step => decide (step.HandsDown x) :=
        List.countP_pos_iff.mpr ⟨_, hmem, decide_eq_true ⟨ha, hc⟩⟩
      omega
    · have hse := hlater e he
      rw [if_neg (by simp only [stop] at hse; omega), List.countP_append]
      refine le_trans ?_ (Nat.le_add_left _ _)
      by_cases hzs : s.length = 0
      · rw [if_pos (clip_length_zero hzs)]
        exact ih hord.tail (fun t ht => hahead t (List.mem_cons_of_mem _ ht)) he hlo hun'
      · have hlt : lo < hi := by omega
        obtain ⟨hl, hpos, hstop⟩ := clip_length_pos (by simp only [stop] at hse; omega) hlt (hahead s List.mem_cons_self) hzs
        have hxs : s.stop ≤ x := by
          by_contra hlt
          refine hun (max x s.offset) (by omega) (by simp only [stop] at *; omega) ⟨s, List.mem_cons_self, ?_⟩
          simp only [covers_iff, stop] at hlt ⊢
          omega
        rw [if_neg (Nat.pos_iff_ne_zero.mp hpos), if_neg (show ¬ hi ≤ (clip s lo hi).stop by omega), hstop,
          show min s.stop hi = s.stop by omega]
        rw [List.countP_cons]
        exact (ih hord.tail (Ahead.after hord) he hxs hun').trans (Nat.le_add_right _ _)

end Steps

/-- A step that appends an entry with this sector. -/
theorem exists_own {segs : List SegmentMapping} {lo hi : ℕ} (hord : Ordered segs) (hahead : Ahead segs lo) {x : ℕ}
    (hlo : lo ≤ x) (hhi : x < hi) (hm : Mapped segs x) : ∃ t, ScanStep.own t ∈ scanSteps hi segs lo ∧ Covers t x := by
  induction segs generalizing lo with
  | nil =>
    obtain ⟨_, h, -⟩ := hm
    exact nomatch h
  | cons s rest ih =>
    have hlater : ∀ t ∈ rest, s.stop ≤ t.offset := fun t ht => hord.head_le ht
    have hlt : lo < hi := by omega
    have hs : s.offset ≤ x := by
      obtain ⟨t, ht, hc⟩ := hm
      rcases List.mem_cons.mp ht with rfl | ht
      · exact hc.1
      · have := hlater t ht
        simp only [covers_iff, stop] at hc this
        omega
    have hrest : ¬ Covers s x → Mapped rest x := by
      intro hn
      obtain ⟨t, ht, hc⟩ := hm
      rcases List.mem_cons.mp ht with rfl | ht
      · exact absurd hc hn
      · exact ⟨t, ht, hc⟩
    rw [scanSteps, if_neg (by omega)]
    by_cases hz : s.length = 0
    · rw [if_pos (clip_length_zero hz)]
      obtain ⟨t, hmem, hc⟩ := ih hord.tail (fun t ht => hahead t (List.mem_cons_of_mem _ ht)) hlo
        (hrest fun hc => by simp only [covers_iff] at hc; omega)
      exact ⟨t, List.mem_append_right _ hmem, hc⟩
    obtain ⟨hl, hpos, hstop⟩ := clip_length_pos (by omega) hlt (hahead s List.mem_cons_self) hz
    rw [if_neg (Nat.pos_iff_ne_zero.mp hpos)]
    by_cases hc : Covers s x
    · refine ⟨clip s lo hi, List.mem_append_right _ List.mem_cons_self, ?_⟩
      have hoff : (clip s lo hi).offset = max s.offset lo := clip_offset
      simp only [covers_iff, stop] at hc hstop ⊢
      omega
    · have hxs : s.stop ≤ x := by
        simp only [covers_iff, stop] at hc ⊢
        omega
      rw [if_neg (show ¬ hi ≤ (clip s lo hi).stop by omega), hstop, show min s.stop hi = s.stop by omega]
      obtain ⟨t, hmem, htc⟩ := ih hord.tail (Ahead.after hord) hxs (hrest hc)
      exact ⟨t, List.mem_append_right _ (List.mem_cons_of_mem _ hmem), htc⟩

/-- Steps that add to the coverage of a sector add up. -/
theorem coverage_steps {run : List SegmentMapping → ScanStep → List SegmentMapping} {x : ℕ} (p : ScanStep → Bool)
    (hkeep : ∀ o step, coverage o x ≤ coverage (run o step) x)
    (hadd : ∀ o step, p step = true → coverage o x + 1 ≤ coverage (run o step) x) (steps : List ScanStep)
    (out : List SegmentMapping) : coverage out x + steps.countP p ≤ coverage (steps.foldl run out) x := by
  induction steps generalizing out with
  | nil => exact le_rfl
  | cons step steps ih =>
    refine le_trans ?_ (ih _)
    rw [List.countP_cons]
    by_cases hp : p step = true
    · have := hadd out step hp
      rw [if_pos hp]
      omega
    · have := hkeep out step
      rw [if_neg hp]
      omega

/-- One step of several that adds `k`. -/
theorem coverage_of_mem {run : List SegmentMapping → ScanStep → List SegmentMapping} {x k : ℕ} {step : ScanStep}
    {steps : List ScanStep} (hmem : step ∈ steps) (hkeep : ∀ o step, coverage o x ≤ coverage (run o step) x)
    (hadd : ∀ o, coverage o x + k ≤ coverage (run o step) x) (out : List SegmentMapping) :
    coverage out x + k ≤ coverage (steps.foldl run out) x := by
  induction steps generalizing out with
  | nil => exact nomatch hmem
  | cons step' steps ih =>
    rcases List.mem_cons.mp hmem with rfl | hmem
    · have := coverage_steps (fun _ => false) hkeep (fun _ _ h => nomatch h) steps (run out step)
      have := hadd out
      rw [List.foldl_cons]
      omega
    · exact (Nat.add_le_add_right (hkeep out step') k).trans (ih hmem _)

section Twice

variable {level lo hi : ℕ}

/-- **A merge covers what its levels map**, and never less than before. -/
theorem coverage_mergeRange (b : ℕ) {layers : List (List SegmentMapping)} (hord : ∀ l ∈ layers, Ordered l)
    (out : List SegmentMapping) (x : ℕ) :
    coverage out x ≤ coverage (mergeRange layers level lo hi out b) x ∧
      (lo ≤ x → x < hi → (∃ l ∈ layers, Mapped l x) →
        coverage out x + 1 ≤ coverage (mergeRange layers level lo hi out b) x) := by
  induction layers generalizing level lo hi out with
  | nil => exact ⟨le_rfl, by rintro _ _ ⟨_, ⟨⟩, _⟩⟩
  | cons segs lower ih =>
    have hsegs := hord segs List.mem_cons_self
    have hlower : ∀ l ∈ lower, Ordered l := fun l hl => hord l (List.mem_cons_of_mem _ hl)
    rw [mergeRange]
    by_cases hlt : hi ≤ lo
    · rw [if_pos hlt]
      exact ⟨le_rfl, fun h1 h2 => absurd h1 (by omega)⟩
    rw [if_neg hlt, mergeScan_eq]
    set below := fun a c o => mergeRange lower (level + 1) a c o b with hbelow
    have hkeep : ∀ o step, coverage o x ≤ coverage (runStep below level b o step) x := by
      intro o step
      cases step with
      | gap a c => exact (ih hlower o).1
      | own s => exact (Nat.le_add_right _ _).trans (coverage_pushMerged b o { s with tag := level % 256 } x)
    have hahead := ahead_dropWhile hsegs lo
    have hord' := hsegs.sublist (List.dropWhile_sublist fun s => decide (s.stop ≤ lo))
    refine ⟨?_, fun hlo hhi hm => ?_⟩
    · exact (Nat.le_add_right _ _).trans (coverage_steps (fun _ => false) hkeep (by rintro _ _ ⟨⟩) _ out)
    by_cases hown : Mapped (segs.dropWhile fun s => decide (s.stop ≤ lo)) x
    · obtain ⟨t, hmem, hc⟩ := exists_own hord' hahead hlo hhi hown
      refine coverage_of_mem hmem hkeep (fun o => ?_) out
      have hcov : Covers ({ t with tag := level % 256 } : SegmentMapping) x := hc
      have hpush := coverage_pushMerged b o { t with tag := level % 256 } x
      rw [if_pos hcov] at hpush
      exact hpush
    · obtain ⟨a, c, hmem, ha, hc⟩ := exists_gap hord' hahead hlo le_rfl hhi fun y h1 h2 => by
        rwa [Nat.le_antisymm h2 h1]
      refine coverage_of_mem hmem hkeep (fun o => (ih hlower o).2 ha hc ?_) out
      obtain ⟨l, hl, hmap⟩ := hm
      rcases List.mem_cons.mp hl with rfl | hl
      · refine absurd ?_ hown
        obtain ⟨s, hs, hcov⟩ := hmap
        refine ⟨s, ?_, hcov⟩
        rw [dropWhile_eq_filter hsegs]
        refine List.mem_filter.mpr ⟨hs, decide_eq_true ?_⟩
        simp only [covers_iff, stop] at hcov ⊢
        omega
      · exact ⟨l, hl, hmap⟩

/-- **A harmful empty entry makes the merge map a sector twice.** -/
theorem coverage_twice (b : ℕ) {above below : List (List SegmentMapping)} {l : List SegmentMapping}
    (hord : ∀ m ∈ above ++ l :: below, Ordered m) {e : SegmentMapping} (he : e ∈ l) (hz : e.length = 0)
    (hhi : e.offset < hi) {x : ℕ} (hlo : lo ≤ x) (hx : x < e.offset) (hlow : ∃ m ∈ below, Mapped m x)
    (hown : ∀ y, x ≤ y → y < e.offset → ¬ Mapped l y) (habove : ∀ m ∈ above, ∀ y, x ≤ y → y ≤ e.offset → ¬ Mapped m y)
    (out : List SegmentMapping) :
    coverage out x + 2 ≤ coverage (mergeRange (above ++ l :: below) level lo hi out b) x := by
  induction above generalizing level lo hi out with
  | nil =>
    have hl : Ordered l := hord l List.mem_cons_self
    have hbelow : ∀ m ∈ below, Ordered m := fun m hm => hord m (List.mem_cons_of_mem _ hm)
    rw [List.nil_append, mergeRange, if_neg (by omega), mergeScan_eq]
    refine le_trans (Nat.add_le_add_left ?_ _) (coverage_steps (fun step => decide (step.HandsDown x)) (fun o step => ?_)
      (fun o step hd => ?_) _ out)
    · refine gap_twice (hl.sublist (List.dropWhile_sublist _)) (ahead_dropWhile hl lo) ?_ hz hhi hlo hx fun y h1 h2 => ?_
      · rw [dropWhile_eq_filter hl]
        refine List.mem_filter.mpr ⟨he, decide_eq_true ?_⟩
        simp only [stop]
        omega
      · rintro ⟨s, hs, hc⟩
        exact hown y h1 h2 ⟨s, (List.dropWhile_sublist _).subset hs, hc⟩
    · cases step with
      | gap a c => exact (coverage_mergeRange b hbelow o x).1
      | own s => exact (Nat.le_add_right _ _).trans (coverage_pushMerged b o { s with tag := level % 256 } x)
    · cases step with
      | gap a c =>
        have hin : a ≤ x ∧ x < c := of_decide_eq_true hd
        exact (coverage_mergeRange b hbelow o x).2 hin.1 hin.2 hlow
      | own s => exact absurd (of_decide_eq_true hd : (ScanStep.own s).HandsDown x) id
  | cons segs above ih =>
    have hsegs : Ordered segs := hord segs List.mem_cons_self
    have hrest : ∀ m ∈ above ++ l :: below, Ordered m := fun m hm => hord m (List.mem_cons_of_mem _ hm)
    rw [List.cons_append, mergeRange, if_neg (by omega), mergeScan_eq]
    obtain ⟨a, c, hmem, ha, hc⟩ := exists_gap (hsegs.sublist (List.dropWhile_sublist _)) (ahead_dropWhile hsegs lo) hlo
      hx.le hhi (by
        rintro y h1 h2 ⟨s, hs, hcov⟩
        exact habove segs List.mem_cons_self y h1 h2 ⟨s, (List.dropWhile_sublist _).subset hs, hcov⟩)
    refine coverage_of_mem hmem (fun o step => ?_) (fun o => ?_) out
    · cases step with
      | gap a c => exact (coverage_mergeRange b hrest o x).1
      | own s => exact (Nat.le_add_right _ _).trans (coverage_pushMerged b o { s with tag := level % 256 } x)
    · exact ih hrest hc ha (fun m hm => habove m (List.mem_cons_of_mem _ hm)) o

end Twice

/-! ### The merged index -/

/-- **A merged index as it should be**: in order, with lengths of the encoding, and resolving every sector as the
topmost level that maps it. -/
structure GoodIndex (layers : List (List SegmentMapping)) (out : List SegmentMapping) : Prop where
  ordered : Ordered out
  lengths : ∀ s ∈ out, 1 ≤ s.length ∧ s.length ≤ kMaxLength
  resolves : ∀ x < kMaxOffset, resolveTagged out x = topmost layers 0 x

/-- Harmless empty entries can be left out of the stack. -/
theorem mergeIndexes_of_harmless {layers : List (List SegmentMapping)} (hord : ∀ l ∈ layers, Ordered l)
    (h : Harmless layers) : mergeIndexes layers = mergeIndexes (layers.map nonempty) := by
  unfold mergeIndexes
  rw [mergeRange_of_harmless 0 [] hord h]

/-- Without its empty entries every accepted list is well-formed. -/
theorem nonempty_stack_wf {layers : List (List SegmentMapping)} (hacc : ∀ l ∈ layers, AcceptedIndex l) :
    ∀ l ∈ layers.map nonempty, IndexWf l := by
  intro l hl
  obtain ⟨l', hl', rfl⟩ := List.mem_map.mp hl
  exact (hacc l' hl').nonempty_wf

/-- **The merged index is as it should be exactly when the empty entries are harmless.** -/
theorem goodIndex_iff {layers : List (List SegmentMapping)} {out : List SegmentMapping}
    (hacc : ∀ l ∈ layers, AcceptedIndex l) (h : mergeIndexes layers = some out) :
    GoodIndex layers out ↔ Harmless layers := by
  have hord : ∀ l ∈ layers, Ordered l := fun l hl => (hacc l hl).ordered
  constructor
  · intro hgood
    obtain ⟨rfl, -⟩ := mergeIndexes_eq_some h
    by_contra hharm
    simp only [Harmless, HarmlessIn, not_forall, not_or, not_exists, not_and] at hharm
    obtain ⟨above, l, below, rfl, e, he, hz, hhi, x, hlo, hx, hlow, hown, habove⟩ := hharm
    exact absurd ((coverage_twice 0 hord he hz hhi hlo hx hlow hown habove []).trans
      (coverage_le_one hgood.ordered x)) (by omega)
  · intro hharm
    have hwf := nonempty_stack_wf hacc
    rw [mergeIndexes_of_harmless hord hharm] at h
    have hgood := mergeIndexes_wellFormed hwf h
    refine ⟨hgood.ordered, fun s hs => ⟨?_, hgood.short s hs⟩, fun x hx => ?_⟩
    · exact length_pos_of_proper hgood.proper hs
    · rw [resolveTagged_mergeIndexes hwf h, if_pos hx, topmost_nonempty]

end OverlayBD
