import OverlayBD.Format.Segment

/-!
# Merging layer indexes (`MergedLsmt::merge_range`, `merge_indexes`)

An image is a stack of layers, topmost first; its index is the merge of theirs.  `mergeRange` walks one
level over a window, hands every gap to the levels below it, and appends what it finds to the output,
coalescing with the last entry when the two continue each other.

## The model

* `clip`, `pushMerged` — the body of the loop: the run cut to the window, and the coalescing append.
* `mergeScan` — the loop over one level, the recursion into the lower levels a parameter.
* `mergeRange`, `mergeIndexes` — the two functions of the source.
* `topmost` — what the merge is for: the first level that maps a sector decides it, and the level,
  truncated to the eight bits of a tag, comes with the answer.

## What is proved

* `mergeScan_invariant` — the invariant rule of the loop.
* `mergeRange_spec` — over a window, the output resolves exactly as `topmost`; outside it, as before.
* `resolveTagged_mergeIndexes`, `mergeIndexes_wellFormed` — the same for the whole index.

Levels must be ordered and free of empty entries (`IndexWf`): the loop passes an empty entry without
moving its window, and would hand the gap before it down twice.
-/

namespace OverlayBD

open Intervals SegmentMapping

/-- Upper bound on the entries of a read-only or merged index (`lsmt::kMaxRoIndexSize`). -/
def kMaxRoIndexSize : ℕ := 1000000

/-! ### The source functions -/

/-- The run cut to `[lo, hi)`, head first. -/
def clip (s : SegmentMapping) (lo hi : ℕ) : SegmentMapping :=
  let s := if s.offset < lo then s.dropHead (lo - s.offset) else s
  if hi < s.stop then s.takeHead (hi - s.offset) else s

/-- `previous` and `s` are one run in two entries, short enough to be one. -/
def Continues (previous s : SegmentMapping) : Prop :=
  previous.stop = s.offset ∧ previous.tag = s.tag ∧ previous.zeroed = s.zeroed ∧
    (s.zeroed = true ∨ previous.mend = s.moffset) ∧ s.length ≤ kMaxLength - previous.length

instance (previous s : SegmentMapping) : Decidable (Continues previous s) :=
  inferInstanceAs (Decidable (_ ∧ _ ∧ _ ∧ _ ∧ _))

/-- Append to the output, extending its last entry where possible; entries before `outputBegin` are
not touched. -/
def pushMerged (outputBegin : ℕ) (out : List SegmentMapping) (s : SegmentMapping) :
    List SegmentMapping :=
  match out.getLast? with
  | some previous =>
    if outputBegin < out.length ∧ Continues previous s then
      out.dropLast ++ [{ previous with length := previous.length + s.length }]
    else out ++ [s]
  | none => out ++ [s]

/-- The loop of `merge_range` over the rest of one level.  `below` is the recursive call on the
levels underneath. -/
def mergeScan (below : ℕ → ℕ → List SegmentMapping → List SegmentMapping) (level hi outputBegin : ℕ) :
    List SegmentMapping → ℕ → List SegmentMapping → List SegmentMapping
  | [], lo, out => if lo < hi then below lo hi out else out
  | s :: rest, lo, out =>
    if hi ≤ s.offset then (if lo < hi then below lo hi out else out)
    else
      -- the gap before this entry belongs to the lower levels
      let out := if lo < s.offset then below lo s.offset out else out
      let s := clip s lo hi
      if s.length = 0 then mergeScan below level hi outputBegin rest lo out
      else
        let out := pushMerged outputBegin out { s with tag := level % 256 }
        if hi ≤ s.stop then out else mergeScan below level hi outputBegin rest s.stop out

/-- `merge_range`: levels `level, level + 1, …` merged over `[lo, hi)`. -/
def mergeRange : List (List SegmentMapping) → ℕ → ℕ → ℕ → List SegmentMapping → ℕ → List SegmentMapping
  | [], _, _, _, out, _ => out
  | segs :: lower, level, lo, hi, out, outputBegin =>
    if hi ≤ lo then out
    else
      -- `upper_bound`: the first entry that ends past `lo`
      mergeScan (fun a b o => mergeRange lower (level + 1) a b o outputBegin) level hi outputBegin
        (segs.dropWhile fun s => decide (s.stop ≤ lo)) lo out

/-- `merge_indexes` into an empty output; `none` is its `format_error`. -/
def mergeIndexes (layers : List (List SegmentMapping)) : Option (List SegmentMapping) :=
  let out := mergeRange layers 0 0 kMaxOffset [] 0
  if kMaxRoIndexSize < out.length then none else some out

/-! ### What a merge is for -/

/-- The first level that maps the sector, as the tag it will carry, and what it says. -/
def topmost : List (List SegmentMapping) → ℕ → ℕ → Option (ℕ × Place)
  | [], _, _ => none
  | segs :: lower, level, x =>
    ((resolve segs x).map (Prod.mk (level % 256))).or (topmost lower (level + 1) x)

/-- An index as every layer must present it. -/
structure IndexWf (l : List SegmentMapping) : Prop where
  ordered : Ordered l
  proper : Proper l
  short : ∀ s ∈ l, s.length ≤ kMaxLength

/-- The output built so far: an index of its own, all of it before `lo`. -/
structure Built (lo : ℕ) (out : List SegmentMapping) : Prop extends IndexWf out where
  before : ∀ s ∈ out, s.stop ≤ lo

theorem Built.mono {lo lo' : ℕ} {out : List SegmentMapping} (h : Built lo out) (hle : lo ≤ lo') :
    Built lo' out :=
  ⟨h.toIndexWf, fun s hs => (h.before s hs).trans hle⟩

theorem IndexWf.of_cons {s : SegmentMapping} {l : List SegmentMapping} (h : IndexWf (s :: l)) :
    IndexWf l :=
  ⟨h.ordered.tail, fun t ht => h.proper t (List.mem_cons_of_mem _ ht),
    fun t ht => h.short t (List.mem_cons_of_mem _ ht)⟩

theorem IndexWf.sublist {l m : List SegmentMapping} (h : IndexWf m) (hs : l.Sublist m) : IndexWf l :=
  ⟨h.ordered.sublist hs, fun t ht => h.proper t (hs.subset ht), fun t ht => h.short t (hs.subset ht)⟩

theorem indexWf_nil : IndexWf [] := ⟨ordered_nil, by simp [Proper], by simp⟩

/-! ### One append -/

section Clip

variable {s : SegmentMapping} {lo hi x : ℕ}

theorem clip_of_lt (h : s.offset < lo) :
    clip s lo hi = if hi < (s.dropHead (lo - s.offset)).stop then
      (s.dropHead (lo - s.offset)).takeHead (hi - lo) else s.dropHead (lo - s.offset) := by
  have : s.offset + (lo - s.offset) = lo := by omega
  simp [clip, h, this]

theorem clip_of_le (h : lo ≤ s.offset) :
    clip s lo hi = if hi < s.stop then s.takeHead (hi - s.offset) else s := by
  simp [clip, Nat.not_lt.mpr h]

theorem clip_offset : (clip s lo hi).offset = max s.offset lo := by
  rcases Nat.lt_or_ge s.offset lo with h | h
  · rw [clip_of_lt h]
    split_ifs <;> simp only [takeHead_offset, dropHead_offset] <;> omega
  · rw [clip_of_le h, Nat.max_eq_left h]
    split_ifs <;> rfl

theorem clip_stop (hs : s.offset < hi) (hl : lo < s.stop) (hlo : lo < hi) : (clip s lo hi).stop = min s.stop hi := by
  rcases Nat.lt_or_ge s.offset lo with h | h
  · rw [clip_of_lt h]
    split_ifs with hc <;> simp only [stop, takeHead_offset, takeHead_length, dropHead_offset,
      dropHead_length] at * <;> omega
  · rw [clip_of_le h]
    split_ifs with hc <;> simp only [stop, takeHead_offset, takeHead_length] at * <;> omega

theorem clip_place (hx : lo ≤ x) : (clip s lo hi).place x = s.place x := by
  rcases Nat.lt_or_ge s.offset lo with h | h
  · have hd : (s.dropHead (lo - s.offset)).place x = s.place x := place_dropHead (by omega)
    rw [clip_of_lt h]
    split_ifs <;> exact hd
  · rw [clip_of_le h]
    split_ifs <;> rfl

theorem clip_length_le : (clip s lo hi).length ≤ s.length := by
  rcases Nat.lt_or_ge s.offset lo with h | h
  · rw [clip_of_lt h]
    split_ifs with hc <;> simp only [stop, takeHead_length, dropHead_offset, dropHead_length] at * <;> omega
  · rw [clip_of_le h]
    split_ifs with hc <;> simp only [stop, takeHead_length] at * <;> omega

end Clip

variable {s : SegmentMapping}

/-- Two runs that continue each other say what their union says. -/
theorem Continues.place_eq {previous : SegmentMapping} (h : Continues previous s) {x : ℕ} (hx : s.offset ≤ x) :
    previous.placed x = s.placed x := by
  obtain ⟨hstop, htag, hzero, hphys, -⟩ := h
  rw [placed, placed, htag, place_of_continues hstop hzero (fun hz => ?_) hx]
  rw [← hzero, hz, mend, hz] at hphys
  simpa using hphys

variable {lo : ℕ} {out : List SegmentMapping}

theorem built_append (h : Built lo out) (hlo : lo ≤ s.offset) (hs : 0 < s.length) (hlen : s.length ≤ kMaxLength) :
    Built s.stop (out ++ [s]) where
  ordered := h.ordered.concat fun t ht => (h.before t ht).trans hlo
  proper := forall_mem_concat.mpr ⟨h.proper, Nat.lt_add_of_pos_right hs⟩
  short := forall_mem_concat.mpr ⟨h.short, hlen⟩
  before := forall_mem_concat.mpr ⟨fun t ht => (h.before t ht).trans (hlo.trans (Nat.le_add_right _ _)), le_rfl⟩

/-- A run past the end of an index adds exactly what it says. -/
theorem resolveTagged_append (h : Built lo out) (hlo : lo ≤ s.offset) (x : ℕ) :
    resolveTagged (out ++ [s]) x = if Covers s x then some (s.placed x) else resolveTagged out x := by
  have hord : Ordered (out ++ [s]) := h.ordered.concat fun t ht => (h.before t ht).trans hlo
  rw [resolveTagged, hord.lookup_insert, List.append_nil]

/-- Extending the last run of an index by one that continues it adds exactly what the new one says. -/
theorem built_extend {init : List SegmentMapping} {previous : SegmentMapping} (h : Built lo (init ++ [previous]))
    (hlo : lo ≤ s.offset) (hc : Continues previous s) (hs : 0 < s.length) :
    Built s.stop (init ++ [{ previous with length := previous.length + s.length }]) ∧
      ∀ x, resolveTagged (init ++ [{ previous with length := previous.length + s.length }]) x =
        if Covers s x then some (s.placed x) else resolveTagged (init ++ [previous]) x := by
  have hstop : previous.offset + previous.length = s.offset := hc.1
  have hmax : previous.length + s.length ≤ kMaxLength := by
    have h1 := h.short previous (by simp)
    have h2 := hc.2.2.2.2
    omega
  have hjoin : Joined placed previous s { previous with length := previous.length + s.length } :=
    joined_length hc.1 rfl fun x hx => hc.place_eq hx
  have happ := built_append h hlo hs (by omega)
  rw [List.append_assoc] at happ
  refine ⟨⟨⟨happ.ordered.join hjoin, forall_mem_join happ.proper ?_, forall_mem_join happ.short hmax⟩,
    forall_mem_join happ.before ?_⟩, fun x => ?_⟩
  · simp only [lo_eq, hi_eq]
    omega
  · simp only [stop]
    omega
  · rw [← resolveTagged_append h hlo, List.append_assoc]
    exact lookup_join hjoin

/-- **One append** keeps the output an index and adds exactly the new run to it. -/
theorem pushMerged_spec (h : Built lo out)
    (hlo : lo ≤ s.offset) (hs : 0 < s.length) (hlen : s.length ≤ kMaxLength) (b : ℕ) :
    Built s.stop (pushMerged b out s) ∧
      ∀ x, resolveTagged (pushMerged b out s) x =
        if Covers s x then some (s.placed x) else resolveTagged out x := by
  unfold pushMerged
  cases hl : out.getLast? with
  | none => exact ⟨built_append h hlo hs hlen, resolveTagged_append h hlo⟩
  | some previous =>
    by_cases hcont : b < out.length ∧ Continues previous s
    · simp only [if_pos hcont]
      have hout : out = out.dropLast ++ [previous] := (List.dropLast_append_getLast? _ hl).symm
      obtain ⟨hb, hr⟩ := built_extend (hout ▸ h) hlo hcont.2 hs
      refine ⟨hb, fun x => ?_⟩
      rw [hr x, ← hout]
    · simp only [if_neg hcont]
      exact ⟨built_append h hlo hs hlen, resolveTagged_append h hlo⟩

/-! ### The loop over one level -/

/-- Some entry maps the sector. -/
def Mapped (l : List SegmentMapping) (x : ℕ) : Prop := ∃ s ∈ l, Covers s x

variable {l : List SegmentMapping}

theorem resolve_eq_none {x : ℕ} : resolve l x = none ↔ ¬ Mapped l x := by
  rw [resolve, lookup_none_iff]
  exact ⟨fun h ⟨s, hs, hc⟩ => h s hs hc, fun h s hs hc => h ⟨s, hs, hc⟩⟩

/-- In an ordered list the entries that end by a point come first. -/
theorem dropWhile_eq_filter (h : Ordered l) (lo : ℕ) :
    (l.dropWhile fun s => decide (s.stop ≤ lo)) = l.filter fun s => decide (lo < s.stop) := by
  induction l with
  | nil => rfl
  | cons s l ih =>
    by_cases hs : s.stop ≤ lo
    · rw [List.dropWhile_cons_of_pos (by simpa using hs), List.filter_cons_of_neg (by simpa using hs), ih h.tail]
    · rw [List.dropWhile_cons_of_neg (by simpa using hs)]
      refine (List.filter_eq_self.mpr fun t ht => decide_eq_true ?_).symm
      rcases List.mem_cons.mp ht with rfl | ht
      · omega
      · have hle : s.stop ≤ t.offset := h.head_le ht
        have : t.offset ≤ t.stop := Nat.le_add_right _ _
        omega

/-- Every entry the loop still has ahead reaches past the window's start, or begins there. -/
def Ahead (segs : List SegmentMapping) (lo : ℕ) : Prop := ∀ s ∈ segs, lo ≤ s.offset ∨ lo < s.stop

theorem ahead_dropWhile (h : Ordered l) (lo : ℕ) :
    Ahead (l.dropWhile fun s => decide (s.stop ≤ lo)) lo := by
  intro s hs
  rw [dropWhile_eq_filter h] at hs
  exact .inr (of_decide_eq_true (List.mem_filter.mp hs).2)

section Scan

variable {segs : List SegmentMapping} {s : SegmentMapping} {rest : List SegmentMapping} {lo hi : ℕ}

theorem Ahead.after (h : Ordered (s :: rest)) : Ahead rest s.stop := fun _ ht => .inl (h.head_le ht)

/-- In front of its first entry an ordered list maps nothing. -/
theorem not_mapped_of_lt (h : Ordered (s :: rest)) {x : ℕ} (hx : x < s.offset) : ¬ Mapped (s :: rest) x := by
  rintro ⟨t, ht, hc⟩
  rcases List.mem_cons.mp ht with rfl | ht
  · simp only [covers_iff] at hc
    omega
  · have hlater : s.stop ≤ t.offset := h.head_le ht
    simp only [covers_iff, stop] at hc hlater
    omega

/-- The cut of an entry is empty only if the entry is. -/
theorem clip_length_pos (hs : s.offset < hi) (hlo : lo < hi) (ha : lo ≤ s.offset ∨ lo < s.stop) (hpos : s.length ≠ 0) :
    lo < s.stop ∧ 0 < (clip s lo hi).length ∧ (clip s lo hi).stop = min s.stop hi := by
  have hl : lo < s.stop := by
    simp only [stop] at ha ⊢
    omega
  have hoff : (clip s lo hi).offset = max s.offset lo := clip_offset
  have hstop := clip_stop hs hl hlo
  refine ⟨hl, ?_, hstop⟩
  simp only [stop] at hstop hl
  omega

theorem clip_length_zero (hz : s.length = 0) : (clip s lo hi).length = 0 :=
  Nat.le_zero.mp (hz ▸ clip_length_le)

/-- **The invariant rule of the loop.**  `I p out` says what holds of the output when everything in front of `p` is
done; an empty entry sets the loop back, so where there is one the invariant must not depend on how far it got. -/
theorem mergeScan_invariant {below : ℕ → ℕ → List SegmentMapping → List SegmentMapping} {level b : ℕ}
    (I : ℕ → List SegmentMapping → Prop) (hmono : (∃ s ∈ segs, s.length = 0) → ∀ p p' out, p' ≤ p → I p out → I p' out)
    (hgap : ∀ a c out, lo ≤ a → a < c → c ≤ hi → (∀ x, a ≤ x → x < c → ¬ Mapped segs x) → I a out → I c (below a c out))
    (hown : ∀ s ∈ segs, ∀ a out, lo ≤ a → a < hi → a < s.stop → s.offset < hi → 0 < (clip s a hi).length →
      I (clip s a hi).offset out → I (clip s a hi).stop (pushMerged b out { clip s a hi with tag := level % 256 }))
    (hord : Ordered segs) (hahead : Ahead segs lo) (hlt : lo < hi) {out : List SegmentMapping} (hout : I lo out) :
    I hi (mergeScan below level hi b segs lo out) := by
  induction segs generalizing lo out with
  | nil =>
    rw [mergeScan, if_pos hlt]
    exact hgap lo hi out le_rfl hlt le_rfl (by rintro x _ _ ⟨_, ⟨⟩, _⟩) hout
  | cons s rest ih =>
    rw [mergeScan]
    by_cases hpast : hi ≤ s.offset
    · rw [if_pos hpast, if_pos hlt]
      exact hgap lo hi out le_rfl hlt le_rfl (fun x _ hx => not_mapped_of_lt hord (hx.trans_le hpast)) hout
    rw [if_neg hpast]
    -- the gap in front of the entry
    have hfront : I (max s.offset lo) (if lo < s.offset then below lo s.offset out else out) := by
      by_cases hg : lo < s.offset
      · rw [if_pos hg, Nat.max_eq_left hg.le]
        exact hgap lo s.offset out le_rfl hg (by omega) (fun x _ hx => not_mapped_of_lt hord hx) hout
      · rw [if_neg hg, Nat.max_eq_right (by omega)]
        exact hout
    have hrest : ∀ {p : ℕ} {out' : List SegmentMapping}, lo ≤ p → s.stop ≤ p ∨ s.length = 0 → p < hi → Ahead rest p →
        I p out' → I hi (mergeScan below level hi b rest p out') := by
      intro p out' hp hdone hphi hah hI
      refine ih ?_ (fun a c o ha hac hc hun => ?_) (fun t ht a o ha => ?_) hord.tail hah hphi hI
      · rintro ⟨t, ht, htz⟩
        exact hmono ⟨t, List.mem_cons_of_mem _ ht, htz⟩
      · refine hgap a c o (hp.trans ha) hac hc fun x hx hx' => ?_
        rintro ⟨t, ht, hcov⟩
        rcases List.mem_cons.mp ht with rfl | ht
        · simp only [covers_iff, stop] at hcov hdone
          omega
        · exact hun x hx hx' ⟨t, ht, hcov⟩
      · exact hown t (List.mem_cons_of_mem _ ht) a o (hp.trans ha)
    by_cases hz : s.length = 0
    · -- an empty entry: back to where the loop was
      simp only [if_pos (clip_length_zero hz)]
      exact hrest le_rfl (.inr hz) hlt (fun t ht => hahead t (List.mem_cons_of_mem _ ht))
        (hmono ⟨s, List.mem_cons_self, hz⟩ _ _ _ (le_max_right _ _) hfront)
    · obtain ⟨hl, hpos, hstop⟩ := clip_length_pos (by omega) hlt (hahead s List.mem_cons_self) hz
      have hpush := hown s List.mem_cons_self lo _ le_rfl hlt hl (by omega) hpos (clip_offset ▸ hfront)
      simp only [if_neg (Nat.pos_iff_ne_zero.mp hpos)]
      by_cases hdone : hi ≤ (clip s lo hi).stop
      · rw [if_pos hdone]
        rwa [hstop, Nat.min_eq_right (by omega)] at hpush
      · rw [if_neg hdone]
        rw [hstop] at hpush hdone ⊢
        have hle : min s.stop hi = s.stop := by omega
        rw [hle] at hpush hdone ⊢
        exact hrest hl.le (.inl le_rfl) (by omega) (Ahead.after hord) hpush

end Scan

/-! ### One level, then all -/

/-- What a merge over `[lo, hi)` must do to an output that so far ends by `lo`: answer `ans` inside the
window and nothing new outside. -/
def MergesTo (ans : ℕ → Option (ℕ × Place)) (lo hi : ℕ) (out out' : List SegmentMapping) : Prop :=
  Built hi out' ∧ ∀ x, resolveTagged out' x = if lo ≤ x ∧ x < hi then ans x else resolveTagged out x

variable {ans : ℕ → Option (ℕ × Place)} {lo hi : ℕ}

theorem MergesTo.trans {mid : ℕ} {o₁ o₂ o₃ : List SegmentMapping}
    (h₁ : MergesTo ans lo mid o₁ o₂) (h₂ : MergesTo ans mid hi o₂ o₃) (hlo : lo ≤ mid) (hhi : mid ≤ hi) :
    MergesTo ans lo hi o₁ o₃ := by
  refine ⟨h₂.1, fun x => ?_⟩
  rw [h₂.2 x]
  by_cases hx : mid ≤ x ∧ x < hi
  · rw [if_pos hx, if_pos (by omega)]
  · rw [if_neg hx, h₁.2 x]
    by_cases hx' : lo ≤ x ∧ x < mid
    · rw [if_pos hx', if_pos (by omega)]
    · rw [if_neg hx', if_neg (by omega)]

variable {out : List SegmentMapping}

theorem mergesTo_refl (h : Built lo out) : MergesTo ans lo lo out out :=
  ⟨h, fun x => by rw [if_neg (by omega)]⟩

theorem MergesTo.congr {ans' : ℕ → Option (ℕ × Place)} {o o' : List SegmentMapping}
    (h : MergesTo ans lo hi o o') (he : ∀ x, lo ≤ x → x < hi → ans x = ans' x) : MergesTo ans' lo hi o o' := by
  refine ⟨h.1, fun x => ?_⟩
  rw [h.2 x]
  by_cases hx : lo ≤ x ∧ x < hi
  · rw [if_pos hx, if_pos hx, he x hx.1 hx.2]
  · rw [if_neg hx, if_neg hx]

/-- The step lemma of the loop: a level's own entries first, the levels below in its gaps. -/
theorem mergeScan_spec {below : ℕ → ℕ → List SegmentMapping → List SegmentMapping}
    {level b : ℕ} (hbelow : ∀ lo up out, Built lo out → lo ≤ up → MergesTo ans lo up out (below lo up out))
    {segs : List SegmentMapping} (hw : IndexWf segs) (hahead : Ahead segs lo)
    (hlt : lo < hi) (hb : Built lo out) :
    MergesTo (fun x => ((resolve segs x).map (Prod.mk (level % 256))).or (ans x)) lo hi out
      (mergeScan below level hi b segs lo out) := by
  set ans' : ℕ → Option (ℕ × Place) := fun x => ((resolve segs x).map (Prod.mk (level % 256))).or (ans x) with hans
  refine mergeScan_invariant (I := fun p o => MergesTo ans' lo p out o) ?_ (fun a c o ha hac _ hun h => ?_)
    (fun s hs a o ha hah hl hh hpos h => ?_) hw.ordered hahead hlt (mergesTo_refl hb)
  · -- a well-formed level has no empty entry
    rintro ⟨s, hs, hz⟩
    exact absurd (length_pos_of_proper hw.proper hs) (by omega)
  · refine h.trans ((hbelow a c o h.1 hac.le).congr fun x hx hx' => ?_) ha hac.le
    simp only [hans, resolve_eq_none.mpr (hun x hx hx')]
    rfl
  · have hoff : (clip s a hi).offset = max s.offset a := clip_offset
    have hstop : (clip s a hi).stop = min s.stop hi := clip_stop hh hl hah
    set tagged : SegmentMapping := { clip s a hi with tag := level % 256 } with htag
    obtain ⟨hbuilt, hres⟩ :=
      pushMerged_spec (s := tagged) h.1 le_rfl hpos (clip_length_le.trans (hw.short s hs)) b
    refine h.trans ⟨hbuilt, fun x => ?_⟩ (by omega) (Nat.le_add_right _ _)
    rw [hres x]
    have hcov : Covers tagged x ↔ (clip s a hi).offset ≤ x ∧ x < (clip s a hi).stop := Iff.rfl
    by_cases hx : (clip s a hi).offset ≤ x ∧ x < (clip s a hi).stop
    · have hcs : Covers s x := by
        simp only [covers_iff, stop] at *
        omega
      have hplace : tagged.place x = s.place x := clip_place (by omega)
      rw [if_pos (hcov.mpr hx), if_pos hx, hans]
      simp only [resolve, hw.ordered.lookup_of_mem hs hcs, Option.map_some, Option.some_or]
      rw [placed, hplace]
    · rw [if_neg fun hc => hx (hcov.mp hc), if_neg hx]

/-- **The merge over a window** answers the topmost level inside it and changes nothing outside. -/
theorem mergeRange_spec (b : ℕ) : ∀ (layers : List (List SegmentMapping)) (level lo hi : ℕ)
    (out : List SegmentMapping), (∀ l ∈ layers, IndexWf l) → lo ≤ hi → Built lo out →
      MergesTo (topmost layers level) lo hi out (mergeRange layers level lo hi out b)
  | [], level, lo, hi, out, _, hle, hb => by
    refine ⟨hb.mono hle, fun x => ?_⟩
    rw [mergeRange]
    by_cases hx : lo ≤ x ∧ x < hi
    · rw [if_pos hx, topmost]
      exact lookup_none_of_ge hb.before hx.1
    · rw [if_neg hx]
  | segs :: lower, level, lo, hi, out, hw, hle, hb => by
    rw [mergeRange]
    by_cases hlt : hi ≤ lo
    · obtain rfl : lo = hi := by omega
      rw [if_pos hlt]
      exact mergesTo_refl hb
    · rw [if_neg hlt]
      have hsegs := hw segs List.mem_cons_self
      refine (mergeScan_spec (fun a b' o hb' hab => mergeRange_spec b lower (level + 1) a b' o
          (fun l hl => hw l (List.mem_cons_of_mem _ hl)) hab hb') (hsegs.sublist (List.dropWhile_sublist _))
        (ahead_dropWhile hsegs.ordered lo) (by omega) hb).congr fun x hx _ => ?_
      rw [topmost, show resolve (segs.dropWhile fun s => decide (s.stop ≤ lo)) x = resolve segs x from
        lookup_dropWhile_of_le hx]

variable {layers : List (List SegmentMapping)}

theorem mergeIndexes_eq_some (h : mergeIndexes layers = some out) :
    out = mergeRange layers 0 0 kMaxOffset [] 0 ∧ out.length ≤ kMaxRoIndexSize := by
  unfold mergeIndexes at h
  simp only at h
  split_ifs at h with hl
  obtain rfl := Option.some.inj h
  exact ⟨rfl, by omega⟩

theorem built_nil (lo : ℕ) : Built lo [] := ⟨indexWf_nil, by simp⟩

/-- **The merged index** is itself a well-formed index. -/
theorem mergeIndexes_wellFormed (hw : ∀ l ∈ layers, IndexWf l) (h : mergeIndexes layers = some out) : IndexWf out := by
  obtain ⟨rfl, -⟩ := mergeIndexes_eq_some h
  exact (mergeRange_spec 0 layers 0 0 kMaxOffset [] hw (Nat.zero_le _) (built_nil 0)).1.toIndexWf

/-- **The merged index** resolves every sector as the topmost level mapping it. -/
theorem resolveTagged_mergeIndexes (hw : ∀ l ∈ layers, IndexWf l) (h : mergeIndexes layers = some out) (x : ℕ) :
    resolveTagged out x = if x < kMaxOffset then topmost layers 0 x else none := by
  obtain ⟨rfl, -⟩ := mergeIndexes_eq_some h
  rw [(mergeRange_spec 0 layers 0 0 kMaxOffset [] hw (Nat.zero_le _) (built_nil 0)).2 x]
  simp

end OverlayBD
