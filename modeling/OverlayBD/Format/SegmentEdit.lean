import OverlayBD.Format.Merge
import OverlayBD.Lib.IntervalMap

/-!
# Editing a segment list

A writable layer keeps its mappings as a sorted list of disjoint runs.  A mutation of a range first takes
the range out of every run that meets it, keeping heads and tails (`eraseRange`), then puts the new runs
in: as they are (`placeSorted`, the ordered map of a log replay), or joined with the neighbours they
continue (`insertSorted`).

## The model

* `trim`, `eraseRange` — the split/trim loop of the LSMT writer and of its replay.
* `placeSorted` — insertion by offset.
* `insertSorted` — `insert_sorted` of the LSMT writer.
* `SectorMap`, `SectorMap.assign`, `logMap` — what an edit is for: a map of sectors, one run of it
  reassigned; a log of runs denotes the map its assignments produce.

## What is proved

Every edit keeps an index well formed and acts on the sectors as the assignment it stands for
(`eraseRange_spec`, `placeSorted_spec`, `insertSorted_spec`, `insertAll_spec`); reading a well-formed index
as a log gives back the index (`logMap_of_indexWf`).
-/

namespace OverlayBD

open Intervals SegmentMapping

/-! ### The abstract map -/

/-- What a device maps each sector to. -/
abbrev SectorMap := ℕ → Option Place

/-- The map after one run was assigned. -/
def SectorMap.assign (f : SectorMap) (m : SegmentMapping) : SectorMap :=
  fun x => if Covers m x then some (m.place x) else f x

/-- No payload sector is mapped twice. -/
def SectorMap.Exclusive (f : SectorMap) : Prop :=
  ∀ x y p, f x = some (.data p) → f y = some (.data p) → x = y

/-- The map a log of runs denotes, oldest first. -/
def logMap (log : List SegmentMapping) : SectorMap := log.foldl SectorMap.assign fun _ => none

theorem logMap_append (log more : List SegmentMapping) :
    logMap (log ++ more) = more.foldl SectorMap.assign (logMap log) :=
  List.foldl_append

theorem logMap_concat (log : List SegmentMapping) (m : SegmentMapping) :
    logMap (log ++ [m]) = (logMap log).assign m := by
  rw [logMap_append]
  rfl

/-- Assigning runs that do not overlap: each decides its own sectors. -/
theorem foldl_assign_of_ordered {ms : List SegmentMapping} (h : Ordered ms) (f : SectorMap) (x : ℕ) :
    ms.foldl SectorMap.assign f x = (resolve ms x).or (f x) := by
  induction ms generalizing f with
  | nil => rfl
  | cons m ms ih =>
    rw [List.foldl_cons, ih h.tail, SectorMap.assign]
    by_cases hc : Covers m x
    · have hnone : resolve ms x = none := h.lookup_tail hc
      rw [hnone, if_pos hc, resolve, lookup_cons_of_covers hc]
      rfl
    · rw [if_neg hc, resolve, resolve, lookup_cons_of_not hc]

variable {l : List SegmentMapping}

/-- A well-formed index, read as a log, denotes what it resolves. -/
theorem logMap_of_indexWf (h : IndexWf l) (x : ℕ) : logMap l x = resolve l x := by
  rw [logMap, foldl_assign_of_ordered h.ordered, Option.or_none]

/-! ### Taking a range out -/

/-- What is left of a run once sectors `[lo, hi)` are reassigned. -/
def trim (lo hi : ℕ) (s : SegmentMapping) : List SegmentMapping :=
  if s.stop ≤ lo ∨ hi ≤ s.offset then [s]
  else
    (if s.offset < lo then [s.takeHead (lo - s.offset)] else []) ++
      if hi < s.stop then [s.dropHead (hi - s.offset)] else []

/-- The list without sectors `[lo, hi)`. -/
def eraseRange (lo hi : ℕ) (l : List SegmentMapping) : List SegmentMapping := l.flatMap (trim lo hi)

/-- How a run is cut in two. -/
def runCut : Cut SegmentMapping where
  left k s := s.takeHead (k - s.offset)
  right k s := s.dropHead (k - s.offset)

theorem runCut_lawful : runCut.Lawful (fun s => s.length ≤ kMaxLength) place where
  lo_left _ _ := rfl
  hi_left h _ := Nat.add_sub_cancel' h.le
  lo_right h _ := Nat.add_sub_cancel' h.le
  hi_right {s k} h h' := by
    simp only [runCut, lo_eq, hi_eq, dropHead_offset, dropHead_length] at *
    omega
  all_left hs _ h := (Nat.sub_le_iff_le_add'.mpr h.le).trans hs
  all_right hs _ _ := (Nat.sub_le _ _).trans hs
  left _ _ _ _ := rfl
  right {s k x} _ h _ hx := place_dropHead ((Nat.add_sub_cancel' h.le).le.trans hx)

theorem tidy_iff : Tidy (fun s => s.length ≤ kMaxLength) l ↔ IndexWf l :=
  ⟨fun h => ⟨h.ordered, h.proper, h.all⟩, fun h => ⟨h.ordered, h.proper, h.short⟩⟩

/-- **Taking a range out** unmaps exactly its sectors. -/
theorem eraseRange_spec {lo hi : ℕ} (h : IndexWf l) (hlh : lo ≤ hi) :
    IndexWf (eraseRange lo hi l) ∧
      ∀ x, resolve (eraseRange lo hi l) x = if lo ≤ x ∧ x < hi then none else resolve l x := by
  obtain ⟨htidy, hres⟩ := runCut_lawful.erase_spec (tidy_iff.mpr h) hlh
  exact ⟨tidy_iff.mp htidy, hres⟩

/-! ### Putting a run in -/

/-- Insertion by offset. -/
def placeSorted (l : List SegmentMapping) (m : SegmentMapping) : List SegmentMapping :=
  (l.takeWhile fun s => decide (s.offset < m.offset)) ++
    m :: l.dropWhile fun s => decide (s.offset < m.offset)

variable {m : SegmentMapping}

/-- Two runs that do not overlap are one before the other. -/
theorem separated_of_clear {s : SegmentMapping} (h : IndexWf l)
    (hm : 0 < m.length) (hclear : ∀ x, Covers m x → resolve l x = none) (hs : s ∈ l) :
    s.stop ≤ m.offset ∨ m.stop ≤ s.offset := by
  by_contra hn
  have hp := h.proper s hs
  have hc : Covers s (max s.offset m.offset) := by
    simp only [covers_iff, lo_eq, hi_eq, stop] at *
    omega
  have hc' : Covers m (max s.offset m.offset) := by
    simp only [covers_iff, lo_eq, hi_eq, stop] at *
    omega
  exact lookup_none_iff.mp (hclear _ hc') s hs hc

/-- **Insertion by offset** of a run over unmapped sectors assigns them. -/
theorem placeSorted_spec (h : IndexWf l) (hm : 0 < m.length)
    (hlen : m.length ≤ kMaxLength) (hclear : ∀ x, Covers m x → resolve l x = none) :
    IndexWf (placeSorted l m) ∧ ∀ x, resolve (placeSorted l m) x = SectorMap.assign (resolve l) m x := by
  obtain ⟨htidy, hres⟩ := putSorted_spec (v := place) (tidy_iff.mpr h) (Nat.lt_add_of_pos_right hm) hlen
    fun s hs => separated_of_clear h hm hclear hs
  exact ⟨tidy_iff.mp htidy, hres⟩

/-- The coalescing test of `insert_sorted`: two DATA runs that continue each other. -/
def Joins (a b : SegmentMapping) : Prop :=
  a.stop = b.offset ∧ a.mend = b.moffset ∧ a.zeroed = false ∧ b.zeroed = false ∧
    a.length + b.length ≤ kMaxLength

instance (a b : SegmentMapping) : Decidable (Joins a b) := inferInstanceAs (Decidable (_ ∧ _ ∧ _ ∧ _ ∧ _))

/-- The run `a` extended over `b`. -/
def joined (a b : SegmentMapping) : SegmentMapping := { a with length := a.length + b.length }

/-- The first coalescing step: with the entry before. -/
def joinPrevious (before : List SegmentMapping) (m : SegmentMapping) : List SegmentMapping × SegmentMapping :=
  match before.getLast? with
  | some previous => if Joins previous m then (before.dropLast, joined previous m) else (before, m)
  | none => (before, m)

/-- The second: with the entry after. -/
def joinNext (m : SegmentMapping) : List SegmentMapping → List SegmentMapping
  | [] => [m]
  | next :: rest => if Joins m next then joined m next :: rest else m :: next :: rest

/-- `insert_sorted`. -/
def insertSorted (l : List SegmentMapping) (m : SegmentMapping) : List SegmentMapping :=
  let merged := joinPrevious (l.takeWhile fun s => decide (s.offset < m.offset)) m
  merged.1 ++ joinNext merged.2 (l.dropWhile fun s => decide (s.offset < m.offset))

/-- Joining two neighbours of an index changes nothing it resolves. -/
theorem join_spec {pre post : List SegmentMapping} {a b : SegmentMapping} (h : IndexWf (pre ++ a :: b :: post))
    (hj : Joins a b) :
    IndexWf (pre ++ joined a b :: post) ∧
      ∀ x, resolve (pre ++ joined a b :: post) x = resolve (pre ++ a :: b :: post) x := by
  obtain ⟨hstop, hmend, haz, hbz, hlen⟩ := hj
  have hm : a.moffset + a.length = b.moffset := by
    rw [← hmend, mend, haz]
    rfl
  have hjoin : Joined place a b (joined a b) :=
    joined_length hstop rfl fun x hx => place_of_continues hstop (haz.trans hbz.symm) (fun _ => hm) hx
  refine ⟨⟨h.ordered.join hjoin, forall_mem_join h.proper ?_, forall_mem_join h.short hlen⟩, fun x => lookup_join hjoin⟩
  have := h.proper a (List.mem_append_right _ List.mem_cons_self)
  simp only [lo_eq, hi_eq, joined] at *
  omega

/-- **`insert_sorted`** of a run over unmapped sectors assigns them. -/
theorem insertSorted_spec (h : IndexWf l) (hm : 0 < m.length)
    (hlen : m.length ≤ kMaxLength) (hclear : ∀ x, Covers m x → resolve l x = none) :
    IndexWf (insertSorted l m) ∧ ∀ x, resolve (insertSorted l m) x = SectorMap.assign (resolve l) m x := by
  obtain ⟨hwf, hr⟩ := placeSorted_spec h hm hlen hclear
  set before := l.takeWhile fun s => decide (s.offset < m.offset) with hbefore
  set after := l.dropWhile fun s => decide (s.offset < m.offset) with hafter
  -- the two steps join neighbours of the list that plain insertion gives
  have hprev : IndexWf ((joinPrevious before m).1 ++ (joinPrevious before m).2 :: after) ∧
      ∀ x, resolve ((joinPrevious before m).1 ++ (joinPrevious before m).2 :: after) x =
        resolve (before ++ m :: after) x := by
    unfold joinPrevious
    cases hl : before.getLast? with
    | none => exact ⟨hwf, fun _ => rfl⟩
    | some previous =>
      by_cases hj : Joins previous m
      · simp only [if_pos hj]
        have hout : before = before.dropLast ++ [previous] := (List.dropLast_append_getLast? _ hl).symm
        have hflat : before ++ m :: after = before.dropLast ++ previous :: m :: after := by
          conv_lhs => rw [hout]
          simp
        have hwf' : IndexWf (before ++ m :: after) := hwf
        rw [hflat] at hwf' ⊢
        exact join_spec hwf' hj
      · simp only [if_neg hj]
        exact ⟨hwf, fun _ => trivial⟩
  have hnext : IndexWf (insertSorted l m) ∧
      ∀ x, resolve (insertSorted l m) x =
        resolve ((joinPrevious before m).1 ++ (joinPrevious before m).2 :: after) x := by
    unfold insertSorted
    simp only [← hbefore, ← hafter]
    cases hd : after with
    | nil => rw [hd] at hprev; exact ⟨hprev.1, fun _ => rfl⟩
    | cons next rest =>
      rw [hd] at hprev
      rw [joinNext]
      by_cases hj : Joins (joinPrevious before m).2 next
      · rw [if_pos hj]
        exact join_spec hprev.1 hj
      · rw [if_neg hj]
        exact ⟨hprev.1, fun _ => rfl⟩
  exact ⟨hnext.1, fun x => (hnext.2 x).trans ((hprev.2 x).trans (hr x))⟩

/-- Inserting several runs that do not overlap, over unmapped sectors. -/
theorem insertAll_spec (ms : List SegmentMapping) : ∀ l : List SegmentMapping, IndexWf l → IndexWf ms →
    (∀ x, (resolve ms x).isSome = true → resolve l x = none) →
    IndexWf (ms.foldl insertSorted l) ∧
      ∀ x, resolve (ms.foldl insertSorted l) x = (resolve ms x).or (resolve l x) := by
  induction ms with
  | nil => exact fun l hl _ _ => ⟨hl, fun _ => rfl⟩
  | cons m ms ih =>
    intro l hl hms hclear
    have hpos : 0 < m.length := length_pos_of_proper hms.proper List.mem_cons_self
    obtain ⟨hwf, hr⟩ := insertSorted_spec hl hpos (hms.short m List.mem_cons_self) fun x hc => by
      refine hclear x ?_
      rw [resolve, lookup_cons_of_covers hc]
      rfl
    have hsep : ∀ x, Covers m x → resolve ms x = none := fun x hc => hms.ordered.lookup_tail hc
    obtain ⟨hwf', hr'⟩ := ih (insertSorted l m) hwf hms.of_cons fun x hx => by
      have hc : ¬ Covers m x := fun hc => by
        rw [hsep x hc] at hx
        cases hx
      rw [hr x, SectorMap.assign, if_neg hc]
      refine hclear x ?_
      rw [resolve, lookup_cons_of_not hc]
      exact hx
    refine ⟨hwf', fun x => ?_⟩
    rw [List.foldl_cons, hr' x, hr x, SectorMap.assign]
    by_cases hc : Covers m x
    · rw [if_pos hc, hsep x hc, resolve, lookup_cons_of_covers hc]
      rfl
    · rw [if_neg hc, show resolve (m :: ms) x = resolve ms x from lookup_cons_of_not hc]

/-- **Replacing a range**: taken out, then filled by runs that tile it. -/
theorem replaceRuns_spec {ms : List SegmentMapping} {lo hi : ℕ} (hl : IndexWf l) (hms : IndexWf ms)
    (hlh : lo ≤ hi) (htile : ∀ x, (resolve ms x).isSome = true ↔ lo ≤ x ∧ x < hi) :
    IndexWf (ms.foldl insertSorted (eraseRange lo hi l)) ∧
      ∀ x, resolve (ms.foldl insertSorted (eraseRange lo hi l)) x =
        if lo ≤ x ∧ x < hi then resolve ms x else resolve l x := by
  obtain ⟨hwf, hr⟩ := eraseRange_spec hl hlh
  obtain ⟨hwf', hr'⟩ := insertAll_spec ms _ hwf hms fun x hx => by rw [hr x, if_pos ((htile x).mp hx)]
  refine ⟨hwf', fun x => ?_⟩
  rw [hr' x, hr x]
  by_cases hx : lo ≤ x ∧ x < hi
  · rw [if_pos hx, if_pos hx, Option.or_none]
  · have hnone : resolve ms x = none := by
      rw [← Option.not_isSome_iff_eq_none, htile x]
      exact hx
    rw [if_neg hx, if_neg hx, hnone, Option.none_or]

end OverlayBD
