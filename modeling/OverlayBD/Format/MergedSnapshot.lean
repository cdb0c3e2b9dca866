import Mathlib.Data.List.TakeWhile
import OverlayBD.Format.MergedWritable

/-!
# The snapshot of the writable merged view

`MergedWritable` answers reads from a snapshot of the merged index.  What makes a snapshot right is stated
once (`Snapshot`): it is a well-formed index and resolves every sector as the topmost layer that maps it.

## What is proved

* `spliceIndex_spec` — a splice that succeeds resolves as the old snapshot outside the range and as the
  top inside it.
* `rebuildIndex_spec`, `rebuildRange_spec` — after a repair the view has a right snapshot or none; the
  splice needs that the top moved nothing outside the range.
* `pread_spec` — over sources that hold the mapped payload a read returns, sector by sector, what the
  snapshot resolves the sector to.
-/

namespace OverlayBD

open Intervals SegmentMapping Bytes Errno

/-! ### The splice -/

namespace MergedWritable

theorem Adjoins.continues {prior m : SegmentMapping} (h : Adjoins prior m) (hp : prior.length ≤ kMaxLength) :
    Continues prior m := by
  obtain ⟨hstop, htag, hzero, hphys, hlen⟩ := h
  refine ⟨hstop, htag, hzero, ?_, by omega⟩
  cases hz : m.zeroed with
  | true => exact .inl rfl
  | false =>
    refine .inr ?_
    rw [hz] at hzero hphys
    unfold mend
    rw [hzero]
    exact hphys.resolve_left Bool.false_ne_true

variable {next : List SegmentMapping} {lo : ℕ}

/-- The splice's append does what `merge_range`'s does. -/
theorem spliceAppend_spec {m : SegmentMapping} (h : Built lo next)
    (hlo : lo ≤ m.offset) (hm : 0 < m.length) (hlen : m.length ≤ kMaxLength) :
    Built m.stop (spliceAppend next m).1 ∧
      ∀ x, resolveTagged (spliceAppend next m).1 x =
        if Covers m x then some (m.placed x) else resolveTagged next x := by
  unfold spliceAppend
  rw [if_neg (Nat.pos_iff_ne_zero.mp hm)]
  cases hl : next.getLast? with
  | none => exact ⟨built_append h hlo hm hlen, resolveTagged_append h hlo⟩
  | some prior =>
    have hout : next = next.dropLast ++ [prior] := (List.dropLast_append_getLast? _ hl).symm
    by_cases ha : Adjoins prior m
    · simp only [if_pos ha]
      have hp : prior ∈ next := by
        rw [hout]
        exact List.mem_append_right _ (List.mem_singleton_self _)
      obtain ⟨hb, hr⟩ := built_extend (hout ▸ h) hlo (ha.continues (h.short prior hp)) hm
      refine ⟨hb, fun x => ?_⟩
      rw [hr x, ← hout]
    · simp only [if_neg ha]
      exact ⟨built_append h hlo hm hlen, resolveTagged_append h hlo⟩

/-- What the top says, as the top of a stack. -/
def topAnswer (top : List SegmentMapping) (x : ℕ) : Option (ℕ × Place) := (resolve top x).map (Prod.mk 0)

/-- The step lemma of the copy: it covers the window without a gap, and answers as the top. -/
theorem spliceTop_spec (lo hi : ℕ) (hlh : lo < hi) : ∀ (top : List SegmentMapping) (cursor : ℕ)
    (next next' : List SegmentMapping), IndexWf top → (∀ s ∈ top, cursor < s.stop) → lo ≤ cursor →
      cursor ≤ hi → Built cursor next → spliceTop lo hi top cursor next = some next' →
      MergesTo (topAnswer top) cursor hi next next' ∧
        ∀ x, cursor ≤ x → x < hi → (resolve top x).isSome = true
  | [], cursor, next, next', _, _, _, _, hb, h => by
    rw [spliceTop] at h
    split_ifs at h with hc
    obtain rfl := Option.some.inj h
    subst hc
    exact ⟨mergesTo_refl hb, fun x hx hx' => absurd hx (by omega)⟩
  | m :: rest, cursor, next, next', hw, hend, hlo, hhi, hb, h => by
    rw [spliceTop] at h
    by_cases hpast : hi ≤ m.offset
    · rw [if_pos hpast] at h
      split_ifs at h with hc
      obtain rfl := Option.some.inj h
      subst hc
      exact ⟨mergesTo_refl hb, fun x hx hx' => absurd hx (by omega)⟩
    · rw [if_neg hpast] at h
      simp only at h
      by_cases hfirst : max lo m.offset = cursor
      swap
      · rw [if_pos hfirst] at h
        cases h
      rw [if_neg (not_not.mpr hfirst)] at h
      have hm : cursor < m.stop := hend m List.mem_cons_self
      have hlen := hw.short m List.mem_cons_self
      rw [hfirst] at h
      have hlt : cursor < hi := by omega
      set piece : SegmentMapping :=
        { offset := cursor
          length := min hi m.stop - cursor
          moffset := if m.zeroed then m.moffset else m.moffset + (cursor - m.offset)
          zeroed := m.zeroed
          tag := 0 } with hpiece
      have hpstop : piece.stop = min hi m.stop := by
        simp only [hpiece, stop] at hm ⊢
        omega
      have hcover : ∀ x, Covers piece x ↔ cursor ≤ x ∧ x < min hi m.stop := fun x => by
        rw [← hpstop]
        exact Iff.rfl
      -- the copied entry says what the top says
      have hplace : ∀ x, cursor ≤ x → x < min hi m.stop → some (piece.placed x) = topAnswer (m :: rest) x := by
        intro x hx hx'
        have hc : Covers m x := by
          simp only [covers_iff, stop] at hx' ⊢
          omega
        have hp : piece.place x = m.place x := by
          simp only [hpiece, place]
          cases m.zeroed with
          | true => rfl
          | false =>
            have : m.moffset + (cursor - m.offset) + (x - cursor) = m.moffset + (x - m.offset) := by omega
            simp [this]
        rw [topAnswer, resolve, lookup_cons_of_covers hc, placed, hp]
        rfl
      obtain ⟨hb₁, hr₁⟩ := spliceAppend_spec hb (m := piece) le_rfl (by simp only [hpiece]; omega)
        (by simp only [hpiece, stop]; omega)
      rw [hpstop] at hb₁
      have hlater : ∀ t ∈ rest, m.stop ≤ t.offset := fun t ht => hw.ordered.head_le ht
      have hown : MergesTo (topAnswer (m :: rest)) cursor (min hi m.stop) next (spliceAppend next piece).1 := by
        refine ⟨hb₁, fun x => ?_⟩
        rw [hr₁ x]
        by_cases hx : cursor ≤ x ∧ x < min hi m.stop
        · rw [if_pos ((hcover x).mpr hx), if_pos hx, hplace x hx.1 hx.2]
        · rw [if_neg fun hh => hx ((hcover x).mp hh), if_neg hx]
      obtain ⟨hrest, hall⟩ := spliceTop_spec lo hi hlh rest (min hi m.stop) _ next' hw.of_cons
        (fun t ht => by
          have h1 := hlater t ht
          have h2 := hw.proper t (List.mem_cons_of_mem _ ht)
          simp only [lo_eq, hi_eq, stop] at *
          omega) (by omega) (by omega) hb₁ h
      have hafter : ∀ x, min hi m.stop ≤ x → x < hi → resolve rest x = resolve (m :: rest) x := by
        intro x hx hx'
        refine (lookup_cons_of_not ?_).symm
        simp only [covers_iff, stop] at *
        omega
      refine ⟨hown.trans (hrest.congr fun x hx hx' => ?_) (by omega) (by omega), fun x hx hx' => ?_⟩
      · rw [topAnswer, topAnswer, hafter x hx hx']
      · by_cases hin : x < min hi m.stop
        · have hp := hplace x hx hin
          unfold topAnswer at hp
          cases hres : resolve (m :: rest) x with
          | none =>
            rw [hres] at hp
            cases hp
          | some _ => rfl
        · rw [← hafter x (by omega) hx']
          exact hall x (by omega) hx'

/-- Appending the rest of an index entry by entry until one is not merged. -/
theorem spliceTail_spec : ∀ (l next : List SegmentMapping) (lo : ℕ), IndexWf l → (∀ s ∈ l, lo ≤ s.offset) →
    Built lo next →
    IndexWf (spliceTail l next) ∧
      ∀ x, resolveTagged (spliceTail l next) x = (resolveTagged l x).or (resolveTagged next x)
  | [], next, lo, _, _, hb => ⟨hb.toIndexWf, fun x => by rw [spliceTail]; rfl⟩
  | m :: rest, next, lo, hw, hafter, hb => by
    have hm : 0 < m.length := length_pos_of_proper hw.proper List.mem_cons_self
    obtain ⟨hb₁, hr₁⟩ := spliceAppend_spec hb (hafter m List.mem_cons_self) hm (hw.short m List.mem_cons_self)
    have hlater : ∀ t ∈ rest, m.stop ≤ t.offset := fun t ht => hw.ordered.head_le ht
    -- an entry answers before the rest and before what precedes it
    have hsplit : ∀ x, (resolveTagged rest x).or (if Covers m x then some (m.placed x) else resolveTagged next x) =
        (resolveTagged (m :: rest) x).or (resolveTagged next x) := by
      intro x
      by_cases hc : Covers m x
      · have hn : resolveTagged rest x = none := hw.ordered.lookup_tail hc
        simp only [hn, if_pos hc, resolveTagged, lookup_cons_of_covers hc]
        rfl
      · simp only [if_neg hc, resolveTagged, lookup_cons_of_not hc]
    rw [spliceTail]
    split_ifs with hmerged
    · obtain ⟨hwf, hr⟩ := spliceTail_spec rest (spliceAppend next m).1 m.stop hw.of_cons hlater hb₁
      refine ⟨hwf, fun x => ?_⟩
      rw [hr x, hr₁ x, hsplit x]
    · refine ⟨⟨?_, ?_, ?_⟩, fun x => ?_⟩
      · exact ordered_append.mpr ⟨hb₁.ordered, hw.ordered.tail,
          fun s hs t ht => (hb₁.before s hs).trans (hlater t ht)⟩
      · intro s hs
        rcases List.mem_append.mp hs with hs | hs
        · exact hb₁.proper s hs
        · exact hw.proper s (List.mem_cons_of_mem _ hs)
      · intro s hs
        rcases List.mem_append.mp hs with hs | hs
        · exact hb₁.short s hs
        · exact hw.short s (List.mem_cons_of_mem _ hs)
      · rw [← hsplit x, ← hr₁ x]
        simp only [resolveTagged, lookup_append]
        -- the two parts do not overlap, so their order does not matter
        cases h1 : lookup placed (spliceAppend next m).1 x with
        | none => rw [Option.none_or, Option.or_none]
        | some v =>
          obtain ⟨s, hs, hsc, -⟩ := exists_of_lookup_some h1
          have hn : lookup placed rest x = none := lookup_none_of_lt hlater (hsc.2.trans_le (hb₁.before s hs))
          rw [hn]
          rfl

variable {old : List SegmentMapping}

/-- Everything an ordered index keeps past a point lies past the entry found there. -/
theorem IndexWf.rest_after {rest : List SegmentMapping} {f : SegmentMapping} {a : ℕ} (hw : IndexWf old)
    (hd : (old.dropWhile fun s => decide (s.stop ≤ a)) = f :: rest) :
    a < f.stop ∧ IndexWf (f :: rest) ∧ ∀ t ∈ rest, f.stop ≤ t.offset := by
  have hsub : IndexWf (f :: rest) := hd ▸ hw.sublist (List.dropWhile_sublist _)
  refine ⟨?_, hsub, fun t ht => hsub.ordered.head_le ht⟩
  exact hw.ordered.lt_hi_of_mem_dropWhile hw.proper (a := a) (by
    change f ∈ old.dropWhile fun s => decide (s.stop ≤ a)
    rw [hd]
    exact List.mem_cons_self)

theorem spliceHead_spec (hw : IndexWf old) (lo : ℕ) :
    MergesTo (resolveTagged old) 0 lo [] (spliceHead old lo) := by
  set before := old.takeWhile fun s => decide (s.stop ≤ lo) with hbefore
  have hsplit : before ++ (old.dropWhile fun s => decide (s.stop ≤ lo)) = old := List.takeWhile_append_dropWhile
  have hle : ∀ s ∈ before, s.stop ≤ lo := fun s hs => by
    simpa using List.mem_takeWhile_imp hs
  have hb : Built lo before := ⟨hw.sublist (List.takeWhile_sublist _), hle⟩
  have hold : ∀ x, resolveTagged old x =
      (resolveTagged before x).or (resolveTagged (old.dropWhile fun s => decide (s.stop ≤ lo)) x) := by
    intro x
    conv_lhs => rw [← hsplit]
    exact lookup_append
  have hout : ∀ x, ¬ x < lo → resolveTagged before x = none := fun x hx => lookup_none_of_ge hle (Nat.le_of_not_lt hx)
  unfold spliceHead
  cases hd : old.dropWhile fun s => decide (s.stop ≤ lo) with
  | nil =>
    refine ⟨hb, fun x => ?_⟩
    rw [hold x, hd]
    by_cases hx : x < lo
    · rw [if_pos ⟨Nat.zero_le _, hx⟩]
      exact (Option.or_none).symm
    · rw [if_neg (by omega), hout x hx]
      rfl
  | cons f rest =>
    obtain ⟨hf, hsub, hafter⟩ := IndexWf.rest_after hw hd
    have hlen := hsub.short f List.mem_cons_self
    have hrest : ∀ x, x < lo → resolveTagged rest x = none := fun x hx => lookup_none_of_lt hafter (hx.trans hf)
    simp only
    split_ifs with hfl
    · -- the entry the range starts inside of keeps its head
      have hstop : (f.takeHead (lo - f.offset)).stop = lo := by simp only [stop, takeHead_offset, takeHead_length]; omega
      have hbf : Built f.offset before := by
        refine ⟨hb.toIndexWf, fun s hs => ?_⟩
        have hord := hw.ordered
        rw [← hsplit, hd] at hord
        exact (ordered_append.mp hord).2.2 s hs f List.mem_cons_self
      obtain ⟨hb₁, hr₁⟩ := spliceAppend_spec hbf (m := f.takeHead (lo - f.offset)) le_rfl
        (by simp only [takeHead_length]; omega) (by simp only [takeHead_length, stop] at *; omega)
      rw [hstop] at hb₁
      refine ⟨hb₁, fun x => ?_⟩
      rw [hr₁ x, hold x, hd]
      by_cases hx : x < lo
      · have hin : 0 ≤ x ∧ x < lo := ⟨Nat.zero_le _, hx⟩
        rw [if_pos hin]
        by_cases hc : Covers f x
        · have hn : resolveTagged before x = none := lookup_none_of_ge hbf.before hc.1
          rw [if_pos (by simp only [covers_iff, takeHead_offset, takeHead_length] at *; omega), hn,
            resolveTagged, lookup_cons_of_covers hc]
          rfl
        · have hc' : ¬ Covers (f.takeHead (lo - f.offset)) x := by
            simp only [covers_iff, takeHead_offset, takeHead_length, stop] at *
            omega
          rw [if_neg hc']
          simp only [resolveTagged, lookup_cons_of_not hc]
          have := hrest x hx
          simp only [resolveTagged] at this
          rw [this, Option.or_none]
      · rw [if_neg (fun hc => hx (hstop ▸ hc.2)), if_neg (fun h => hx h.2), hout x hx]
        rfl
    · refine ⟨hb, fun x => ?_⟩
      rw [hold x, hd]
      by_cases hx : x < lo
      · have hn : resolveTagged (f :: rest) x = none := resolveTagged_before hsub (by omega)
        rw [if_pos ⟨Nat.zero_le _, hx⟩, hn, Option.or_none]
      · rw [if_neg (by omega), hout x hx]
        rfl

variable {hi : ℕ}

theorem spliceRest_spec (hw : IndexWf old) (hb : Built hi next) :
    IndexWf (spliceRest old hi next) ∧
      ∀ x, resolveTagged (spliceRest old hi next) x =
        if hi ≤ x then resolveTagged old x else resolveTagged next x := by
  have hold : ∀ x, hi ≤ x →
      resolveTagged (old.dropWhile fun s => decide (s.stop ≤ hi)) x = resolveTagged old x :=
    fun x hx => lookup_dropWhile_of_le hx
  have hnext : ∀ x, hi ≤ x → resolveTagged next x = none := fun x hx => lookup_none_of_ge hb.before hx
  unfold spliceRest
  cases hd : old.dropWhile fun s => decide (s.stop ≤ hi) with
  | nil =>
    refine ⟨hb.toIndexWf, fun x => ?_⟩
    by_cases hx : hi ≤ x
    · rw [if_pos hx, ← hold x hx, hd, hnext x hx]
      rfl
    · rw [if_neg hx]
  | cons t rest =>
    obtain ⟨ht, hsub, hafter⟩ := IndexWf.rest_after hw hd
    have hlen := hsub.short t List.mem_cons_self
    simp only
    split_ifs with hth
    · -- the entry the range ends inside of keeps its tail
      have hstop : (t.dropHead (hi - t.offset)).stop = t.stop := by
        simp only [stop, dropHead_offset, dropHead_length] at *
        omega
      obtain ⟨hb₁, hr₁⟩ := spliceAppend_spec hb (m := t.dropHead (hi - t.offset))
        (by simp only [dropHead_offset]; omega) (by simp only [dropHead_length, stop] at *; omega)
        (by simp only [dropHead_length]; omega)
      obtain ⟨hwf, hr⟩ := spliceTail_spec rest _ t.stop hsub.of_cons hafter (hstop ▸ hb₁)
      refine ⟨hwf, fun x => ?_⟩
      rw [hr x, hr₁ x]
      by_cases hx : hi ≤ x
      · rw [if_pos hx, ← hold x hx, hd]
        by_cases hc : Covers t x
        · have hn : resolveTagged rest x = none := hsub.ordered.lookup_tail hc
          rw [hn, if_pos (by simp only [covers_iff, dropHead_offset, dropHead_length] at *; omega),
            placed_dropHead (by omega)]
          exact (lookup_cons_of_covers hc).symm
        · rw [if_neg (by simp only [covers_iff, dropHead_offset, dropHead_length, stop] at *; omega), hnext x hx,
            Option.or_none]
          exact (lookup_cons_of_not hc).symm
      · have hn : resolveTagged rest x = none := lookup_none_of_lt hafter ((Nat.lt_of_not_le hx).trans ht)
        rw [if_neg hx, hn, if_neg (by simp only [covers_iff, dropHead_offset]; omega)]
        rfl
    · obtain ⟨hwf, hr⟩ := spliceTail_spec (t :: rest) next hi hsub
        (fun u hu => by
          rcases List.mem_cons.mp hu with rfl | hu
          · omega
          · have := hafter u hu
            simp only [stop] at *
            omega) hb
      refine ⟨hwf, fun x => ?_⟩
      rw [hr x]
      by_cases hx : hi ≤ x
      · rw [if_pos hx, ← hold x hx, hd, hnext x hx, Option.or_none]
      · rw [if_neg hx, resolveTagged_before hsub (by omega)]
        rfl

variable {top : List SegmentMapping}

/-- **The splice**: inside the range the top, outside it the old snapshot. -/
theorem spliceIndex_spec (hold : IndexWf old)
    (htop : IndexWf top) (hlh : lo < hi) (h : spliceIndex old top lo hi = some next) :
    IndexWf next ∧ (∀ x, lo ≤ x → x < hi → (resolve top x).isSome = true) ∧
      ∀ x, resolveTagged next x = if lo ≤ x ∧ x < hi then topAnswer top x else resolveTagged old x := by
  rw [spliceIndex, Option.bind_eq_some_iff] at h
  obtain ⟨mid, hmid, hfin⟩ := h
  split_ifs at hfin
  obtain rfl := Option.some.inj hfin
  have hhead := spliceHead_spec hold lo
  obtain ⟨hcopy, hall⟩ := spliceTop_spec lo hi hlh _ lo _ mid (htop.sublist (List.dropWhile_sublist _))
    (fun s hs => htop.ordered.lt_hi_of_mem_dropWhile htop.proper hs) le_rfl hlh.le hhead.1 hmid
  obtain ⟨hwf, hr⟩ := spliceRest_spec hold hcopy.1
  have hsame : ∀ x, lo ≤ x → resolve (top.dropWhile fun s => decide (s.stop ≤ lo)) x = resolve top x :=
    fun x hx => lookup_dropWhile_of_le hx
  refine ⟨hwf, fun x hx hx' => ?_, fun x => ?_⟩
  · rw [← hsame x hx]
    exact hall x hx hx'
  · rw [hr x, hcopy.2 x]
    by_cases hx : hi ≤ x
    · rw [if_pos hx, if_neg (by omega)]
    · rw [if_neg hx]
      by_cases hx' : lo ≤ x ∧ x < hi
      · rw [if_pos hx', if_pos hx']
        exact congrArg _ (hsame x hx'.1)
      · rw [if_neg hx', if_neg hx', hhead.2 x, if_pos (by omega)]

/-! ### Right snapshots -/

variable {T : Type}

/-- A right snapshot of a stack of indexes, topmost first. -/
structure Snapshot (stk : List (List SegmentMapping)) (index : List SegmentMapping) : Prop where
  wf : IndexWf index
  resolves : ∀ x, resolveTagged index x = if x < kMaxOffset then topmost stk 0 x else none

variable {index : List SegmentMapping}

theorem snapshot_mergeIndexes {stk : List (List SegmentMapping)}
    (hw : ∀ l ∈ stk, IndexWf l) (h : mergeIndexes stk = some index) : Snapshot stk index :=
  ⟨mergeIndexes_wellFormed hw h, resolveTagged_mergeIndexes hw h⟩

/-- A stack is asked at a sector only for what its top says there. -/
theorem topmost_congr_top {top' : List SegmentMapping} (lower : List (List SegmentMapping)) {x : ℕ}
    (h : resolve top x = resolve top' x) : topmost (top :: lower) 0 x = topmost (top' :: lower) 0 x := by
  rw [topmost, topmost, h]

theorem topmost_of_top (lower : List (List SegmentMapping)) {x : ℕ}
    (h : (resolve top x).isSome = true) : topmost (top :: lower) 0 x = topAnswer top x := by
  obtain ⟨p, hp⟩ := Option.isSome_iff_exists.mp h
  rw [topmost, topAnswer, hp]
  rfl

/-- A splice of a right snapshot is right, if the top changed only inside the range. -/
theorem Snapshot.splice {top' : List SegmentMapping} {lower : List (List SegmentMapping)} (hs : Snapshot (top :: lower) old) (htop : IndexWf top') (hlh : lo < hi)
    (hhi : hi ≤ kMaxOffset) (hlocal : ∀ x, ¬ (lo ≤ x ∧ x < hi) → resolve top' x = resolve top x)
    (h : spliceIndex old top' lo hi = some next) : Snapshot (top' :: lower) next := by
  obtain ⟨hwf, hall, hr⟩ := spliceIndex_spec hs.wf htop hlh h
  refine ⟨hwf, fun x => ?_⟩
  rw [hr x]
  by_cases hx : lo ≤ x ∧ x < hi
  · rw [if_pos hx, if_pos (by omega), topmost_of_top lower (hall x hx.1 hx.2)]
  · rw [if_neg hx, hs.resolves x, topmost_congr_top lower (hlocal x hx)]

/-- The view's snapshot, if it has one, is right for a top that maps as `segs`. -/
def Current (w : MergedWritable T) (segs : List SegmentMapping) : Prop :=
  ∀ index, w.index = some index → Snapshot (stack w.layers segs) index

variable {w : MergedWritable T}

theorem current_of_none (h : w.index = none) (segs : List SegmentMapping) :
    w.Current segs := by
  intro index hi
  rw [h] at hi
  exact nomatch hi

/-- What a repair leaves: a right snapshot and success, or no snapshot and an error; the rest is kept. -/
structure Repaired (w w' : MergedWritable T) (segs : List SegmentMapping) (r : ℤ) : Prop where
  layers : w'.layers = w.layers
  top : w'.top = w.top
  vsize : w'.vsize = w.vsize
  current : w'.Current segs
  outcome : r = 0 ∧ w'.index.isSome = true ∨ r < 0 ∧ w'.index = none

variable [WritableLayer T]

/-- **A full rebuild** leaves a right snapshot or none. -/
theorem rebuildIndex_spec {segs : List SegmentMapping}
    (hsegs : WritableLayer.segmentsSnapshot w.top = .ok segs) (hw : ∀ l ∈ stack w.layers segs, IndexWf l) :
    Repaired w w.rebuildIndex.2 segs w.rebuildIndex.1 := by
  unfold rebuildIndex
  rw [hsegs]
  simp only
  by_cases ha : w.allocs (w.clock + 1 - 1) = false
  · rw [if_pos ha]
    exact ⟨rfl, rfl, rfl, current_of_none rfl _, .inr ⟨by simp [enomem], rfl⟩⟩
  rw [if_neg ha]
  cases hm : mergeIndexes (stack w.layers segs) with
  | none => exact ⟨rfl, rfl, rfl, current_of_none rfl _, .inr ⟨by simp [einval], rfl⟩⟩
  | some next =>
    refine ⟨rfl, rfl, rfl, fun index hi => ?_, .inl ⟨rfl, rfl⟩⟩
    obtain rfl : next = index := Option.some.inj hi
    exact snapshot_mergeIndexes hw hm

/-- **A range rebuild** does the same, for a top that changed only inside the range. -/
theorem rebuildRange_spec {segs segs' : List SegmentMapping} {off count : ℕ}
    (hsegs : WritableLayer.segmentsSnapshot w.top = .ok segs')
    (hw : ∀ l ∈ stack w.layers segs', IndexWf l) (hcur : w.Current segs) (hc : count % kAlignment = 0)
    (hhi : off / kAlignment + count / kAlignment ≤ kMaxOffset)
    (hlocal : ∀ x, ¬ (off / kAlignment ≤ x ∧ x < off / kAlignment + count / kAlignment) →
      resolve segs' x = resolve segs x) :
    Repaired w (w.rebuildRange off count).2 segs' (w.rebuildRange off count).1 := by
  unfold rebuildRange
  by_cases h1 : WritableLayer.supportsLocalMappingUpdates w.top = false ∨ count = 0
  · rw [if_pos h1]
    exact rebuildIndex_spec hsegs hw
  rw [if_neg h1]
  cases hold : w.index with
  | none => exact rebuildIndex_spec hsegs hw
  | some old =>
    rw [hsegs]
    simp only
    by_cases ha : w.allocs (w.clock + 1 - 1) = false
    · rw [if_pos ha]
      exact ⟨rfl, rfl, rfl, current_of_none rfl _, .inr ⟨by simp [enomem], rfl⟩⟩
    rw [if_neg ha]
    cases hn : spliceIndex old segs' (off / kAlignment) (off / kAlignment + count / kAlignment) with
    | none =>
      obtain ⟨hl, ht, hv, hcu, ho⟩ := rebuildIndex_spec (w := { w with clock := w.clock + 1 }) hsegs hw
      exact ⟨hl, ht, hv, hcu, ho⟩
    | some next =>
      refine ⟨rfl, rfl, rfl, fun index hi => ?_, .inl ⟨rfl, rfl⟩⟩
      obtain rfl : next = index := Option.some.inj hi
      have hpos : 0 < count / kAlignment := by
        simp only [kAlignment] at *
        omega
      exact (hcur old hold).splice (hw segs' List.mem_cons_self) (by omega) hhi hlocal hn

/-! ### Reads from a right snapshot -/

/-- The source answers every request inside its first `size` bytes in full, with `content`. -/
def Backs (src : BlobSource) (content : Buf) (size : ℕ) : Prop :=
  ∀ n count off, off + count ≤ size →
    (src.pread n count off).ret = count ∧ ∀ i < count, (src.pread n count off).bytes i = content (off + i)

/-- Payload that is mapped inside its source is served. -/
theorem serves_of_backs {src : ℕ → BlobSource} {content : ℕ → Buf} (size : ℕ → ℕ) (hw : IndexWf index)
    (hsrc : ∀ x t p, resolveTagged index x = some (t, .data p) →
      (p + 1) * kAlignment ≤ size t ∧ Backs (src t) (content t) (size t))
    {s : SegmentMapping} (hs : s ∈ index) : Serves src content s := by
  intro hz n count off hlo hhi
  have hlen : 0 < s.length := length_pos_of_proper hw.proper hs
  have hr : resolveTagged index (s.offset + (s.length - 1)) =
      some (s.tag, .data (s.moffset + (s.length - 1))) := by
    rw [resolveTagged, hw.ordered.lookup_of_mem hs (by simp only [covers_iff]; omega)]
    simp [placed, place, hz]
  obtain ⟨hle, hback⟩ := hsrc _ _ _ hr
  rw [show s.moffset + (s.length - 1) + 1 = s.moffset + s.length by omega] at hle
  exact hback n count off (hhi.trans hle)

/-- **A read from a right snapshot**: every sector as the topmost layer mapping it has it. -/
theorem pread_spec {stk : List (List SegmentMapping)}
    {content : ℕ → Buf} {size : ℕ → ℕ} (hidx : w.index = some index) (hs : Snapshot stk index)
    (hsrc : ∀ x t p, x < kMaxOffset → topmost stk 0 x = some (t, .data p) →
      (p + 1) * kAlignment ≤ size t ∧ Backs (sourceOf w.layers w.top t) (content t) (size t))
    (hv : w.vsize % kAlignment = 0) {count off : ℕ} (hoff : off % kAlignment = 0)
    (hcount : count % kAlignment = 0) (hend : off + count ≤ kMaxOffset * kAlignment) (out : Buf) :
    (w.pread out count off).ret = ((min count (w.vsize - off) : ℕ) : ℤ) ∧
      ∀ i < min count (w.vsize - off), (w.pread out count off).out i =
        placeByte content (topmost stk 0 ((off + i) / kAlignment)) ((off + i) % kAlignment) := by
  unfold pread
  rw [if_neg (by simp only [hoff, hcount]; omega)]
  by_cases h1 : w.vsize ≤ off
  · rw [if_pos h1, Nat.sub_eq_zero_of_le h1, Nat.min_zero]
    exact ⟨rfl, fun i hi => absurd hi (Nat.not_lt_zero i)⟩
  rw [if_neg h1]
  have hclip : (if w.vsize - off < count then w.vsize - off else count) = min count (w.vsize - off) := by
    split_ifs <;> omega
  simp only [hclip]
  by_cases h2 : min count (w.vsize - off) = 0
  · rw [if_pos h2, h2]
    exact ⟨rfl, fun i hi => absurd hi (Nat.not_lt_zero i)⟩
  rw [if_neg h2, hidx]
  simp only
  set served := min count (w.vsize - off) with hserved
  have hal : served % kAlignment = 0 := by
    rcases min_choice count (w.vsize - off) with h | h
    · rw [hserved, h, hcount]
    · rw [hserved, h]
      simp only [kAlignment] at *
      omega
  have hle : served ≤ count := min_le_left _ _
  have hserve : ∀ s ∈ index.dropWhile (fun s => decide (s.stop ≤ off / kAlignment)),
      Serves (sourceOf w.layers w.top) content s := by
    intro s hm
    refine serves_of_backs size hs.wf (fun x t p hx => ?_) ((List.dropWhile_sublist _).subset hm)
    rw [hs.resolves x] at hx
    by_cases hk : x < kMaxOffset
    · rw [if_pos hk] at hx
      exact hsrc x t p hk hx
    · rw [if_neg hk] at hx
      exact nomatch hx
  have hfin : (off + served) / kAlignment * kAlignment < 2 ^ 64 := by
    simp only [kAlignment, kMaxOffset] at *
    omega
  set rest := index.dropWhile fun s => decide (s.stop ≤ off / kAlignment) with hrest
  obtain ⟨hnone, hfill⟩ := @readLoop_out (sourceOf w.layers w.top) content (off / kAlignment)
    ((off + served) / kAlignment) hfin rest (off / kAlignment) 0 out
    (hs.wf.sublist (List.dropWhile_sublist _))
    (fun s hm => hs.wf.ordered.lt_hi_of_mem_dropWhile hs.wf.proper hm) hserve le_rfl
  refine ⟨by rw [ReadRun.result, hnone]; rfl, fun i hi => ?_⟩
  have hsec : off / kAlignment + i / kAlignment = (off + i) / kAlignment := by
    simp only [kAlignment] at *
    omega
  have hmod : i % kAlignment = (off + i) % kAlignment := by
    simp only [kAlignment] at *
    omega
  have hin' : off / kAlignment ≤ (off + i) / kAlignment ∧
      (off + i) / kAlignment < (off + served) / kAlignment := by
    simp only [kAlignment] at *
    omega
  have hmax : (off + i) / kAlignment < kMaxOffset := by
    simp only [kAlignment, kMaxOffset] at *
    omega
  have hsame : resolveTagged rest ((off + i) / kAlignment) = resolveTagged index ((off + i) / kAlignment) :=
    lookup_dropWhile_of_le hin'.1
  refine (hfill i).trans ?_
  rw [hsec, if_pos hin', hmod, hsame, hs.resolves, if_pos hmax]

end MergedWritable

end OverlayBD
