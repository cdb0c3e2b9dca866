import OverlayBD.Format.MergeAccepted

/-!
# What a merge emits, in the order it emits it

The merged index of lists with empty entries need not be in order, so looking a sector up in it says nothing about a
reader that walks the index from some entry on.  What such a reader can rely on is stated here, for every stack whose
lists are in order, empty entries or not.

## The model

* `Truthful` — an entry says of every sector it covers what the topmost level says.
* `Settled` — every mapped sector before a point has an entry, and no later entry ends before that sector.
* `Emitted` — both, and every entry was appended when everything before it was settled.

## What is proved

* `emitted_pushMerged` — the step: an append keeps `Emitted`.
* `mergeRange_emitted`, `mergeIndexes_emitted` — so does the whole merge.
* `Emitted.unmapped` — from an entry on, nothing is mapped between the end of the entry before it and its start.
-/

namespace OverlayBD

open Intervals SegmentMapping

/-- Every entry says what `ans` says. -/
def Truthful (ans : ℕ → Option (ℕ × Place)) (out : List SegmentMapping) : Prop :=
  ∀ s ∈ out, ∀ x, Covers s x → ans x = some (s.placed x)

/-- Every mapped sector before `p` has an entry, behind which no entry ends before that sector. -/
def Settled (ans : ℕ → Option (ℕ × Place)) (p : ℕ) (out : List SegmentMapping) : Prop :=
  ∀ x < p, ans x ≠ none → ∃ pre s post, out = pre ++ s :: post ∧ Covers s x ∧ ∀ t ∈ post, x < t.stop

/-- **The output of a merge that has come to `p`.** -/
structure Emitted (ans : ℕ → Option (ℕ × Place)) (p : ℕ) (out : List SegmentMapping) : Prop where
  truthful : Truthful ans out
  proper : ∀ s ∈ out, 0 < s.length
  settled : Settled ans p out
  /-- An entry is appended when everything before it is settled. -/
  trail : ∀ pre s post, out = pre ++ s :: post → Settled ans s.offset pre

section Emitted

variable {ans : ℕ → Option (ℕ × Place)} {p : ℕ} {out : List SegmentMapping} {s : SegmentMapping}

theorem emitted_nil : Emitted ans 0 [] where
  truthful := fun _ h => nomatch h
  proper := fun _ h => nomatch h
  settled := fun x hx => absurd hx (Nat.not_lt_zero x)
  trail := fun pre _ _ h => absurd h (by simp)

theorem Settled.mono {p' : ℕ} (h : Settled ans p out) (hle : p' ≤ p) : Settled ans p' out :=
  fun x hx => h x (hx.trans_le hle)

theorem Emitted.mono {p' : ℕ} (h : Emitted ans p out) (hle : p' ≤ p) : Emitted ans p' out :=
  ⟨h.truthful, h.proper, h.settled.mono hle, h.trail⟩

/-- Where nothing is mapped, nothing has to be appended. -/
theorem Emitted.advance {p' : ℕ} (h : Emitted ans p out) (hun : ∀ x, p ≤ x → x < p' → ans x = none) :
    Emitted ans p' out := by
  refine ⟨h.truthful, h.proper, fun x hx hm => ?_, h.trail⟩
  rcases Nat.lt_or_ge x p with hp | hp
  · exact h.settled x hp hm
  · exact absurd (hun x hp hx) hm

/-- An entry of an output with one more appended: the appended one, or one from before. -/
theorem append_singleton_eq {pre post : List SegmentMapping} {t u : SegmentMapping} (h : out ++ [u] = pre ++ t :: post) :
    (pre = out ∧ t = u ∧ post = []) ∨ ∃ post', post = post' ++ [u] ∧ out = pre ++ t :: post' := by
  rcases List.eq_nil_or_concat post with rfl | ⟨post', b, rfl⟩
  · obtain ⟨rfl, hu⟩ := List.append_inj' h rfl
    exact .inl ⟨rfl, (List.cons.inj hu).1.symm, rfl⟩
  · rw [List.concat_eq_append] at h ⊢
    rw [← List.cons_append, ← List.append_assoc] at h
    obtain ⟨hout, hb⟩ := List.append_inj' h rfl
    exact .inr ⟨post', by rw [hb], hout⟩

theorem emitted_append (h : Emitted ans s.offset out) (hpos : 0 < s.length)
    (htruth : ∀ x, Covers s x → ans x = some (s.placed x)) : Emitted ans s.stop (out ++ [s]) where
  truthful := forall_mem_concat.mpr ⟨h.truthful, htruth⟩
  proper := forall_mem_concat.mpr ⟨h.proper, hpos⟩
  settled := by
    intro x hx hm
    rcases Nat.lt_or_ge x s.offset with hlt | hge
    · obtain ⟨pre, t, post, rfl, hc, hlater⟩ := h.settled x hlt hm
      exact ⟨pre, t, post ++ [s], by simp, hc, forall_mem_concat.mpr ⟨hlater, hx⟩⟩
    · exact ⟨out, s, [], rfl, ⟨hge, hx⟩, fun _ hu => nomatch hu⟩
  trail := by
    intro pre t post heq
    rcases append_singleton_eq heq with ⟨rfl, rfl, -⟩ | ⟨post', -, hout⟩
    · exact h.settled
    · exact h.trail pre t post' hout

/-- An entry that continues the last one makes it longer. -/
theorem emitted_extend {init : List SegmentMapping} {previous : SegmentMapping}
    (h : Emitted ans s.offset (init ++ [previous])) (hcont : Continues previous s) (hpos : 0 < s.length)
    (htruth : ∀ x, Covers s x → ans x = some (s.placed x)) :
    Emitted ans s.stop (init ++ [{ previous with length := previous.length + s.length }]) := by
  have hstop : previous.offset + previous.length = s.offset := hcont.1
  set grown : SegmentMapping := { previous with length := previous.length + s.length } with hg
  have hgs : grown.stop = s.stop := by
    simp only [hg, stop]
    omega
  have hgo : grown.offset = previous.offset := rfl
  refine ⟨?_, ?_, ?_, ?_⟩
  · obtain ⟨hinit, hprev⟩ := forall_mem_concat.mp h.truthful
    refine forall_mem_concat.mpr ⟨hinit, fun x hc => ?_⟩
    rcases Nat.lt_or_ge x s.offset with hlt | hge
    · exact hprev x ⟨hc.1, hlt.trans_eq hstop.symm⟩
    · rw [show grown.placed x = s.placed x from hcont.place_eq hge]
      exact htruth x ⟨hge, (show x < grown.stop from hc.2).trans_eq hgs⟩
  · exact forall_mem_concat.mpr ⟨(forall_mem_concat.mp h.proper).1, Nat.add_pos_right _ hpos⟩
  · intro x hx hm
    rcases Nat.lt_or_ge x s.offset with hlt | hge
    · obtain ⟨pre, t, post, heq, hc, hlater⟩ := h.settled x hlt hm
      rcases append_singleton_eq heq with ⟨rfl, rfl, -⟩ | ⟨post', rfl, rfl⟩
      · exact ⟨pre, grown, [], rfl, ⟨hc.1, hx.trans_eq hgs.symm⟩, by rintro _ ⟨⟩⟩
      · exact ⟨pre, t, post' ++ [grown], by simp, hc,
          forall_mem_concat.mpr ⟨(forall_mem_concat.mp hlater).1, hx.trans_eq hgs.symm⟩⟩
    · refine ⟨init, grown, [], rfl, ⟨?_, hx.trans_eq hgs.symm⟩, by rintro _ ⟨⟩⟩
      show grown.offset ≤ x
      omega
  · intro pre t post heq
    rcases append_singleton_eq heq with ⟨rfl, rfl, -⟩ | ⟨post', -, rfl⟩
    · exact h.trail pre previous [] rfl
    · exact h.trail pre t (post' ++ [previous]) (by simp)

/-- **One append** of an entry that tells the truth. -/
theorem emitted_pushMerged (b : ℕ) (h : Emitted ans s.offset out) (hpos : 0 < s.length)
    (htruth : ∀ x, Covers s x → ans x = some (s.placed x)) : Emitted ans s.stop (pushMerged b out s) := by
  unfold pushMerged
  cases hl : out.getLast? with
  | none => exact emitted_append h hpos htruth
  | some previous =>
    by_cases hcont : b < out.length ∧ Continues previous s
    · simp only [if_pos hcont]
      have hout : out = out.dropLast ++ [previous] := (List.dropLast_append_getLast? _ hl).symm
      exact emitted_extend (hout ▸ h) hcont.2 hpos htruth
    · simp only [if_neg hcont]
      exact emitted_append h hpos htruth

/-- Nothing is mapped from the end of an entry to the start of the next. -/
theorem Emitted.unmapped {pre post : List SegmentMapping} (h : Emitted ans p out) (hout : out = pre ++ post) {cur : ℕ}
    (hpre : ∀ l ∈ pre.getLast?, l.stop ≤ cur) {x : ℕ} (hcur : cur ≤ x)
    (hx : ∀ t ∈ post.head?, x < t.offset) (hp : post = [] → x < p) : ans x = none := by
  have hset : Settled ans (x + 1) pre := by
    cases post with
    | nil =>
      rw [List.append_nil] at hout
      exact hout ▸ h.settled.mono (hp rfl)
    | cons t post => exact (h.trail pre t post hout).mono (hx t rfl)
  by_contra hm
  obtain ⟨a, s, c, rfl, hc, hlater⟩ := hset x (Nat.lt_succ_self x) hm
  -- the last entry ends past the sector
  have hend : ∀ l ∈ (a ++ s :: c).getLast?, x < l.stop := by
    intro l hl
    rcases List.eq_nil_or_concat c with rfl | ⟨c', u, rfl⟩
    · rw [List.getLast?_append] at hl
      obtain rfl : s = l := by simpa using hl
      exact hc.2
    · rw [List.concat_eq_append, ← List.cons_append, ← List.append_assoc, List.getLast?_concat] at hl
      obtain rfl := Option.some.inj hl
      exact hlater u (by simp)
  cases hl : (a ++ s :: c).getLast? with
  | none => simp at hl
  | some l =>
    have h1 := hend l hl
    have h2 := hpre l hl
    omega

end Emitted

variable {out : List SegmentMapping} {layers : List (List SegmentMapping)}

/-- The step lemma over one level is the invariant rule of the loop; over the stack, by induction. -/
theorem mergeRange_emitted (b : ℕ) {ans : ℕ → Option (ℕ × Place)} {level lo hi : ℕ} (hord : ∀ l ∈ layers, Ordered l)
    (hans : ∀ x, lo ≤ x → x < hi → ans x = topmost layers level x) (h : Emitted ans lo out) :
    Emitted ans hi (mergeRange layers level lo hi out b) := by
  induction layers generalizing level lo hi out with
  | nil => exact h.advance hans
  | cons segs lower ih =>
    have hsegs := hord segs List.mem_cons_self
    rw [mergeRange]
    by_cases hlt : hi ≤ lo
    · rw [if_pos hlt]
      exact h.mono hlt
    rw [if_neg hlt]
    refine mergeScan_invariant (I := Emitted ans) (fun _ p p' o hle ho => ho.mono hle) (fun a c o ha _ hc hun ho => ?_)
      (fun s hs a o ha hah hl hh hpos ho => ?_) (hsegs.sublist (List.dropWhile_sublist _)) (ahead_dropWhile hsegs lo)
      (by omega) h
    · -- a gap of this level
      refine ih (fun l hl => hord l (List.mem_cons_of_mem _ hl)) (fun x hx hx' => ?_) ho
      have hnone : resolve segs x = none := by
        rw [← show resolve (segs.dropWhile fun s => decide (s.stop ≤ lo)) x = resolve segs x from
          lookup_dropWhile_of_le (ha.trans hx), resolve_eq_none]
        exact hun x hx hx'
      rw [hans x (by omega) (by omega), topmost, hnone]
      rfl
    · -- an entry of this level
      refine emitted_pushMerged (s := { clip s a hi with tag := level % 256 }) b ho hpos fun x hx => ?_
      have hoff : (clip s a hi).offset = max s.offset a := clip_offset
      have hstop := clip_stop hh hl hah
      have hcov : max s.offset a ≤ x ∧ x < min s.stop hi := ⟨hoff ▸ hx.1, hstop ▸ hx.2⟩
      have hres : resolve segs x = some (s.place x) := by
        refine hsegs.lookup_of_mem ((List.dropWhile_sublist _).subset hs) ?_
        simp only [covers_iff, stop] at hcov ⊢
        omega
      have hplace : (clip s a hi).place x = s.place x := clip_place (by omega)
      rw [hans x (by omega) (by omega), topmost, hres, Option.map_some, Option.some_or, placed, ← hplace]
      rfl

/-- What a merged index answers: nothing from the largest offset on. -/
def mergedAnswer (layers : List (List SegmentMapping)) (x : ℕ) : Option (ℕ × Place) :=
  if x < kMaxOffset then topmost layers 0 x else none

/-- **The merged index** of a stack of lists in order. -/
theorem mergeIndexes_emitted (hord : ∀ l ∈ layers, Ordered l) (h : mergeIndexes layers = some out) :
    Emitted (mergedAnswer layers) kMaxOffset out := by
  obtain ⟨rfl, -⟩ := mergeIndexes_eq_some h
  exact mergeRange_emitted 0 hord (fun x _ hx => if_pos hx) emitted_nil

end OverlayBD
