import OverlayBD.Format.LsmtLayer

/-!
# Stacks of opened layers

What `merge_indexes` makes of a stack whose lists `LsmtLayer::open` has accepted.

* `topLevel` — what a stack means: the first list that maps a sector, by its position, and what it says.
* `mergeIndexes_openable_iff` — the merged index of such a stack is in order and resolves as `topLevel` if and only if
  the empty entries of the stack are harmless.
-/

namespace OverlayBD

open Intervals SegmentMapping Bytes

/-- **What a stack means**: the position of the first list that maps the sector, and what the list says. -/
def topLevel : List (List SegmentMapping) → ℕ → ℕ → Option (ℕ × Place)
  | [], _, _ => none
  | segs :: lower, level, x => ((resolve segs x).map (Prod.mk level)).or (topLevel lower (level + 1) x)

/-- Up to 256 levels a tag is the position. -/
theorem topmost_eq_topLevel {layers : List (List SegmentMapping)} {level : ℕ} (h : level + layers.length ≤ 256) (x : ℕ) :
    topmost layers level x = topLevel layers level x := by
  induction layers generalizing level with
  | nil => rfl
  | cons segs lower ih =>
    rw [List.length_cons] at h
    rw [topmost, topLevel, Nat.mod_eq_of_lt (by omega), ih (by omega)]

/-- Some file opens with this index. -/
def Openable (l : List SegmentMapping) : Prop := ∃ src target tht, LsmtLayer.openImpl src target = some (l, tht)

theorem Openable.accepted {l : List SegmentMapping} (h : Openable l) : AcceptedIndex l := by
  obtain ⟨src, target, tht, hopen⟩ := h
  exact LsmtLayer.accepted_of_open hopen

/-- **The merged index of an accepted stack** is in order, with lengths of the encoding, and resolves every sector as
the topmost list that maps it, if and only if no empty entry stands behind a gap in which a lower list maps something. -/
theorem mergeIndexes_openable_iff {layers : List (List SegmentMapping)} (hopen : ∀ l ∈ layers, Openable l)
    (hlen : layers.length ≤ 255) {out : List SegmentMapping} (h : mergeIndexes layers = some out) :
    (Ordered out ∧ (∀ s ∈ out, 1 ≤ s.length ∧ s.length ≤ kMaxLength) ∧
        ∀ x < kMaxOffset, resolveTagged out x = topLevel layers 0 x) ↔ Harmless layers := by
  have hsame : ∀ x, topmost layers 0 x = topLevel layers 0 x := topmost_eq_topLevel (by omega)
  rw [← goodIndex_iff (fun l hl => (hopen l hl).accepted) h]
  constructor
  · rintro ⟨hord, hlens, hres⟩
    exact ⟨hord, hlens, fun x hx => (hres x hx).trans (hsame x).symm⟩
  · rintro ⟨hord, hlens, hres⟩
    exact ⟨hord, hlens, fun x hx => (hres x hx).trans (hsame x)⟩

/-- An index with an empty ZERO entry at sector 2. -/
def emptyEntry : List SegmentMapping := [⟨2, 0, 8, true, 0⟩]

/-- An index with four DATA sectors. -/
def fourSectors : List SegmentMapping := [⟨0, 4, 8, false, 0⟩]

/-- An index of one record that fits eight sectors of payload opens. -/
theorem openable_singleton {m : SegmentMapping} (hfit : m.Fits) (hoff : m.offset ≠ kInvalidOffset) (htag : m.tag = 0)
    (hin : LsmtLayer.checkMapped { indexOffset := 2 * kSpace } false m = some m) : Openable [m] := by
  have hvalid : ∀ m' ∈ [m], m'.Fits ∧ m'.offset ≠ kInvalidOffset ∧ m'.tag = 0 := by
    intro m' hm'
    rw [List.mem_singleton.mp hm']
    exact ⟨hfit, hoff, htag⟩
  have hmapped : ∀ m' ∈ [m], LsmtLayer.checkMapped { indexOffset := 2 * kSpace } false m' = some m' := by
    intro m' hm'
    rw [List.mem_singleton.mp hm']
    exact hin
  have hcount : [m].length ≤ kMaxRoIndexSize := Nat.le_of_ble_eq_true rfl
  obtain ⟨src, tht, hopen, -⟩ := LsmtLayer.exists_opened (show 4096 < 2 ^ 64 by decide) hcount hvalid rfl hmapped
  exact ⟨src, none, tht, hopen⟩

theorem openable_emptyEntry : Openable emptyEntry :=
  openable_singleton ⟨by decide, by decide, by decide, by decide⟩ (by decide) rfl (by decide)

theorem openable_fourSectors : Openable fourSectors :=
  openable_singleton ⟨by decide, by decide, by decide, by decide⟩ (by decide) rfl (by decide)

/-- **An empty entry doubles what lies under it**: two accepted lists whose merged index maps sectors 0 and 1 twice. -/
theorem mergeIndexes_doubled : Openable emptyEntry ∧ Openable fourSectors ∧
    mergeIndexes [emptyEntry, fourSectors] = some [⟨0, 2, 8, false, 1⟩, ⟨0, 4, 8, false, 1⟩] ∧
    ¬ Ordered [(⟨0, 2, 8, false, 1⟩ : SegmentMapping), ⟨0, 4, 8, false, 1⟩] := by
  refine ⟨openable_emptyEntry, openable_fourSectors, by decide, fun h => ?_⟩
  have : (2 : ℕ) ≤ 0 := (ordered_cons.mp h).1 _ (List.mem_singleton_self _)
  omega

/-- The same lists the other way round merge well: nothing is under the gap. -/
theorem mergeIndexes_undoubled : (∀ l ∈ [fourSectors, emptyEntry], Openable l) ∧
    mergeIndexes [fourSectors, emptyEntry] = some [⟨0, 4, 8, false, 0⟩] ∧
    (Ordered [(⟨0, 4, 8, false, 0⟩ : SegmentMapping)] ∧
        (∀ s ∈ [(⟨0, 4, 8, false, 0⟩ : SegmentMapping)], 1 ≤ s.length ∧ s.length ≤ kMaxLength) ∧
        ∀ x < kMaxOffset, resolveTagged [⟨0, 4, 8, false, 0⟩] x = topLevel [fourSectors, emptyEntry] 0 x) := by
  have hopen : ∀ l ∈ [fourSectors, emptyEntry], Openable l := by
    intro l hl
    rcases List.mem_cons.mp hl with rfl | hl
    · exact openable_fourSectors
    · rw [List.mem_singleton.mp hl]
      exact openable_emptyEntry
  refine ⟨hopen, by decide, (mergeIndexes_openable_iff hopen (by decide) (by decide)).mpr ?_⟩
  intro above l below hsplit e he hz _ x _ _ hlow
  -- the only empty entry is in the last list
  cases above with
  | nil =>
    obtain ⟨rfl, -⟩ := List.cons.inj hsplit
    rw [List.mem_singleton.mp he] at hz
    exact nomatch hz
  | cons a above =>
    obtain ⟨-, hsplit⟩ := List.cons.inj hsplit
    cases above with
    | nil =>
      obtain ⟨-, rfl⟩ := List.cons.inj hsplit
      obtain ⟨m, hm, -⟩ := hlow
      exact nomatch hm
    | cons b above => exact absurd hsplit (by simp)

end OverlayBD
