import OverlayBD.Format.Device
import OverlayBD.Format.LsmtPairOpen
import OverlayBD.Format.LsmtRwContent

/-!
# The block-device law of an LSMT writable stack

A merged view over read-only layers with an `LsmtRw` on top is a block device: a byte holds what the last operation
that covered it put there.

## The model

* `Inv` — the invariant of a run: the top is well formed, the snapshot right, and the device holds what is expected.

## What is proved

* `Inv.step`, `Inv.run` — every operation keeps the invariant, whether it succeeds or fails.
* `lsmt_device_law` — so every aligned read returns what is expected, in full; only after a failed operation it may
  report an error instead.
* `lsmt_device_law_past_maxOffset` — the range matters: the merge leaves out sectors from `kMaxOffset` on, which a
  lower layer may still map.
-/

namespace OverlayBD

open Intervals SegmentMapping Bytes Errno Effect MergedWritable

namespace LsmtRw

/-! ### The device and its frame -/

/-- The byte the stack holds at position `j` of sector `x`. -/
def deviceAt (lowers : List Lower) (s : LsmtRw) (x j : ℕ) : UInt8 := deviceByte lowers s.segments s.data.byte x j

variable {s : LsmtRw}

theorem Frame.deviceAt_eq {lo hi : ℕ} {s' : LsmtRw} (h : Frame lo hi s s') (lowers : List Lower) {x j : ℕ}
    (hx : ¬ (lo ≤ x ∧ x < hi)) (hj : j < kAlignment) : deviceAt lowers s' x j = deviceAt lowers s x j := by
  unfold deviceAt deviceByte
  rw [h.maps x hx]
  cases hr : resolve s.segments x with
  | none => rfl
  | some p =>
    cases p with
    | zero => rfl
    | data p => exact h.bytes x p hx hr j hj

/-- A revision that stayed the same proves the same mappings. -/
theorem Frame.segments_eq {lo hi : ℕ} {s' : LsmtRw} (h : Frame lo hi s s')
    (hrev : (WritableLayer.segmentsRevision s).isSome = true)
    (heq : WritableLayer.segmentsRevision s = WritableLayer.segmentsRevision s') : s'.segments = s.segments := by
  change (if s.revision = kUnknownRevision then none else some s.revision).isSome = true at hrev
  change (if s.revision = kUnknownRevision then none else some s.revision) =
    if s'.revision = kUnknownRevision then none else some s'.revision at heq
  have h1 : s.revision ≠ kUnknownRevision := fun h1 => by
    rw [if_pos h1] at hrev
    exact nomatch hrev
  rw [if_neg h1] at heq
  by_cases h2 : s'.revision = kUnknownRevision
  · rw [if_pos h2] at heq
    exact nomatch heq
  · rw [if_neg h2] at heq
    exact h.same (Option.some.inj heq).symm h1

/-- The view of the data file serves the mapped payload. -/
theorem backs_dataSource (s : LsmtRw) : Backs s.dataSource s.data.byte (min s.dataBytes s.data.size) := by
  intro n count off h
  have hret : min (min count (s.dataBytes - off)) (s.data.size - off) = count := by omega
  refine ⟨?_, fun _ _ => rfl⟩
  change ((min (min count (s.dataBytes - off)) (s.data.size - off) : ℕ) : ℤ) = count
  rw [hret]

/-! ### The invariant of a run -/

/-- The run is where it should be. -/
structure Inv (lowers : List Lower) (t : Trace LsmtRw) : Prop where
  layers : t.view.layers = lowers.map Lower.layer
  aligned : t.view.vsize % kAlignment = 0
  wf : t.view.top.Wf
  current : t.view.Current t.view.top.segments
  /-- Without a failure there is a snapshot. -/
  indexed : t.clean = true → t.view.index.isSome = true
  agrees : ∀ i v, t.expected i = some v → deviceAt lowers t.view.top (i / kAlignment) (i % kAlignment) = v

theorem stack_indexWf (lowers : List Lower) {segs : List SegmentMapping} (h : IndexWf segs) :
    ∀ l ∈ stack (lowers.map Lower.layer) segs, IndexWf l := by
  intro l hl
  rcases List.mem_cons.mp hl with rfl | hl
  · exact h
  · obtain ⟨k, hk, rfl⟩ := List.mem_map.mp hl
    obtain ⟨lower, -, rfl⟩ := List.mem_map.mp hk
    exact lower.index

variable {off count : ℕ}

/-- A byte of an aligned range lies in a sector of the range. -/
theorem sector_of_touched {i : ℕ} (hoff : off % kAlignment = 0) (hcount : count % kAlignment = 0) :
    (off ≤ i ∧ i < off + count) ↔
      off / kAlignment ≤ i / kAlignment ∧ i / kAlignment < off / kAlignment + count / kAlignment := by
  simp only [kAlignment] at *
  omega

variable {t : Trace LsmtRw} {lowers : List Lower}

/-- An operation that moved only the sectors it may, and left the right values if it succeeded, keeps the
invariant. -/
theorem Inv.step_of (h : Inv lowers t) (op : DevOp) (hlayers : (op.apply t.view).2.layers = t.view.layers)
    (haligned : (op.apply t.view).2.vsize % kAlignment = 0) (hwf : (op.apply t.view).2.top.Wf)
    (hcurrent : (op.apply t.view).2.Current (op.apply t.view).2.top.segments)
    (hindexed : 0 ≤ (op.apply t.view).1 → t.view.index.isSome = true → (op.apply t.view).2.index.isSome = true)
    (hout : ∀ i, ¬ op.Touches i →
      deviceAt lowers (op.apply t.view).2.top (i / kAlignment) (i % kAlignment) =
        deviceAt lowers t.view.top (i / kAlignment) (i % kAlignment))
    (hin : 0 ≤ (op.apply t.view).1 → ∀ i, op.Touches i →
      deviceAt lowers (op.apply t.view).2.top (i / kAlignment) (i % kAlignment) = op.value i) :
    Inv lowers (t.step op) := by
  refine ⟨hlayers.trans h.layers, haligned, hwf, hcurrent, fun hc => ?_, fun i v hv => ?_⟩
  · obtain ⟨h1, h2⟩ := Bool.and_eq_true_iff.mp hc
    exact hindexed (by simpa using h2) (h.indexed h1)
  · change (if op.Touches i then (if 0 ≤ (op.apply t.view).1 then some (op.value i) else none) else t.expected i) =
      some v at hv
    change deviceAt lowers (op.apply t.view).2.top (i / kAlignment) (i % kAlignment) = v
    by_cases ht : op.Touches i
    · rw [if_pos ht] at hv
      by_cases hr : 0 ≤ (op.apply t.view).1
      · rw [if_pos hr] at hv
        rw [hin hr i ht]
        exact Option.some.inj hv
      · rw [if_neg hr] at hv
        exact nomatch hv
    · rw [if_neg ht] at hv
      rw [hout i ht]
      exact h.agrees i v hv

variable {op : DevOp}

/-- An operation that was refused and changed nothing. -/
theorem Inv.step_refused (h : Inv lowers t) {r : ℤ}
    (hop : op.apply t.view = (r, t.view)) (hr : r < 0) : Inv lowers (t.step op) := by
  refine h.step_of op (by rw [hop]) (by rw [hop]; exact h.aligned) (by rw [hop]; exact h.wf)
    (by rw [hop]; exact h.current) (fun _ hi => by rw [hop]; exact hi) (fun i _ => by rw [hop]) fun h0 => ?_
  rw [hop] at h0
  exact absurd h0 (by simpa using hr)

/-- A mutation of an aligned range: the top moved inside it, then the snapshot was repaired. -/
theorem Inv.step_mutation (h : Inv lowers t)
    {top' : LsmtRw} {rebuilt : ℤ × MergedWritable LsmtRw} (htouch : ∀ i, op.Touches i ↔ off ≤ i ∧ i < off + count)
    (hoff : off % kAlignment = 0) (hcount : count % kAlignment = 0) (hwf : top'.Wf)
    (hframe : Frame (off / kAlignment) (off / kAlignment + count / kAlignment) t.view.top top')
    (hrep : Repaired { t.view with top := top' } rebuilt.2 top'.segments rebuilt.1)
    (hop : (op.apply t.view).2 = rebuilt.2) (hok : 0 ≤ (op.apply t.view).1 → rebuilt.1 = 0)
    (hin : 0 ≤ (op.apply t.view).1 → ∀ x, off / kAlignment ≤ x → x < off / kAlignment + count / kAlignment →
      ∀ j < kAlignment, deviceAt lowers top' x j = op.value (x * kAlignment + j)) :
    Inv lowers (t.step op) := by
  have htop : (op.apply t.view).2.top = top' := by rw [hop, hrep.top]
  have hmod : ∀ i, i % kAlignment < kAlignment := fun i => Nat.mod_lt _ (by decide)
  refine h.step_of op (by rw [hop, hrep.layers]) (by rw [hop, hrep.vsize]; exact h.aligned) (htop ▸ hwf)
    (by rw [htop, hop]; exact hrep.current) (fun h0 _ => ?_) (fun i hi => ?_) fun h0 i hi => ?_
  · rw [hop]
    rcases hrep.outcome with ⟨-, hs⟩ | ⟨hneg, -⟩
    · exact hs
    · rw [hok h0] at hneg
      omega
  · rw [htop]
    exact hframe.deviceAt_eq lowers (fun hx => hi ((htouch i).mpr ((sector_of_touched hoff hcount).mpr hx))) (hmod i)
  · obtain ⟨h1, h2⟩ := (sector_of_touched hoff hcount).mp ((htouch i).mp hi)
    rw [htop, hin h0 _ h1 h2 _ (hmod i), Nat.div_add_mod']

/-! ### The operations -/

/-- What the caller of the layer's `pwrite` learns. -/
theorem run_pwrite (hw : Wf s) (buf : Buf) (count off : ℕ) : (Wf (run (pwrite buf count off) s).2 ∧
      Frame (off / kAlignment) (off / kAlignment + count / kAlignment) s (run (pwrite buf count off) s).2) ∧
    (0 ≤ (run (pwrite buf count off) s).1 → (run (pwrite buf count off) s).1 = count ∧
      off / kAlignment + count / kAlignment ≤ kMaxOffset ∧
      ∀ x, off / kAlignment ≤ x → x < off / kAlignment + count / kAlignment →
        ∃ p, resolve (run (pwrite buf count off) s).2.segments x = some (.data p) ∧
          Holds (run (pwrite buf count off) s).2 buf off x p) :=
  run_of_wp (R := fun r s' =>
    (Wf s' ∧ Frame (off / kAlignment) (off / kAlignment + count / kAlignment) s s') ∧
      (0 ≤ r → r = count ∧ off / kAlignment + count / kAlignment ≤ kMaxOffset ∧
        ∀ x, off / kAlignment ≤ x → x < off / kAlignment + count / kAlignment →
          ∃ p, resolve s'.segments x = some (.data p) ∧ Holds s' buf off x p))
    (wp_mono (pwrite_spec hw) (fun _ _ h => ⟨h.2.2.1, fun _ => ⟨h.1, h.2.1, h.2.2.2⟩⟩)
      fun e _ h => ⟨h.2, fun h0 => absurd h0 (by have := h.1; omega)⟩)

/-- What the caller of the layer's `discard` learns. -/
theorem run_discard (hw : Wf s) (off len : ℕ) : (Wf (run (discard off len) s).2 ∧
      Frame (off / kAlignment) (off / kAlignment + len / kAlignment) s (run (discard off len) s).2) ∧
    (0 ≤ (run (discard off len) s).1 → (run (discard off len) s).1 = 0 ∧
      off / kAlignment + len / kAlignment ≤ kMaxOffset ∧
      ∀ x, off / kAlignment ≤ x → x < off / kAlignment + len / kAlignment →
        resolve (run (discard off len) s).2.segments x = some .zero) :=
  run_of_wp (R := fun r s' =>
    (Wf s' ∧ Frame (off / kAlignment) (off / kAlignment + len / kAlignment) s s') ∧
      (0 ≤ r → r = 0 ∧ off / kAlignment + len / kAlignment ≤ kMaxOffset ∧
        ∀ x, off / kAlignment ≤ x → x < off / kAlignment + len / kAlignment → resolve s'.segments x = some .zero))
    (wp_mono (discard_spec hw) (fun _ _ h => ⟨h.2.2.1, fun _ => ⟨h.1, h.2.1, h.2.2.2⟩⟩)
      fun e _ h => ⟨h.2, fun h0 => absurd h0 (by have := h.1; omega)⟩)

theorem Inv.step_pwrite (h : Inv lowers t) (buf : Buf) (count off : ℕ) :
    Inv lowers (t.step (.pwrite buf count off)) := by
  by_cases h1 : t.view.vsize < off ∨ t.view.vsize - off < count
  · exact h.step_refused (r := -einval) (if_pos h1) (by simp [einval])
  by_cases h2 : off % kAlignment ≠ 0 ∨ count % kAlignment ≠ 0
  · refine h.step_refused (r := -einval) ?_ (by simp [einval])
    change t.view.pwrite buf count off = _
    unfold MergedWritable.pwrite
    rw [if_neg h1, if_pos h2]
  obtain ⟨⟨hwf, hframe⟩, hsucc⟩ := run_pwrite h.wf buf count off
  set q := run (pwrite buf count off) t.view.top with hq
  obtain ⟨hoff, hcount⟩ : off % kAlignment = 0 ∧ count % kAlignment = 0 := by omega
  have hlayers := h.layers
  -- the three ways the view goes on after the layer has answered
  set w' : MergedWritable LsmtRw := { t.view with top := q.2 } with hw'
  set same : Bool := decide (0 ≤ q.1) && t.view.index.isSome &&
    (WritableLayer.segmentsRevision t.view.top).isSome &&
    decide (WritableLayer.segmentsRevision t.view.top = WritableLayer.segmentsRevision q.2) with hsame
  set rebuilt := if same = true then (0, w') else
    if q.1 = count then w'.rebuildRange off count else w'.rebuildIndex with hrebuilt
  have happly : DevOp.apply t.view (.pwrite buf count off) =
      if q.1 < 0 then (q.1, rebuilt.2) else if rebuilt.1 ≠ 0 then rebuilt else (q.1, rebuilt.2) := by
    change t.view.pwrite buf count off = _
    unfold MergedWritable.pwrite
    rw [if_neg h1, if_neg h2]
    rfl
  have hstack : ∀ l ∈ stack w'.layers q.2.segments, IndexWf l := by
    rw [show w'.layers = lowers.map Lower.layer from h.layers]
    exact stack_indexWf lowers hwf.index
  have hrep : Repaired w' rebuilt.2 q.2.segments rebuilt.1 := by
    by_cases hs : same = true
    · rw [hrebuilt, if_pos hs]
      obtain ⟨⟨⟨-, hidx⟩, hrev⟩, heq⟩ : ((0 ≤ q.1 ∧ t.view.index.isSome = true) ∧
          (WritableLayer.segmentsRevision t.view.top).isSome = true) ∧
          WritableLayer.segmentsRevision t.view.top = WritableLayer.segmentsRevision q.2 := by
        simpa [hsame, Bool.and_eq_true] using hs
      have hsegs := hframe.segments_eq hrev heq
      refine ⟨rfl, rfl, rfl, ?_, .inl ⟨rfl, hidx⟩⟩
      rw [hsegs]
      exact h.current
    · rw [hrebuilt, if_neg hs]
      by_cases hc : q.1 = count
      · rw [if_pos hc]
        have hcur : w'.Current t.view.top.segments := h.current
        exact rebuildRange_spec rfl hstack hcur hcount
          (hsucc (by rw [hc]; exact Int.natCast_nonneg count)).2.1 hframe.maps
      · rw [if_neg hc]
        exact rebuildIndex_spec rfl hstack
  have hnonneg : 0 ≤ (DevOp.apply t.view (.pwrite buf count off)).1 → 0 ≤ q.1 ∧ rebuilt.1 = 0 := by
    rw [happly]
    by_cases hneg : q.1 < 0
    · rw [if_pos hneg]
      exact fun h0 => absurd h0 (by simpa using hneg)
    · rw [if_neg hneg]
      by_cases hne : rebuilt.1 ≠ 0
      · rw [if_pos hne]
        intro h0
        rcases hrep.outcome with ⟨h3, -⟩ | ⟨h3, -⟩
        · exact absurd h3 hne
        · omega
      · exact fun _ => ⟨by omega, not_not.mp hne⟩
  refine h.step_mutation (fun i => Iff.rfl) hoff hcount hwf hframe hrep ?_ (fun h0 => (hnonneg h0).2)
    fun h0 x hx hx' j hj => ?_
  · rw [happly]
    split_ifs <;> rfl
  · obtain ⟨-, -, hheld⟩ := hsucc (hnonneg h0).1
    obtain ⟨p, hp, hb⟩ := hheld x hx hx'
    have hle : off ≤ x * kAlignment := by
      simp only [kAlignment] at *
      omega
    unfold deviceAt deviceByte
    rw [hp]
    exact (hb j hj).trans (congrArg buf (Nat.sub_add_comm hle).symm)

theorem Inv.step_discard (h : Inv lowers t) (off len : ℕ) :
    Inv lowers (t.step (.discard off len)) := by
  by_cases h1 : t.view.vsize < off ∨ t.view.vsize - off < len
  · exact h.step_refused (r := -einval) (if_pos h1) (by simp [einval])
  by_cases h2 : off % kAlignment ≠ 0 ∨ len % kAlignment ≠ 0
  · refine h.step_refused (r := -einval) ?_ (by simp [einval])
    change t.view.discard off len = _
    unfold MergedWritable.discard
    rw [if_neg h1, if_pos h2]
  obtain ⟨⟨hwf, hframe⟩, hsucc⟩ := run_discard h.wf off len
  set q := run (discard off len) t.view.top with hq
  obtain ⟨hoff, hlen⟩ : off % kAlignment = 0 ∧ len % kAlignment = 0 := by omega
  set w' : MergedWritable LsmtRw := { t.view with top := q.2 } with hw'
  set rebuilt := if q.1 = 0 then w'.rebuildRange off len else w'.rebuildIndex with hrebuilt
  have happly : DevOp.apply t.view (.discard off len) = if q.1 ≠ 0 then (q.1, rebuilt.2) else rebuilt := by
    change t.view.discard off len = _
    unfold MergedWritable.discard
    rw [if_neg h1, if_neg h2]
    rfl
  have hstack : ∀ l ∈ stack w'.layers q.2.segments, IndexWf l := by
    rw [show w'.layers = lowers.map Lower.layer from h.layers]
    exact stack_indexWf lowers hwf.index
  have hrep : Repaired w' rebuilt.2 q.2.segments rebuilt.1 := by
    by_cases hc : q.1 = 0
    · rw [hrebuilt, if_pos hc]
      have hcur : w'.Current t.view.top.segments := h.current
      exact rebuildRange_spec rfl hstack hcur hlen (hsucc hc.ge).2.1 hframe.maps
    · rw [hrebuilt, if_neg hc]
      exact rebuildIndex_spec rfl hstack
  have hnonneg : 0 ≤ (DevOp.apply t.view (.discard off len)).1 → 0 ≤ q.1 ∧ rebuilt.1 = 0 := by
    rw [happly]
    by_cases hne : q.1 ≠ 0
    · rw [if_pos hne]
      exact fun h0 => absurd (hsucc h0).1 hne
    · rw [if_neg hne]
      intro h0
      rcases hrep.outcome with ⟨h3, -⟩ | ⟨h3, -⟩
      · exact ⟨(not_not.mp hne).ge, h3⟩
      · omega
  refine h.step_mutation (fun i => Iff.rfl) hoff hlen hwf hframe hrep ?_ (fun h0 => (hnonneg h0).2)
    fun h0 x hx hx' j hj => ?_
  · rw [happly]
    split_ifs <;> rfl
  · unfold deviceAt deviceByte
    rw [(hsucc (hnonneg h0).1).2.2 x hx hx']
    rfl

/-- An operation after which the top maps and holds the same. -/
theorem Inv.step_still (h : Inv lowers t)
    (htouch : ∀ i, ¬ op.Touches i) (hlayers : (op.apply t.view).2.layers = t.view.layers)
    (hindex : (op.apply t.view).2.index = t.view.index) (haligned : (op.apply t.view).2.vsize % kAlignment = 0)
    (hwf : (op.apply t.view).2.top.Wf) (hframe : Frame 0 0 t.view.top (op.apply t.view).2.top)
    (hsegs : (op.apply t.view).2.top.segments = t.view.top.segments) : Inv lowers (t.step op) := by
  refine h.step_of op hlayers haligned hwf ?_ (fun _ hi => by rw [hindex]; exact hi) (fun i _ => ?_)
    fun _ i hi => absurd hi (htouch i)
  · intro index hi
    rw [hsegs, hlayers]
    exact h.current index (hindex ▸ hi)
  · exact hframe.deviceAt_eq lowers (by omega) (Nat.mod_lt _ (by decide))

theorem Inv.step_flush (h : Inv lowers t) : Inv lowers (t.step .flush) := by
  have hspec : Wf (run flush t.view.top).2 ∧ Frame 0 0 t.view.top (run flush t.view.top).2 ∧
      (run flush t.view.top).2.segments = t.view.top.segments :=
    run_of_wp (R := fun _ s' => Wf s' ∧ Frame 0 0 t.view.top s' ∧ s'.segments = t.view.top.segments)
      (wp_mono (flush_spec h.wf) (fun _ _ hs => hs.2) fun _ _ hs => hs.2)
  have happly : (DevOp.apply t.view .flush).2 = { t.view with top := (run flush t.view.top).2 } := by
    change (if (run flush t.view.top).1 ≠ 0 then _ else _ : ℤ × MergedWritable LsmtRw).2 = _
    by_cases h1 : (run flush t.view.top).1 ≠ 0
    · rw [if_pos h1]
      rfl
    · rw [if_neg h1]
      rfl
  refine h.step_still (fun _ => id) (by rw [happly]) (by rw [happly]) (by rw [happly]; exact h.aligned) ?_ ?_ ?_
  · rw [happly]
    exact hspec.1
  · rw [happly]
    exact hspec.2.1
  · rw [happly]
    exact hspec.2.2

theorem Inv.step_grow (h : Inv lowers t) (vsize : ℕ) :
    Inv lowers (t.step (.grow vsize)) := by
  have hspec : Wf (run (grow vsize) t.view.top).2 ∧ Frame 0 0 t.view.top (run (grow vsize) t.view.top).2 ∧
      (run (grow vsize) t.view.top).2.segments = t.view.top.segments :=
    run_of_wp (R := fun _ s' => Wf s' ∧ Frame 0 0 t.view.top s' ∧ s'.segments = t.view.top.segments)
      (wp_mono (grow_spec h.wf) (fun _ _ hs => hs.2) fun _ _ hs => hs.2)
  have hrefl := Frame.refl 0 0 t.view.top
  -- the view grows alone, through its top, or not at all
  have happly : ∃ v top', (DevOp.apply t.view (.grow vsize)).2 = { t.view with top := top', vsize := v } ∧
      v % kAlignment = 0 ∧ Wf top' ∧ Frame 0 0 t.view.top top' ∧ top'.segments = t.view.top.segments := by
    change ∃ v top', (t.view.grow vsize).2 = _ ∧ _
    unfold MergedWritable.grow
    by_cases h1 : vsize = 0 ∨ vsize % kAlignment ≠ 0
    · rw [if_pos h1]
      exact ⟨_, _, rfl, h.aligned, h.wf, hrefl, rfl⟩
    rw [if_neg h1]
    by_cases h2 : vsize < t.view.vsize
    · rw [if_pos h2]
      exact ⟨_, _, rfl, h.aligned, h.wf, hrefl, rfl⟩
    rw [if_neg h2]
    by_cases h3 : vsize = t.view.vsize
    · rw [if_pos h3]
      exact ⟨_, _, rfl, h.aligned, h.wf, hrefl, rfl⟩
    rw [if_neg h3]
    by_cases h4 : WritableLayer.virtualSize t.view.top < vsize
    · rw [if_pos h4]
      by_cases h5 : (run (grow vsize) t.view.top).1 ≠ 0
      · refine ⟨t.view.vsize, (run (grow vsize) t.view.top).2, ?_, h.aligned, hspec⟩
        change (if (run (grow vsize) t.view.top).1 ≠ 0 then _ else _ : ℤ × MergedWritable LsmtRw).2 = _
        rw [if_pos h5]
        rfl
      · refine ⟨vsize, (run (grow vsize) t.view.top).2, ?_, by omega, hspec⟩
        change (if (run (grow vsize) t.view.top).1 ≠ 0 then _ else _ : ℤ × MergedWritable LsmtRw).2 = _
        rw [if_neg h5]
        rfl
    · rw [if_neg h4]
      exact ⟨vsize, _, rfl, by omega, h.wf, hrefl, rfl⟩
  obtain ⟨v, top', hop, hv, hwf, hframe, hsegs⟩ := happly
  refine h.step_still (fun _ => id) (by rw [hop]) (by rw [hop]) (by rw [hop]; exact hv) ?_ ?_ ?_
  · rw [hop]
    exact hwf
  · rw [hop]
    exact hframe
  · rw [hop]
    exact hsegs

/-- **One operation** keeps the invariant. -/
theorem Inv.step (h : Inv lowers t) : ∀ op, Inv lowers (t.step op)
  | .pwrite buf count off => h.step_pwrite buf count off
  | .discard off len => h.step_discard off len
  | .flush => h.step_flush
  | .grow vsize => h.step_grow vsize

/-- **A whole run** keeps the invariant. -/
theorem Inv.run (h : Inv lowers t) (ops : List DevOp) :
    Inv lowers (t.run ops) := by
  induction ops generalizing t with
  | nil => exact h
  | cons op ops ih => exact ih (h.step op)

/-! ### The law -/

theorem aligned_foldl_max : ∀ (lowers : List Lower) {v : ℕ}, v % kAlignment = 0 →
    (lowers.map Lower.layer).foldl (fun v l => max v l.virtualSize) v % kAlignment = 0
  | [], _, h => h
  | l :: rest, v, h => by
    refine aligned_foldl_max rest ?_
    change max v l.layer.virtualSize % kAlignment = 0
    rcases max_choice v l.layer.virtualSize with hm | hm <;> rw [hm]
    · exact h
    · exact l.aligned

variable {w : MergedWritable LsmtRw}

/-- Opening a stack over an opened pair. -/
theorem inv_start {d : Disk} {p : FilePair} {allocs : ℕ → Bool}
    (hp : FilePair.openSync d = .ok p) (hw : openStack (lowers.map Lower.layer) (fromPair p) allocs = some w) :
    Inv lowers.reverse (Trace.start lowers.reverse w.top.segments w.top.data.byte w) := by
  have hopen := FilePair.opened_of_openSync hp
  have hwf := wf_fromPair hopen
  unfold openStack at hw
  rw [← List.map_reverse] at hw
  set w₀ : MergedWritable LsmtRw := ⟨lowers.reverse.map Lower.layer, fromPair p, none,
    (lowers.reverse.map Lower.layer).foldl (fun v l => max v l.virtualSize) (WritableLayer.virtualSize (fromPair p)),
    allocs, 0⟩ with hw₀
  have hrep : Repaired w₀ w₀.rebuildIndex.2 (fromPair p).segments w₀.rebuildIndex.1 :=
    rebuildIndex_spec rfl (stack_indexWf lowers.reverse hwf.index)
  change (if w₀.rebuildIndex.1 = 0 then some w₀.rebuildIndex.2 else none) = some w at hw
  split_ifs at hw with h0
  obtain rfl := Option.some.inj hw
  refine ⟨hrep.layers, ?_, ?_, ?_, fun _ => ?_, fun i v hv => Option.some.inj hv⟩
  · change w₀.rebuildIndex.2.vsize % kAlignment = 0
    rw [hrep.vsize]
    exact aligned_foldl_max _ hopen.aligned
  · change Wf w₀.rebuildIndex.2.top
    rw [hrep.top]
    exact hwf
  · change w₀.rebuildIndex.2.Current w₀.rebuildIndex.2.top.segments
    rw [hrep.top]
    exact hrep.current
  · rcases hrep.outcome with ⟨-, hs⟩ | ⟨hneg, -⟩
    · exact hs
    · omega

/-- Reading a view without a snapshot. -/
theorem pread_none (h : w.index = none) (hoff : off % kAlignment = 0) (hcount : count % kAlignment = 0) (out : Buf) :
    (w.pread out count off).ret = -eio ∨ (w.pread out count off).ret = 0 ∧ min count (w.vsize - off) = 0 := by
  unfold MergedWritable.pread
  rw [if_neg (by omega)]
  by_cases h1 : w.vsize ≤ off
  · rw [if_pos h1]
    exact .inr ⟨rfl, by omega⟩
  rw [if_neg h1]
  by_cases h2 : count = 0
  · subst h2
    exact .inr ⟨by simp, Nat.zero_min _⟩
  · have h3 : (if w.vsize - off < count then w.vsize - off else count) ≠ 0 := by
      split_ifs <;> omega
    rw [if_neg h3, h]
    exact .inl rfl

/-- **The block-device law** of an LSMT stack: after any run of operations, an aligned read of addressable sectors
returns every byte that is expected there, or the run has failed before and the read reports it. -/
theorem lsmt_device_law {d : Disk} {p : FilePair} {lowers : List Lower} {allocs : ℕ → Bool}
    {w : MergedWritable LsmtRw} (hp : FilePair.openSync d = .ok p) (hlen : lowers.length ≤ 255)
    (hw : openStack (lowers.map Lower.layer) (fromPair p) allocs = some w) (ops : List DevOp) {off count : ℕ}
    (hoff : off % kAlignment = 0) (hcount : count % kAlignment = 0) (hend : off + count ≤ kMaxOffset * kAlignment)
    (out : Buf) :
    let t := (Trace.start lowers.reverse w.top.segments w.top.data.byte w).run ops
    let r := t.view.pread out count off
    (r.ret = ((min count (t.view.vsize - off) : ℕ) : ℤ) ∧
      ∀ i < min count (t.view.vsize - off), ∀ v, t.expected (off + i) = some v → r.out i = v) ∨
    t.clean = false ∧ r.ret = -eio := by
  intro t r
  have h : Inv lowers.reverse t := (inv_start hp hw).run ops
  by_cases hidx : t.view.index.isSome = true
  · have hback : ∀ x q, resolve t.view.top.segments x = some (.data q) →
        (q + 1) * kAlignment ≤ min t.view.top.dataBytes t.view.top.data.size := fun x q hq =>
      le_min (h.wf.backed x q hq).2.2.1 (h.wf.backed x q hq).2.2.2
    obtain ⟨hret, hbytes⟩ := pread_deviceByte (by rwa [List.length_reverse]) h.layers h.current hidx
      (backs_dataSource t.view.top) hback h.aligned hoff hcount hend out
    exact .inl ⟨hret, fun i hi v hv => (hbytes i hi).trans (h.agrees _ v hv)⟩
  · have hclean : t.clean = false := by
      cases hc : t.clean
      · rfl
      · exact absurd (h.indexed hc) hidx
    have hnone : t.view.index = none := by simpa using hidx
    rcases pread_none hnone hoff hcount out with he | ⟨h0, hmin⟩
    · exact .inr ⟨hclean, he⟩
    · rw [hmin]
      exact .inl ⟨h0, fun i hi => absurd hi (Nat.not_lt_zero i)⟩

/-- A layer with one run of ones. -/
def onesAt (offset length : ℕ) (hpos : 0 < length) (hlen : length ≤ kMaxLength) : Lower where
  layer := ⟨[⟨offset, length, 8, false, 0⟩], (offset + length) * kAlignment,
    ⟨fun _ count _ => ⟨count, fun _ => 1, le_rfl⟩⟩⟩
  payload := fun _ => 1
  size := (8 + length) * kAlignment
  index := ⟨List.pairwise_singleton _ _, fun s hs => by
    obtain rfl := List.mem_singleton.mp hs
    simp only [lo_eq, hi_eq]
    omega, fun s hs => by
    obtain rfl := List.mem_singleton.mp hs
    exact hlen⟩
  aligned := Nat.mul_mod_left _ _
  backs := fun _ _ _ _ => ⟨rfl, fun _ _ => rfl⟩
  inside := fun x p hp => by
    obtain ⟨s, hs, hc, hr⟩ := exists_of_lookup_some hp
    obtain rfl := List.mem_singleton.mp hs
    simp only [covers_iff] at hc
    simp only [place, Bool.false_eq_true, if_false, Place.data.injEq] at hr
    exact Nat.mul_le_mul_right _ (by omega)

/-- Sectors behind the last entry of the snapshot read as zeroes. -/
theorem pread_past {index : List SegmentMapping} (hindex : w.index = some index)
    (hstop : ∀ s ∈ index, s.stop ≤ off / kAlignment) (hoff : off % kAlignment = 0) (hcount : count % kAlignment = 0)
    (hend : off + count ≤ w.vsize) (h0 : 0 < count) (out : Buf) :
    (w.pread out count off).ret = count ∧ ∀ i < count, (w.pread out count off).out i = 0 := by
  have hdrop : index.dropWhile (fun s => decide (s.stop ≤ off / kAlignment)) = [] :=
    List.dropWhile_eq_nil_iff.mpr fun s hs => decide_eq_true (hstop s hs)
  have hlt : ¬ (off + count) / kAlignment ≤ off / kAlignment := by
    simp only [kAlignment] at *
    omega
  have hbytes : ((off + count) / kAlignment - off / kAlignment) * kAlignment = count := by
    simp only [kAlignment] at *
    omega
  unfold MergedWritable.pread
  rw [if_neg (by omega), if_neg (by omega), if_neg (show ¬ w.vsize - off < count by omega), if_neg (by omega), hindex]
  simp only [hdrop, readLoop, if_neg hlt, ReadRun.result, Nat.sub_self, Nat.zero_mul, hbytes, Option.getD_none, true_and]
  intro i hi
  simp [Buf.zero, Buf.put, hi]

theorem lowerByte_onesAt {offset length x : ℕ} (hpos : 0 < length) (hlen : length ≤ kMaxLength) (h1 : offset ≤ x)
    (h2 : x < offset + length) (j : ℕ) : lowerByte [onesAt offset length hpos hlen] x j = 1 := by
  have hres : resolve (onesAt offset length hpos hlen).layer.segments x = some (.data (8 + (x - offset))) :=
    lookup_cons_of_covers (s := (⟨offset, length, 8, false, 0⟩ : SegmentMapping)) ⟨h1, h2⟩
  rw [lowerByte, hres]
  rfl

/-- The stack of a fresh pair over one such layer. -/
theorem openStack_onesAt {offset length : ℕ} (hpos : 0 < length) (hlen : length ≤ kMaxLength) {p : FilePair}
    (hp : p.mappings = []) {index : List SegmentMapping}
    (hm : mergeIndexes [[], [⟨offset, length, 8, false, 0⟩]] = some index) :
    ∃ w, openStack [(onesAt offset length hpos hlen).layer] (fromPair p) (fun _ => true) = some w ∧
      w.index = some index ∧ (offset + length) * kAlignment ≤ w.vsize ∧ w.top.segments = [] := by
  have hsegs : WritableLayer.segmentsSnapshot (fromPair p) = .ok [] := congrArg Except.ok hp
  exact ⟨_, openStack_of_merge hsegs rfl hm, rfl, le_max_right _ _, hp⟩

/-- **Sector `kMaxOffset`** is where the law ends: a layer that maps it is merged without it. -/
theorem lsmt_device_law_past_maxOffset :
    ∃ d p w, FilePair.openSync d = .ok p ∧
      openStack [(onesAt (kMaxOffset - 1) 2 (by decide) (by decide)).layer] (fromPair p) (fun _ => true) = some w ∧
      (let t := Trace.start [onesAt (kMaxOffset - 1) 2 (by decide) (by decide)] w.top.segments w.top.data.byte w
       let r := t.view.pread (fun _ => 7) kAlignment (kMaxOffset * kAlignment)
       t.expected (kMaxOffset * kAlignment) = some 1 ∧ r.ret = kAlignment ∧ r.out 0 = 0) := by
  obtain ⟨data, index, -, -, hopen, -⟩ := FilePair.createSync_ok (show validUuid nilUuid = true by decide)
    (show kAlignment ≠ 0 by decide) (by decide) (by decide) fun _ => none
  have hmerge : mergeIndexes [[], [⟨kMaxOffset - 1, 2, 8, false, 0⟩]] = some [⟨kMaxOffset - 1, 1, 8, false, 1⟩] := by
    decide
  have hdiv : kMaxOffset * kAlignment / kAlignment = kMaxOffset := Nat.mul_div_cancel _ (by decide)
  obtain ⟨w, hw, hindex, hvsize, hsegs⟩ := openStack_onesAt (by decide) (by decide)
    (show (FilePair.created kAlignment nilUuid data index fun _ => none).mappings = [] from rfl) hmerge
  have hend : kMaxOffset * kAlignment + kAlignment ≤ w.vsize := le_trans (by decide) hvsize
  obtain ⟨hret, hout⟩ := pread_past hindex
    (fun s hs => by
      obtain rfl := List.mem_singleton.mp hs
      rw [hdiv]
      decide)
    (Nat.mul_mod_left _ _) (Nat.mod_self _) hend (by decide) fun _ => 7
  refine ⟨_, _, w, hopen, hw, ?_, hret, hout 0 (by decide)⟩
  change some (deviceByte _ w.top.segments _ _ _) = some 1
  rw [hsegs, deviceByte, resolve, lookup_nil, hdiv]
  exact congrArg some (lowerByte_onesAt _ _ (by decide) (by decide) _)

/-- The law at work: a byte of the layer below, under a fresh top. -/
theorem lsmt_device_law_fresh :
    ∃ d p w, FilePair.openSync d = .ok p ∧
      openStack [(onesAt 0 1 (by decide) (by decide)).layer] (fromPair p) (fun _ => true) = some w ∧
      (let t := (Trace.start [onesAt 0 1 (by decide) (by decide)] w.top.segments w.top.data.byte w).run
        [.pwrite (fun _ => 2) kAlignment kAlignment, .discard 0 kAlignment]
       let r := t.view.pread (fun _ => 7) kAlignment 0
       (r.ret = ((min kAlignment (t.view.vsize - 0) : ℕ) : ℤ) ∧
        ∀ i < min kAlignment (t.view.vsize - 0), ∀ v, t.expected (0 + i) = some v → r.out i = v) ∨
       t.clean = false ∧ r.ret = -eio) := by
  obtain ⟨data, index, -, -, hopen, -⟩ := FilePair.createSync_ok (show validUuid nilUuid = true by decide)
    (show kAlignment ≠ 0 by decide) (by decide) (by decide) fun _ => none
  have hmerge : mergeIndexes [[], [⟨0, 1, 8, false, 0⟩]] = some [⟨0, 1, 8, false, 1⟩] := by decide
  obtain ⟨w, hw, -⟩ := openStack_onesAt (by decide) (by decide)
    (show (FilePair.created kAlignment nilUuid data index fun _ => none).mappings = [] from rfl) hmerge
  have hlen : [onesAt 0 1 (by decide) (by decide)].length ≤ 255 := Nat.le_of_ble_eq_true rfl
  exact ⟨_, _, w, hopen, hw, lsmt_device_law hopen hlen hw _ (Nat.zero_mod _) (Nat.mod_self _) (by decide) _⟩

end LsmtRw

end OverlayBD
