import OverlayBD.Format.LsmtPairOpen
import OverlayBD.Format.LsmtRw

/-!
# What the LSMT writable layer holds

The layer's content is its map of sectors together with the payload behind it.  This module says, for every
operation, which sectors it may touch and what they hold afterwards, whether it succeeds or not.

## The model

* `Wf` — the state invariant: mapped payload lies behind the header and inside the file, and no payload sector is
  mapped twice.
* `Frame lo hi` — nothing outside `[lo, hi)` moved, neither the map nor the payload it points to.
* `Plan` — the shape of a write plan: the sectors in order, live DATA reused where it is, everything else in fresh
  payload sectors.

## What is proved

* `planOps_plan` — the planning loop computes a plan.
* `writeOps_spec` — the payload writes of a plan put the buffer where the plan says and touch nothing else.
* `pwrite_spec`, `discard_spec`, `flush_spec`, `grow_spec` — each keeps the invariant and the frame on every way
  out; a write that succeeds holds the buffer in its range, a discard maps its range to zeroes.
-/

namespace OverlayBD

open Intervals SegmentMapping Bytes Errno Effect

namespace LsmtRw

/-! ### The invariant and the frame -/

/-- Mapped payload is in the file, behind the header, and mapped once. -/
structure Wf (s : LsmtRw) : Prop where
  index : IndexWf s.segments
  header_le : s.pair.header.virtualSize ≤ kMaxOffset * kAlignment
  vsize_le : s.vsize ≤ kMaxOffset * kAlignment
  start : kDataStartSector ≤ s.dataEndSector
  backed : ∀ x p, resolve s.segments x = some (.data p) → kDataStartSector ≤ p ∧ p < s.dataEndSector ∧
    (p + 1) * kAlignment ≤ s.dataBytes ∧ (p + 1) * kAlignment ≤ s.data.size
  exclusive : SectorMap.Exclusive (resolve s.segments)

/-- **Opening establishes the invariant.** -/
theorem wf_fromPair {p : FilePair} (h : FilePair.Opened p) : Wf (fromPair p) := by
  obtain ⟨complete, index, count, hle, hload⟩ := h.loaded
  obtain ⟨hok, hex, -⟩ := Replay.load_spec hload
  refine ⟨hok.index, h.capacity, h.capacity, ?_, fun x s hs => ?_, hex⟩
  · exact (Nat.le_div_iff_mul_le (by decide)).mpr h.header_le
  · obtain ⟨h1, h2⟩ := hok.physical x s hs
    have h3 : (s + 1) * kAlignment ≤ p.dataBytes := by
      refine le_trans ?_ hle
      exact (Nat.mul_le_mul_right _ h2).trans (Nat.div_mul_le_self _ _)
    exact ⟨h1, (Nat.le_div_iff_mul_le (by decide)).mpr h3, h3, h3.trans h.size.ge⟩

/-- Nothing outside sectors `[lo, hi)` moved. -/
structure Frame (lo hi : ℕ) (s s' : LsmtRw) : Prop where
  maps : ∀ x, ¬ (lo ≤ x ∧ x < hi) → resolve s'.segments x = resolve s.segments x
  bytes : ∀ x p, ¬ (lo ≤ x ∧ x < hi) → resolve s.segments x = some (.data p) →
    ∀ j < kAlignment, s'.data.byte (p * kAlignment + j) = s.data.byte (p * kAlignment + j)
  revision_le : s.revision ≤ s'.revision
  /-- An unchanged revision means unchanged mappings. -/
  same : s'.revision = s.revision → s.revision ≠ kUnknownRevision → s'.segments = s.segments

section Frame

variable {lo hi lo' hi' : ℕ} {s s' s'' : LsmtRw}

theorem Frame.refl (lo hi : ℕ) (s : LsmtRw) : Frame lo hi s s :=
  ⟨fun _ _ => rfl, fun _ _ _ _ _ _ => rfl, le_rfl, fun _ _ => rfl⟩

theorem Frame.trans (h : Frame lo hi s s') (h' : Frame lo hi s' s'') : Frame lo hi s s'' := by
  refine ⟨fun x hx => (h'.maps x hx).trans (h.maps x hx), fun x p hx hp j hj => ?_,
    h.revision_le.trans h'.revision_le, fun hr hk => ?_⟩
  · rw [h'.bytes x p hx ((h.maps x hx).trans hp) j hj, h.bytes x p hx hp j hj]
  · have h1 : s'.revision = s.revision := by
      have := h.revision_le
      have := h'.revision_le
      omega
    rw [h'.same (hr.trans h1.symm) (h1 ▸ hk), h.same h1 hk]

theorem Frame.mono (h : Frame lo hi s s') (hlo : lo' ≤ lo) (hhi : hi ≤ hi') : Frame lo' hi' s s' :=
  ⟨fun x hx => h.maps x (by omega), fun x p hx => h.bytes x p (by omega), h.revision_le, h.same⟩

end Frame

/-- Map, payload and counters are left alone. -/
def quiet : Guarantee LsmtRw where
  rel s s' := FilePair.payload.rel s.pair s'.pair ∧ s'.segments = s.segments ∧
    s'.dataEndSector = s.dataEndSector ∧ s'.dataBytes = s.dataBytes ∧ s'.revision = s.revision ∧ s'.vsize = s.vsize
  refl _ := ⟨FilePair.payload.refl _, rfl, rfl, rfl, rfl, rfl⟩
  trans h h' := ⟨FilePair.payload.trans h.1 h'.1, h'.2.1.trans h.2.1, h'.2.2.1.trans h.2.2.1,
    h'.2.2.2.1.trans h.2.2.2.1, h'.2.2.2.2.1.trans h.2.2.2.2.1, h'.2.2.2.2.2.trans h.2.2.2.2.2⟩

/-- A change of the pair that keeps the payload, and perhaps of the capacity. -/
theorem within_of_payload {s s' : LsmtRw} (lo hi : ℕ) (hp : FilePair.payload.rel s.pair s'.pair)
    (hsegs : s'.segments = s.segments) (hend : s'.dataEndSector = s.dataEndSector)
    (hbytes : s'.dataBytes = s.dataBytes) (hrev : s'.revision = s.revision)
    (hv : Wf s → s'.vsize ≤ kMaxOffset * kAlignment) (hw : Wf s) : Wf s' ∧ Frame lo hi s s' := by
  refine ⟨⟨hsegs ▸ hw.index, hp.2.2 hw.header_le, hv hw, hend ▸ hw.start, fun x p hx => ?_, ?_⟩, ?_⟩
  · rw [hsegs] at hx
    obtain ⟨h1, h2, h3, h4⟩ := hw.backed x p hx
    exact ⟨h1, hend ▸ h2, hbytes ▸ h3, h4.trans hp.1⟩
  · rw [hsegs]
    exact hw.exclusive
  · refine ⟨fun x _ => by rw [hsegs], fun x p _ hx j _ => hp.2.1 _ ?_, hrev.ge, fun _ _ => hsegs⟩
    have := (hw.backed x p hx).1
    simp only [kDataStartSector, kSpace, kAlignment] at *
    omega

theorem within_of_quiet {s s' : LsmtRw} (lo hi : ℕ) (h : quiet.rel s s') (hw : Wf s) : Wf s' ∧ Frame lo hi s s' := by
  obtain ⟨hp, hsegs, hend, hbytes, hrev, hv⟩ := h
  exact within_of_payload lo hi hp hsegs hend hbytes hrev (fun hw => hv ▸ hw.vsize_le) hw

theorem respects_onPair {α : Type} {m : Eff FilePair α} (hm : Respects FilePair.payload m) :
    Respects quiet (onPair m) :=
  hm.zoom fun _ _ hp => ⟨hp, rfl, rfl, rfl, rfl, rfl⟩

theorem respects_journal {m : Eff FilePair Unit} (hm : Respects FilePair.payload m) (f : LsmtRw → Bool) :
    Respects quiet (onError (onPair m) fun s => { s with journalFailed := f s }) :=
  (respects_onPair hm).onError fun s => quiet.refl s

theorem respects_prepareMutation : Respects quiet prepareMutation :=
  (respects_gets _).bind fun _ => (respects_refuse (by simp [eio])).bind fun _ =>
    Respects.onlyIf (respects_onPair (FilePair.respects_compactSync _))

/-- New mappings for the sectors of a range. -/
theorem frame_replace {s : LsmtRw} {lo hi : ℕ} {segs : List SegmentMapping}
    (h : ∀ x, ¬ (lo ≤ x ∧ x < hi) → resolve segs x = resolve s.segments x) :
    Frame lo hi s { s.mappingsChanged with segments := segs } := by
  refine ⟨h, fun _ _ _ _ _ _ => rfl, ?_, fun hr hk => absurd hr ?_⟩
  · change s.revision ≤ if s.revision = kUnknownRevision then s.revision else s.revision + 1
    split_ifs <;> omega
  · change (if s.revision = kUnknownRevision then s.revision else s.revision + 1) ≠ s.revision
    rw [if_neg hk]
    omega

/-! ### Plans -/

/-- A plan for sectors `[cur, hi)` over the map `f`: the append position before and after. -/
inductive Plan (f : SectorMap) (hi : ℕ) : ℕ → ℕ → List WriteOp → ℕ → Prop where
  | done (d : ℕ) : Plan f hi hi d [] d
  /-- Live DATA is overwritten where it is. -/
  | reuse {cur n p d d' : ℕ} {ops : List WriteOp} (hn : 0 < n)
      (hmap : ∀ i < n, f (cur + i) = some (.data (p + i))) (rest : Plan f hi (cur + n) d ops d') :
      Plan f hi cur d (⟨cur, p, n, true⟩ :: ops) d'
  /-- Everything else gets fresh sectors. -/
  | fresh {cur n d d' : ℕ} {ops : List WriteOp} (hn : 0 < n)
      (hmap : ∀ i < n, ∀ p, f (cur + i) ≠ some (.data p)) (rest : Plan f hi (cur + n) (d + n) ops d') :
      Plan f hi cur d (⟨cur, d, n, false⟩ :: ops) d'

/-- The last step of planning: what no run covers is appended. -/
theorem plan_rest {f : SectorMap} {hi cur d : ℕ} (hcur : cur ≤ hi)
    (hf : ∀ x, cur ≤ x → x < hi → ∀ p, f x ≠ some (.data p)) :
    Plan f hi cur d (if cur < hi then ([⟨cur, d, hi - cur, false⟩], d + (hi - cur)) else ([], d)).1
      (if cur < hi then (([⟨cur, d, hi - cur, false⟩] : List WriteOp), d + (hi - cur)) else ([], d)).2 := by
  by_cases h : cur < hi
  · rw [if_pos h]
    refine .fresh (by omega) (fun i hi' => hf _ (by omega) (by omega)) ?_
    rw [show cur + (hi - cur) = hi by omega]
    exact .done _
  · rw [if_neg h, show cur = hi by omega]
    exact .done _

/-- **The planning loop** computes a plan, for a map that agrees on DATA with the runs still to come. -/
theorem planOps_plan (f : SectorMap) (lo hi : ℕ) : ∀ (l : List SegmentMapping) (cur d : ℕ), IndexWf l →
    (∀ s ∈ l, cur < s.stop) → lo ≤ cur → cur ≤ hi →
    (∀ x, cur ≤ x → x < hi → ∀ p, f x = some (.data p) ↔ resolve l x = some (.data p)) →
    Plan f hi cur d (planOps lo hi l cur d).1 (planOps lo hi l cur d).2
  | [], cur, d, _, _, _, hcur, hf => by
    refine plan_rest hcur fun x hx hx' p hp => ?_
    rw [hf x hx hx'] at hp
    exact nomatch hp
  | s :: rest, cur, d, hw, hend, hlo, hcur, hf => by
    have hs := hend s List.mem_cons_self
    have hlater : ∀ t ∈ rest, s.stop ≤ t.offset := fun t ht => hw.ordered.head_le ht
    have hrest : ∀ c, c ≤ s.stop → ∀ t ∈ rest, c < t.stop := by
      intro c hc t ht
      have h1 := hlater t ht
      have h2 := hw.proper t (List.mem_cons_of_mem _ ht)
      simp only [lo_eq, hi_eq, stop] at *
      omega
    rw [planOps]
    by_cases h1 : hi ≤ s.offset
    · rw [if_pos h1]
      refine plan_rest hcur fun x hx hx' p hp => ?_
      rw [hf x hx hx'] at hp
      obtain ⟨t, ht, hc, -⟩ := exists_of_lookup_some hp
      have : s.offset ≤ t.offset := by
        rcases List.mem_cons.mp ht with rfl | ht
        · exact le_rfl
        · have := hlater t ht
          simp only [stop] at this
          omega
      simp only [covers_iff] at hc
      omega
    rw [if_neg h1]
    by_cases h2 : s.zeroed = true ∨ s.stop ≤ lo
    · -- a ZERO run owns no payload
      rw [if_pos h2]
      have hz : s.zeroed = true := h2.resolve_right (by omega)
      refine planOps_plan f lo hi rest cur d hw.of_cons (hrest cur hs.le) hlo hcur fun x hx hx' p => ?_
      rw [hf x hx hx' p]
      by_cases hc : Covers s x
      · have hnone : resolve rest x = none := hw.ordered.lookup_tail hc
        rw [hnone, resolve, lookup_cons_of_covers hc]
        simp [place, hz]
      · rw [resolve, lookup_cons_of_not hc]
    rw [if_neg h2]
    have hz : s.zeroed = false := by
      have : ¬ s.zeroed = true := fun h => h2 (.inl h)
      simpa using this
    have hdata : ∀ x, s.offset ≤ x → x < s.stop → cur ≤ x → x < hi →
        f x = some (.data (s.moffset + (x - s.offset))) := by
      intro x hx1 hx2 hx3 hx4
      rw [hf x hx3 hx4, resolve, lookup_cons_of_covers ⟨hx1, hx2⟩]
      simp [place, hz]
    by_cases h3 : max cur s.offset < min s.stop hi
    · simp only [if_pos h3]
      have hreuse : ∀ d₁, Plan f hi (max cur s.offset) d₁
          (⟨max cur s.offset, s.moffset + (max cur s.offset - s.offset), min s.stop hi - max cur s.offset, true⟩ ::
            (planOps lo hi rest (min s.stop hi) d₁).1) (planOps lo hi rest (min s.stop hi) d₁).2 := by
        intro d₁
        refine .reuse (by omega) (fun i hi' => ?_) ?_
        · rw [hdata _ (by omega) (by omega) (by omega) (by omega)]
          congr 2
          omega
        · rw [show max cur s.offset + (min s.stop hi - max cur s.offset) = min s.stop hi by omega]
          refine planOps_plan f lo hi rest _ d₁ hw.of_cons (hrest _ (min_le_left _ _)) (by omega) (by omega)
            fun x hx hx' p => ?_
          rw [hf x (by omega) hx' p]
          rw [show resolve (s :: rest) x = resolve rest x from lookup_cons_of_not fun hc => by
            simp only [covers_iff, stop] at *
            omega]
      by_cases h4 : cur < s.offset
      · simp only [if_pos h4]
        have := hreuse (d + (s.offset - cur))
        rw [show max cur s.offset = cur + (s.offset - cur) by omega] at this ⊢
        refine .fresh (by omega) (fun i hi' p hp => ?_) this
        rw [hf _ (by omega) (by omega)] at hp
        obtain ⟨t, ht, hc, -⟩ := exists_of_lookup_some hp
        have : s.offset ≤ t.offset := by
          rcases List.mem_cons.mp ht with rfl | ht
          · exact le_rfl
          · have := hlater t ht
            simp only [stop] at this
            omega
        simp only [covers_iff] at hc
        omega
      · simp only [if_neg h4, List.nil_append]
        have := hreuse d
        rwa [show max cur s.offset = cur by omega] at this ⊢
    · -- the window is exhausted
      have hproper : s.offset < s.stop := hw.proper s List.mem_cons_self
      have hch : cur = hi := by omega
      simp only [if_neg h3, if_neg (show ¬ cur < s.offset by omega), List.nil_append]
      exact planOps_plan f lo hi rest cur d hw.of_cons (hrest cur hs.le) hlo hcur
        fun x hx hx' => absurd hx' (by omega)

/-- The plan of one piece. -/
theorem Wf.plan {s : LsmtRw} (hw : Wf s) {lo hi : ℕ} (hlh : lo ≤ hi) :
    Plan (resolve s.segments) hi lo s.dataEndSector
      (planOps lo hi (s.segments.dropWhile fun m => decide (m.stop ≤ lo)) lo s.dataEndSector).1
      (planOps lo hi (s.segments.dropWhile fun m => decide (m.stop ≤ lo)) lo s.dataEndSector).2 := by
  refine planOps_plan _ lo hi _ lo _ (hw.index.sublist (List.dropWhile_sublist _))
    (fun m hm => hw.index.ordered.lt_hi_of_mem_dropWhile hw.index.proper hm) le_rfl hlh fun x hx _ p => ?_
  rw [show resolve (s.segments.dropWhile fun m => decide (m.stop ≤ lo)) x = resolve s.segments x from
    lookup_dropWhile_of_le hx]

/-! ### What a plan maps -/

section Plan

variable {f : SectorMap} {hi cur d d' : ℕ} {ops : List WriteOp}

theorem Plan.bounds (h : Plan f hi cur d ops d') : cur ≤ hi ∧ d ≤ d' := by
  induction h with
  | done => exact ⟨le_rfl, le_rfl⟩
  | reuse => omega
  | fresh => omega

/-- The runs of a plan, in order. -/
def runs (ops : List WriteOp) : List SegmentMapping := ops.map WriteOp.mapping

theorem Plan.mem_runs (h : Plan f hi cur d ops d') :
    ∀ m ∈ runs ops, cur ≤ m.offset ∧ 0 < m.length ∧ m.stop ≤ hi := by
  induction h with
  | done => exact fun m hm => nomatch hm
  | reuse hn _ rest ih =>
    intro m hm
    rcases List.mem_cons.mp hm with rfl | hm
    · exact ⟨le_rfl, hn, rest.bounds.1⟩
    · have := ih m hm
      exact ⟨by omega, this.2⟩
  | fresh hn _ rest ih =>
    intro m hm
    rcases List.mem_cons.mp hm with rfl | hm
    · exact ⟨le_rfl, hn, rest.bounds.1⟩
    · have := ih m hm
      exact ⟨by omega, this.2⟩

theorem Plan.ordered (h : Plan f hi cur d ops d') : Ordered (runs ops) := by
  induction h with
  | done => exact ordered_nil
  | reuse _ _ rest ih => exact ordered_cons.mpr ⟨fun t ht => (rest.mem_runs t ht).1, ih⟩
  | fresh _ _ rest ih => exact ordered_cons.mpr ⟨fun t ht => (rest.mem_runs t ht).1, ih⟩

theorem Plan.indexWf (h : Plan f hi cur d ops d') (hlen : hi - cur ≤ kMaxLength) : IndexWf (runs ops) := by
  refine ⟨h.ordered, fun m hm => ?_, fun m hm => ?_⟩
  · have := h.mem_runs m hm
    simp only [lo_eq, hi_eq]
    omega
  · have := h.mem_runs m hm
    simp only [stop] at this
    omega

theorem Plan.unmapped (h : Plan f hi cur d ops d') {x : ℕ} (hx : ¬ (cur ≤ x ∧ x < hi)) :
    resolve (runs ops) x = none := by
  refine lookup_none_iff.mpr fun m hm hc => hx ?_
  have := h.mem_runs m hm
  simp only [covers_iff, stop] at *
  omega

/-- Every sector gets payload: the one it has, or a fresh one. -/
theorem Plan.target (h : Plan f hi cur d ops d') {x : ℕ} (hx : cur ≤ x) (hx' : x < hi) :
    ∃ p, resolve (runs ops) x = some (.data p) ∧
      (f x = some (.data p) ∨ d ≤ p ∧ p < d' ∧ ∀ q, f x ≠ some (.data q)) := by
  induction h with
  | done => omega
  | @reuse cur n p d d' ops hn hmap rest ih =>
    by_cases hc : x < cur + n
    · refine ⟨p + (x - cur), lookup_cons_of_covers ⟨hx, hc⟩, .inl ?_⟩
      have := hmap (x - cur) (by omega)
      rwa [show cur + (x - cur) = x by omega] at this
    · obtain ⟨q, hq, hor⟩ := ih (by omega)
      exact ⟨q, (lookup_cons_of_not fun h => hc h.2).trans hq, hor⟩
  | @fresh cur n d d' ops hn hmap rest ih =>
    by_cases hc : x < cur + n
    · refine ⟨d + (x - cur), lookup_cons_of_covers ⟨hx, hc⟩, .inr ⟨by omega, ?_, ?_⟩⟩
      · have := rest.bounds.2
        omega
      · have := hmap (x - cur) (by omega)
        rwa [show cur + (x - cur) = x by omega] at this
    · obtain ⟨q, hq, hor⟩ := ih (by omega)
      refine ⟨q, (lookup_cons_of_not fun h => hc h.2).trans hq, hor.imp_right ?_⟩
      rintro ⟨h1, h2⟩
      exact ⟨by omega, h2⟩

/-- What a plan maps to a payload sector is in its window, and that sector is the old or a fresh one. -/
theorem Plan.of_resolve (h : Plan f hi cur d ops d') {x p : ℕ} (hr : resolve (runs ops) x = some (.data p)) :
    (cur ≤ x ∧ x < hi) ∧ (f x = some (.data p) ∨ d ≤ p ∧ p < d' ∧ ∀ q, f x ≠ some (.data q)) := by
  by_cases hx : cur ≤ x ∧ x < hi
  · obtain ⟨q, hq, hor⟩ := h.target hx.1 hx.2
    obtain rfl : q = p := by
      rw [hr] at hq
      exact (Place.data.inj (Option.some.inj hq)).symm
    exact ⟨hx, hor⟩
  · rw [h.unmapped hx] at hr
    exact nomatch hr

theorem Plan.tiles (h : Plan f hi cur d ops d') (x : ℕ) :
    (resolve (runs ops) x).isSome = true ↔ cur ≤ x ∧ x < hi := by
  refine ⟨fun hs => ?_, fun hx => ?_⟩
  · by_contra hx
    rw [h.unmapped hx] at hs
    exact nomatch hs
  · obtain ⟨p, hp, -⟩ := h.target hx.1 hx.2
    rw [hp]
    rfl

/-- A plan without appends follows the map it was made for. -/
theorem Plan.of_resolve_inplace (h : Plan f hi cur d ops d') (hall : ops.all WriteOp.inplace = true) {x p : ℕ}
    (hr : resolve (runs ops) x = some (.data p)) : f x = some (.data p) := by
  induction h with
  | done => exact nomatch hr
  | @reuse cur n q d d' ops hn hmap rest ih =>
    have hplan : Plan f hi cur d (⟨cur, q, n, true⟩ :: ops) d' := .reuse hn hmap rest
    have hx := (hplan.of_resolve hr).1.1
    by_cases hc : x < cur + n
    · have h1 : resolve (runs (⟨cur, q, n, true⟩ :: ops)) x = some (.data (q + (x - cur))) :=
        lookup_cons_of_covers ⟨hx, hc⟩
      have h2 := hmap (x - cur) (by omega)
      rwa [show cur + (x - cur) = x by omega, ← h1, hr] at h2
    · refine ih (by simpa using hall) ?_
      rw [← hr]
      exact (lookup_cons_of_not fun h => hc h.2).symm
  | fresh => simp at hall

/-- No payload sector is used twice. -/
theorem Plan.exclusive (h : Plan f hi cur d ops d') {bound : ℕ} (hb : bound ≤ d)
    (hlt : ∀ x p, f x = some (.data p) → p < bound)
    (hinj : f.Exclusive) : SectorMap.Exclusive (resolve (runs ops)) := by
  induction h with
  | done => exact fun x y p hx => nomatch hx
  | @reuse cur n q d d' ops hn hmap rest ih =>
    have hplan : Plan f hi cur d (⟨cur, q, n, true⟩ :: ops) d' := .reuse hn hmap rest
    intro x y p hx hy
    rcases (hplan.of_resolve hx).2 with hfx | ⟨h1, -, h2⟩
    · rcases (hplan.of_resolve hy).2 with hfy | ⟨h3, -, -⟩
      · exact hinj x y p hfx hfy
      · have := hlt x p hfx
        omega
    · -- fresh sectors come from the rest of the plan
      have hcx : ¬ x < cur + n := fun hc => by
        have := (hplan.of_resolve hx).1.1
        have := hmap (x - cur) (by omega)
        rw [show cur + (x - cur) = x by omega] at this
        exact h2 _ this
      have hcy : ¬ y < cur + n := fun hc => by
        have h3 := (hplan.of_resolve hy).1.1
        have h4 : resolve (runs (⟨cur, q, n, true⟩ :: ops)) y = some (.data (q + (y - cur))) :=
          lookup_cons_of_covers ⟨h3, hc⟩
        have h5 := hmap (y - cur) (by omega)
        rw [show cur + (y - cur) = y by omega] at h5
        have h6 := hlt y _ h5
        have h7 : q + (y - cur) = p := Place.data.inj (Option.some.inj (h4.symm.trans hy))
        omega
      refine ih hb x y p ?_ ?_
      · rw [← hx]
        exact (lookup_cons_of_not fun h => hcx h.2).symm
      · rw [← hy]
        exact (lookup_cons_of_not fun h => hcy h.2).symm
  | @fresh cur n d d' ops hn hmap rest ih =>
    have hplan : Plan f hi cur d (⟨cur, d, n, false⟩ :: ops) d' := .fresh hn hmap rest
    have hhead : ∀ z q, cur ≤ z → z < cur + n →
        resolve (runs (⟨cur, d, n, false⟩ :: ops)) z = some (.data q) → q = d + (z - cur) := by
      intro z q hz hz' hr
      have h4 : resolve (runs (⟨cur, d, n, false⟩ :: ops)) z = some (.data (d + (z - cur))) :=
        lookup_cons_of_covers ⟨hz, hz'⟩
      exact Place.data.inj (Option.some.inj (hr.symm.trans h4))
    have htail : ∀ z q, ¬ z < cur + n → resolve (runs (⟨cur, d, n, false⟩ :: ops)) z = some (.data q) →
        resolve (runs ops) z = some (.data q) := fun z q hz hr => by
      rw [← hr]
      exact (lookup_cons_of_not fun h => hz h.2).symm
    -- a head sector lies in `[d, d + n)`, one of the rest before `bound` or past it
    have hsplit : ∀ z q, ¬ z < cur + n → resolve (runs ops) z = some (.data q) → q < bound ∨ d + n ≤ q := by
      intro z q _ hr
      rcases (rest.of_resolve hr).2 with hf | ⟨h1, -, -⟩
      · exact .inl (hlt z q hf)
      · exact .inr h1
    intro x y p hx hy
    have hx0 := (hplan.of_resolve hx).1.1
    have hy0 := (hplan.of_resolve hy).1.1
    by_cases hcx : x < cur + n
    · have h1 := hhead x p hx0 hcx hx
      by_cases hcy : y < cur + n
      · have h2 := hhead y p hy0 hcy hy
        omega
      · have h2 := hsplit y p hcy (htail y p hcy hy)
        omega
    · by_cases hcy : y < cur + n
      · have h1 := hhead y p hy0 hcy hy
        have h2 := hsplit x p hcx (htail x p hcx hx)
        omega
      · exact ih (by omega) x y p (htail x p hcx hx) (htail y p hcy hy)

end Plan

/-! ### Payload writes -/

/-- The later state differs from the earlier one in the data file and its readable bound, which only grow. -/
structure Stored (s s' : LsmtRw) : Prop where
  rest : s' = { s with
    pair := { s.pair with disk := { s.pair.disk with data := s'.data, tick := s'.pair.disk.tick } }
    dataBytes := s'.dataBytes }
  size : s.data.size ≤ s'.data.size
  bound : s.dataBytes ≤ s'.dataBytes

theorem Stored.refl (s : LsmtRw) : Stored s s := ⟨rfl, le_rfl, le_rfl⟩

theorem Stored.trans {s s' s'' : LsmtRw} (h : Stored s s') (h' : Stored s' s'') : Stored s s'' := by
  refine ⟨?_, h.size.trans h'.size, h.bound.trans h'.bound⟩
  have h1 := h'.rest
  rw [h.rest] at h1
  exact h1

/-- Payload sector `p` holds what the request has for sector `x`. -/
def Holds (s : LsmtRw) (buf : Buf) (offset x p : ℕ) : Prop :=
  ∀ j < kAlignment, s.data.byte (p * kAlignment + j) = buf (x * kAlignment - offset + j)

/-- A byte of a run, counted in the request and in the file. -/
theorem request_byte {a b i j offset : ℕ} (h : offset ≤ a * kAlignment) :
    a * kAlignment - offset + ((b + i) * kAlignment + j - b * kAlignment) = (a + i) * kAlignment - offset + j := by
  have h1 : (b + i) * kAlignment + j - b * kAlignment = i * kAlignment + j := by
    rw [Nat.add_mul, Nat.add_assoc, Nat.add_sub_cancel_left]
  rw [h1, Nat.add_mul, Nat.sub_add_comm h, Nat.add_assoc]

/-- One payload write: the sectors of the run hold the request, no other sector moved. -/
theorem writeOp_spec (buf : Buf) (offset : ℕ) (op : WriteOp) (hn : 0 < op.nsector)
    (hoff : offset ≤ op.voff * kAlignment) (s : LsmtRw) :
    wp (writeOp buf offset op)
      (fun _ s' => Stored s s' ∧
        (∀ x p, resolve [op.mapping] x = some (.data p) → Holds s' buf offset x p) ∧
        (∀ p, (∀ x, resolve [op.mapping] x ≠ some (.data p)) →
          ∀ j < kAlignment, s'.data.byte (p * kAlignment + j) = s.data.byte (p * kAlignment + j)) ∧
        (op.moff + op.nsector) * kAlignment ≤ s'.dataBytes ∧
        s'.data.size = max s.data.size ((op.moff + op.nsector) * kAlignment))
      (fun e s' => 0 < e ∧ Stored s s' ∧
        ∀ p, (∀ x, resolve [op.mapping] x ≠ some (.data p)) →
          ∀ j < kAlignment, s'.data.byte (p * kAlignment + j) = s.data.byte (p * kAlignment + j)) s := by
  have hmap : ∀ x p, resolve [op.mapping] x = some (.data p) ↔
      op.voff ≤ x ∧ x < op.voff + op.nsector ∧ p = op.moff + (x - op.voff) := by
    intro x p
    by_cases hc : Covers op.mapping x
    · rw [resolve, lookup_cons_of_covers hc]
      simp only [covers_iff, WriteOp.mapping, place] at *
      simp only [Bool.false_eq_true, if_false, Option.some.injEq, Place.data.injEq]
      omega
    · rw [resolve, lookup_cons_of_not hc]
      simp only [covers_iff, WriteOp.mapping] at hc
      simp
      omega
  -- a write of a part of the run touches only its sectors
  have hout : ∀ (k : ℕ) (src : Buf), k ≤ op.nsector * kAlignment → ∀ p,
      (∀ x, resolve [op.mapping] x ≠ some (.data p)) → ∀ j < kAlignment,
        (s.data.write (op.moff * kAlignment) k src).byte (p * kAlignment + j) = s.data.byte (p * kAlignment + j) := by
    intro k src hk p hp j hj
    refine File.byte_write_of_not fun hin => ?_
    refine hp (op.voff + (p - op.moff)) ((hmap _ _).mpr ?_)
    simp only [kAlignment] at *
    omega
  have hkeep := fun k hk => hout k (fun i => buf (op.voff * kAlignment - offset + i)) hk
  have hgrow : ∀ k, s.data.size ≤ (s.data.write (op.moff * kAlignment) k
      fun i => buf (op.voff * kAlignment - offset + i)).size := fun _ => File.size_le_size_write
  unfold writeOp onPair FilePair.sys
  simp only [wp_bind, wp_zoom]
  unfold wp Disk.write
  cases hf : s.pair.disk.faults s.pair.disk.tick with
  | some f =>
    exact ⟨f.pos, ⟨rfl, hgrow _, le_rfl⟩,
      hkeep _ (min_le_right _ _)⟩
  | none =>
    by_cases hk : kMaxFileSize < op.moff * kAlignment + op.nsector * kAlignment
    · simp only [if_pos hk]
      exact ⟨by simp [efbig], ⟨rfl, le_rfl, le_rfl⟩, fun _ _ _ _ => rfl⟩
    · simp only [if_neg hk]
      refine ⟨⟨rfl, hgrow _, le_max_left _ _⟩, fun x p hp j hj => ?_, hkeep _ le_rfl,
        le_max_right _ _, ?_⟩
      · obtain ⟨h1, h2, rfl⟩ := (hmap x p).mp hp
        change (s.data.write (op.moff * kAlignment) (op.nsector * kAlignment)
          fun i => buf (op.voff * kAlignment - offset + i)).byte _ = _
        obtain ⟨i, rfl⟩ := Nat.exists_eq_add_of_le h1
        rw [Nat.add_sub_cancel_left, File.byte_write_of_mem (by simp only [kAlignment] at *; omega),
          request_byte hoff]
      · change (if op.nsector * kAlignment = 0 then s.data.size else _) = _
        rw [if_neg (by simp only [kAlignment]; omega), Nat.add_mul]
        rfl

/-- **The payload writes** of runs that share no payload. -/
theorem writeOps_spec (buf : Buf) (offset : ℕ) : ∀ (ops : List WriteOp) (s : LsmtRw),
    (∀ op ∈ ops, 0 < op.nsector ∧ offset ≤ op.voff * kAlignment) → Ordered (runs ops) →
    SectorMap.Exclusive (resolve (runs ops)) →
    wp (each ops (writeOp buf offset))
      (fun _ s' => Stored s s' ∧
        (∀ x p, resolve (runs ops) x = some (.data p) →
          Holds s' buf offset x p ∧ (p + 1) * kAlignment ≤ s'.dataBytes ∧ (p + 1) * kAlignment ≤ s'.data.size) ∧
        (∀ p, (∀ x, resolve (runs ops) x ≠ some (.data p)) →
          ∀ j < kAlignment, s'.data.byte (p * kAlignment + j) = s.data.byte (p * kAlignment + j)) ∧
        ∀ top, s.data.size ≤ top → (∀ op ∈ ops, (op.moff + op.nsector) * kAlignment ≤ top) → s'.data.size ≤ top)
      (fun e s' => 0 < e ∧ Stored s s' ∧
        ∀ p, (∀ x, resolve (runs ops) x ≠ some (.data p)) →
          ∀ j < kAlignment, s'.data.byte (p * kAlignment + j) = s.data.byte (p * kAlignment + j)) s
  | [], s, _, _, _ => by
    refine ⟨Stored.refl s, fun x p h => ?_, fun _ _ _ _ => rfl, fun _ h _ => h⟩
    exact nomatch h
  | op :: ops, s, hops, hord, hinj => by
    obtain ⟨hn, hoff⟩ := hops op List.mem_cons_self
    -- sectors of the rest are not sectors of the head
    have hhead : ∀ x r, resolve [op.mapping] x = some r → resolve (runs (op :: ops)) x = some r := by
      intro x r hr
      obtain ⟨t, ht, hc, rfl⟩ := exists_of_lookup_some hr
      obtain rfl := List.mem_singleton.mp ht
      exact lookup_cons_of_covers hc
    have htail : ∀ x r, resolve (runs ops) x = some r → resolve (runs (op :: ops)) x = some r := by
      intro x r hr
      obtain ⟨t, ht, hc, -⟩ := exists_of_lookup_some hr
      refine (lookup_cons_of_not fun hc' => ?_).trans hr
      have := hord.head_le ht
      simp only [covers_iff, lo_eq, hi_eq] at *
      omega
    have hcases : ∀ x r, resolve (runs (op :: ops)) x = some r →
        resolve [op.mapping] x = some r ∨ resolve (runs ops) x = some r := by
      intro x r hr
      by_cases hc : Covers op.mapping x
      · rw [show resolve (runs (op :: ops)) x = some (op.mapping.place x) from lookup_cons_of_covers hc] at hr
        exact .inl ((lookup_cons_of_covers hc).trans hr)
      · exact .inr ((lookup_cons_of_not hc).symm.trans hr)
    have hapart : ∀ x p, resolve [op.mapping] x = some (.data p) → ∀ y, resolve (runs ops) y ≠ some (.data p) := by
      intro x p hx y hy
      obtain rfl := hinj x y p (hhead x _ hx) (htail y _ hy)
      obtain ⟨t, ht, hc, -⟩ := exists_of_lookup_some hy
      obtain ⟨t', ht', hc', -⟩ := exists_of_lookup_some hx
      obtain rfl := List.mem_singleton.mp ht'
      have := hord.head_le ht
      simp only [covers_iff, lo_eq, hi_eq] at *
      omega
    rw [each, wp_bind]
    refine wp_mono (writeOp_spec buf offset op hn hoff s) (fun _ s₁ h₁ => ?_) fun e s₁ h₁ => ?_
    · obtain ⟨hst, hdone, hkeep, hbound, hsize⟩ := h₁
      refine wp_mono (writeOps_spec buf offset ops s₁ (fun o ho => hops o (List.mem_cons_of_mem _ ho)) hord.tail
        fun x y p hx hy => hinj x y p (htail x _ hx) (htail y _ hy)) (fun _ s₂ h₂ => ?_) fun e s₂ h₂ => ?_
      · obtain ⟨hst₂, hdone₂, hkeep₂, hsize₂⟩ := h₂
        refine ⟨hst.trans hst₂, fun x p hx => ?_, fun p hp j hj => ?_, fun top htop hall => ?_⟩
        · rcases hcases x _ hx with hx | hx
          · have hle : (p + 1) * kAlignment ≤ (op.moff + op.nsector) * kAlignment := by
              obtain ⟨t, ht, hc, hpl⟩ := exists_of_lookup_some hx
              obtain rfl := List.mem_singleton.mp ht
              simp only [covers_iff, WriteOp.mapping, place] at hc hpl
              have := Place.data.inj hpl
              exact Nat.mul_le_mul_right _ (by omega)
            refine ⟨fun j hj => ?_, (hle.trans hbound).trans hst₂.bound, (hle.trans ?_).trans hst₂.size⟩
            · rw [hkeep₂ p (hapart x p hx) j hj]
              exact hdone x p hx j hj
            · rw [hsize]
              exact le_max_right _ _
          · exact hdone₂ x p hx
        · rw [hkeep₂ p (fun x hx => hp x (htail x _ hx)) j hj, hkeep p (fun x hx => hp x (hhead x _ hx)) j hj]
        · refine hsize₂ top ?_ fun o ho => hall o (List.mem_cons_of_mem _ ho)
          rw [hsize]
          exact max_le htop (hall op List.mem_cons_self)
      · refine ⟨h₂.1, hst.trans h₂.2.1, fun p hp j hj => ?_⟩
        rw [h₂.2.2 p (fun x hx => hp x (htail x _ hx)) j hj, hkeep p (fun x hx => hp x (hhead x _ hx)) j hj]
    · exact ⟨h₁.1, h₁.2.1, fun p hp j hj => h₁.2.2 p (fun x hx => hp x (hhead x _ hx)) j hj⟩

/-! ### One piece of a write -/

theorem respects_publishOps : ∀ (ops : List WriteOp) (published : Bool), Respects quiet (publishOps ops published)
  | [], _ => respects_pure ()
  | op :: ops, published => by
    rw [publishOps]
    refine Respects.ite (respects_publishOps ops published) ?_
    exact (respects_journal (FilePair.respects_append _) _).bind fun _ => respects_publishOps ops true

/-- Storing payload where a plan says keeps the invariant and the frame, whatever the bytes. -/
theorem stored_within {s s' : LsmtRw} {lo hi d' : ℕ} {ops : List WriteOp} (hw : Wf s)
    (hplan : Plan (resolve s.segments) hi lo s.dataEndSector ops d')
    (hst : Stored { s with dataEndSector := d' } s')
    (hkeep : ∀ p, (∀ x, resolve (runs ops) x ≠ some (.data p)) →
      ∀ j < kAlignment, s'.data.byte (p * kAlignment + j) = s.data.byte (p * kAlignment + j)) :
    Wf s' ∧ Frame lo hi s s' := by
  have hsegs : s'.segments = s.segments := by rw [hst.rest]
  have hend : s'.dataEndSector = d' := by rw [hst.rest]
  have hd := hplan.bounds.2
  refine ⟨⟨hsegs ▸ hw.index, ?_, ?_, ?_, fun x p hx => ?_, hsegs ▸ hw.exclusive⟩,
    ⟨fun x _ => by rw [hsegs], fun x p hx hp j hj => hkeep p (fun y hy => ?_) j hj, ?_, fun _ _ => hsegs⟩⟩
  · rw [hst.rest]
    exact hw.header_le
  · rw [hst.rest]
    exact hw.vsize_le
  · rw [hend]
    exact hw.start.trans hd
  · rw [hsegs] at hx
    obtain ⟨h1, h2, h3, h4⟩ := hw.backed x p hx
    exact ⟨h1, by rw [hend]; omega, h3.trans hst.bound, h4.trans hst.size⟩
  · -- payload outside the window is neither reused nor fresh
    obtain ⟨hwin, hfy | ⟨h1, -, -⟩⟩ := hplan.of_resolve hy
    · exact hx (hw.exclusive x y p hp hfy ▸ hwin)
    · have := (hw.backed x p hp).2.1
      omega
  · rw [hst.rest]

/-- **One piece of a write.** -/
theorem pwritePiece_spec {buf : Buf} {offset lo hi : ℕ} {s : LsmtRw} (hw : Wf s) (hlh : lo < hi)
    (hlen : hi - lo ≤ kMaxLength) (hoff : offset ≤ lo * kAlignment) :
    wp (pwritePiece buf offset lo hi)
      (fun _ s' => (Wf s' ∧ Frame lo hi s s') ∧
        ∀ x, lo ≤ x → x < hi → ∃ p, resolve s'.segments x = some (.data p) ∧ Holds s' buf offset x p)
      (fun e s' => 0 < e ∧ Wf s' ∧ Frame lo hi s s') s := by
  have hplan := hw.plan hlh.le
  unfold pwritePiece
  simp only [wp_bind, wp_gets, wp_modify, id]
  generalize planOps lo hi (s.segments.dropWhile fun m => decide (m.stop ≤ lo)) lo s.dataEndSector = plan at hplan ⊢
  obtain ⟨ops, d'⟩ := plan
  have hops : ∀ op ∈ ops, 0 < op.nsector ∧ offset ≤ op.voff * kAlignment := by
    intro op hop
    obtain ⟨h1, h2, -⟩ := hplan.mem_runs op.mapping (List.mem_map_of_mem hop)
    exact ⟨h2, hoff.trans (Nat.mul_le_mul_right _ h1)⟩
  have hinj := hplan.exclusive le_rfl (fun x p hp => (hw.backed x p hp).2.1) hw.exclusive
  refine wp_mono (writeOps_spec buf offset ops { s with dataEndSector := d' } hops hplan.ordered hinj)
    (fun _ s₁ h₁ => ?_) fun e s₁ h₁ => ⟨h₁.1, stored_within hw hplan h₁.2.1 h₁.2.2⟩
  obtain ⟨hst, hdone, hkeep, -⟩ := h₁
  have hs₁ := stored_within hw hplan hst hkeep
  have hsegs : s₁.segments = s.segments := by rw [hst.rest]
  refine (wp_ite _ _).mpr ⟨fun hall => ⟨hs₁, fun x hx hx' => ?_⟩, fun _ => ?_⟩
  · -- every sector was overwritten in place: the map already says so
    obtain ⟨p, hp, -⟩ := hplan.target hx hx'
    refine ⟨p, ?_, (hdone x p hp).1⟩
    rw [hsegs]
    exact hplan.of_resolve_inplace hall hp
  · rw [wp_bind]
    refine wp_mono (respects_publishOps ops false s₁) (fun _ s₂ h₂ => ?_) fun e s₂ h₂ => ?_
    · rw [wp_modify]
      obtain ⟨hw₂, hf₂⟩ := within_of_quiet lo hi h₂ hs₁.1
      obtain ⟨hp₂, hsegs₂, hend₂, hbytes₂, hrev₂, hv₂⟩ := h₂
      have hold : s₂.segments = s.segments := hsegs₂.trans hsegs
      obtain ⟨hwf, hr⟩ := replaceRuns_spec hw₂.index (hplan.indexWf hlen) hlh.le hplan.tiles
      have hout : ∀ x, ¬ (lo ≤ x ∧ x < hi) →
          resolve ((runs ops).foldl insertSorted (eraseRange lo hi s₂.segments)) x = resolve s₂.segments x :=
        fun x hx => (hr x).trans (if_neg hx)
      -- a sector of the range maps to a sector the plan stored
      have hin : ∀ x p, lo ≤ x ∧ x < hi →
          resolve ((runs ops).foldl insertSorted (eraseRange lo hi s₂.segments)) x = some (.data p) →
          resolve (runs ops) x = some (.data p) := fun x p hx h => by rwa [hr x, if_pos hx] at h
      have hcross : ∀ x y p, lo ≤ x ∧ x < hi → ¬ (lo ≤ y ∧ y < hi) → resolve (runs ops) x = some (.data p) →
          resolve s.segments y ≠ some (.data p) := by
        intro x y p hwx hwy hx hy
        rcases (hplan.of_resolve hx).2 with hfx | ⟨h1, -, -⟩
        · exact hwy (hw.exclusive x y p hfx hy ▸ hwx)
        · have := (hw.backed y p hy).2.1
          omega
      refine ⟨⟨⟨hwf, hw₂.header_le, hw₂.vsize_le, hw₂.start, fun x p hx => ?_, fun x y p hx hy => ?_⟩,
        (hs₁.2.trans hf₂).trans (frame_replace hout)⟩, fun x hx hx' => ?_⟩
      · by_cases hwin : lo ≤ x ∧ x < hi
        · have hp := hin x p hwin hx
          rcases (hplan.of_resolve hp).2 with hfx | ⟨h1, h2, -⟩
          · exact hw₂.backed x p (hold ▸ hfx)
          · obtain ⟨-, h3, h4⟩ := hdone x p hp
            refine ⟨hw.start.trans h1, ?_, h3.trans_eq hbytes₂.symm, h4.trans hp₂.1⟩
            change p < s₂.dataEndSector
            rw [hend₂, hst.rest]
            exact h2
        · exact hw₂.backed x p ((hout x hwin).symm.trans hx)
      · by_cases hwx : lo ≤ x ∧ x < hi <;> by_cases hwy : lo ≤ y ∧ y < hi
        · exact hinj x y p (hin x p hwx hx) (hin y p hwy hy)
        · exact absurd (hold ▸ (hout y hwy).symm.trans hy) (hcross x y p hwx hwy (hin x p hwx hx))
        · exact absurd (hold ▸ (hout x hwx).symm.trans hx) (hcross y x p hwy hwx (hin y p hwy hy))
        · exact hw₂.exclusive x y p ((hout x hwx).symm.trans hx) ((hout y hwy).symm.trans hy)
      · obtain ⟨p, hp, -⟩ := hplan.target hx hx'
        refine ⟨p, (hr x).trans ((if_pos ⟨hx, hx'⟩).trans hp), fun j hj => ?_⟩
        refine (hp₂.2.1 _ ?_).trans ((hdone x p hp).1 j hj)
        have hstart : kDataStartSector ≤ p := by
          rcases (hplan.of_resolve hp).2 with hfx | ⟨h1, -, -⟩
          · exact (hw.backed x p hfx).1
          · exact hw.start.trans h1
        simp only [kDataStartSector, kSpace, kAlignment] at *
        omega
    · obtain ⟨hw₂, hf₂⟩ := within_of_quiet lo hi h₂.2 hs₁.1
      exact ⟨h₂.1, hw₂, hs₁.2.trans hf₂⟩

/-! ### Whole operations -/

/-- Consecutive pieces from a sector to `hi`, each short enough for one record. -/
inductive Chopped (hi : ℕ) : ℕ → List (ℕ × ℕ) → Prop where
  | nil : Chopped hi hi []
  | cons {lo mid : ℕ} {l : List (ℕ × ℕ)} (hlt : lo < mid) (hlen : mid - lo ≤ kMaxLength) (rest : Chopped hi mid l) :
      Chopped hi lo ((lo, mid) :: l)

theorem Chopped.le {lo hi : ℕ} {l : List (ℕ × ℕ)} (h : Chopped hi lo l) : lo ≤ hi := by
  induction h with
  | nil => exact le_rfl
  | cons hlt _ _ ih => omega

theorem chopped_chopLoop (hi : ℕ) : ∀ n lo, lo ≤ hi → hi - lo ≤ n → Chopped hi lo (chopLoop n lo hi)
  | 0, lo, h1, h2 => by
    obtain rfl : lo = hi := by omega
    exact .nil
  | n + 1, lo, h1, h2 => by
    rw [chopLoop]
    by_cases h : hi ≤ lo
    · obtain rfl : lo = hi := by omega
      rw [if_pos h]
      exact .nil
    · have hk : 0 < kMaxLength := by decide
      rw [if_neg h]
      exact .cons (by omega) (by omega) (chopped_chopLoop hi n _ (by omega) (by omega))

theorem chopped_chop {lo hi : ℕ} (h : lo ≤ hi) : Chopped hi lo (chop lo hi) := chopped_chopLoop hi _ lo h le_rfl

/-- **`pwrite`**: on success the range holds the request; on every way out only the range may have moved. -/
theorem pwrite_spec {buf : Buf} {count offset : ℕ} {s : LsmtRw} (hw : Wf s) :
    wp (pwrite buf count offset)
      (fun r s' => r = count ∧ offset / kAlignment + count / kAlignment ≤ kMaxOffset ∧
        (Wf s' ∧ Frame (offset / kAlignment) (offset / kAlignment + count / kAlignment) s s') ∧
        ∀ x, offset / kAlignment ≤ x → x < offset / kAlignment + count / kAlignment →
          ∃ p, resolve s'.segments x = some (.data p) ∧ Holds s' buf offset x p)
      (fun e s' => 0 < e ∧ Wf s' ∧ Frame (offset / kAlignment) (offset / kAlignment + count / kAlignment) s s') s := by
  have hrefl : ∀ lo hi, Wf s ∧ Frame lo hi s s := fun lo hi => ⟨hw, Frame.refl lo hi s⟩
  unfold pwrite
  simp only [wp_bind, wp_gets, wp_refuse, id]
  refine ⟨fun _ => ⟨by simp [erofs], hrefl _ _⟩, fun _ => ⟨fun _ => ⟨by simp [einval], hrefl _ _⟩, fun hal =>
    ⟨fun _ => ⟨by simp [einval], hrefl _ _⟩, fun hsize => ?_⟩⟩⟩
  set lo := offset / kAlignment with hlo
  set hi := lo + count / kAlignment with hhi
  have hmax : hi ≤ kMaxOffset := by
    have := hw.vsize_le
    simp only [kAlignment] at *
    omega
  have hoff : offset = lo * kAlignment := by
    simp only [kAlignment] at *
    omega
  refine wp_mono (respects_prepareMutation s) (fun _ s₀ h₀ => ?_)
    fun e s₀ h₀ => ⟨h₀.1, within_of_quiet lo hi h₀.2 hw⟩
  have hs₀ := within_of_quiet lo hi h₀ hw
  rw [wp_bind]
  refine wp_mono (wp_each (fun rest s' => ∃ cur, Chopped hi cur rest ∧ lo ≤ cur ∧ (Wf s' ∧ Frame lo hi s s') ∧
      ∀ x, lo ≤ x → x < cur → ∃ p, resolve s'.segments x = some (.data p) ∧ Holds s' buf offset x p)
    (fun piece rest s' hI => ?_) _ ⟨lo, chopped_chop (Nat.le_add_right _ _), le_rfl, hs₀, fun x h1 h2 => absurd h2 (by omega)⟩)
    (fun _ s₁ h₁ => ?_) fun e s₁ h₁ => h₁
  · obtain ⟨cur, hchop, hcur, ⟨hw', hf'⟩, hdone⟩ := hI
    cases hchop with
    | @cons _ mid _ hlt hlen hrest =>
      have hle := hrest.le
      refine wp_mono (pwritePiece_spec hw' hlt hlen (hoff.le.trans (Nat.mul_le_mul_right _ hcur))) (fun _ s₂ h₂ => ?_)
        fun e s₂ h₂ => ⟨h₂.1, h₂.2.1, hf'.trans (h₂.2.2.mono hcur hle)⟩
      obtain ⟨⟨hw₂, hf₂⟩, hnew⟩ := h₂
      refine ⟨mid, hrest, by omega, ⟨hw₂, hf'.trans (hf₂.mono hcur hle)⟩, fun x hx1 hx2 => ?_⟩
      by_cases hx : cur ≤ x
      · exact hnew x hx hx2
      · -- earlier pieces are outside this one
        obtain ⟨p, hp, hh⟩ := hdone x hx1 (by omega)
        exact ⟨p, (hf₂.maps x (by omega)).trans hp,
          fun j hj => (hf₂.bytes x p (by omega) hp j hj).trans (hh j hj)⟩
  · obtain ⟨cur, hchop, -, ⟨hw₁, hf₁⟩, hdone⟩ := h₁
    cases hchop
    rw [wp_bind, wp_modify, wp_pure]
    refine ⟨rfl, hmax, ⟨⟨hw₁.index, hw₁.header_le, hw₁.vsize_le, hw₁.start, fun x p hx => ?_, hw₁.exclusive⟩,
      hf₁.maps, hf₁.bytes, hf₁.revision_le, hf₁.same⟩, hdone⟩
    obtain ⟨h1, h2, -, h4⟩ := hw₁.backed x p hx
    exact ⟨h1, h2, Nat.mul_le_mul_right _ h2, h4⟩

/-- The ZERO runs of consecutive pieces tile their range. -/
theorem zeroRuns_spec {lo hi : ℕ} {l : List (ℕ × ℕ)} (h : Chopped hi lo l) :
    IndexWf (l.map zeroRun) ∧ (∀ m ∈ l.map zeroRun, lo ≤ m.offset) ∧
      ∀ x, resolve (l.map zeroRun) x = if lo ≤ x ∧ x < hi then some .zero else none := by
  induction h with
  | nil =>
    refine ⟨indexWf_nil, fun m hm => ?_, fun x => (if_neg (by omega)).symm⟩
    exact nomatch hm
  | @cons lo mid l hlt hlen rest ih =>
    obtain ⟨hwf, hge, hr⟩ := ih
    have hle := rest.le
    have hc : ∀ x, Covers (zeroRun (lo, mid)) x ↔ lo ≤ x ∧ x < mid := by
      intro x
      simp only [covers_iff, zeroRun]
      omega
    refine ⟨⟨ordered_cons.mpr ⟨fun t ht => ?_, hwf.ordered⟩, fun m hm => ?_, fun m hm => ?_⟩, fun m hm => ?_, fun x => ?_⟩
    · have := hge t ht
      simp only [hi_eq, lo_eq, zeroRun]
      omega
    · rcases List.mem_cons.mp hm with rfl | hm
      · simp only [lo_eq, hi_eq, zeroRun]
        omega
      · exact hwf.proper m hm
    · rcases List.mem_cons.mp hm with rfl | hm
      · exact hlen
      · exact hwf.short m hm
    · rcases List.mem_cons.mp hm with rfl | hm
      · exact le_rfl
      · have := hge m hm
        omega
    · rw [List.map_cons]
      by_cases hx : Covers (zeroRun (lo, mid)) x
      · rw [resolve, lookup_cons_of_covers hx, if_pos (by have := (hc x).mp hx; omega)]
        rfl
      · rw [resolve, lookup_cons_of_not hx]
        have h1 := hr x
        rw [resolve] at h1
        rw [h1]
        have h2 : ¬ (lo ≤ x ∧ x < mid) := fun h => hx ((hc x).mpr h)
        exact if_congr (by omega) rfl rfl

/-- **`discard`**: on success the range is mapped to zeroes; on every way out only the range may have moved. -/
theorem discard_spec {offset len : ℕ} {s : LsmtRw} (hw : Wf s) :
    wp (discard offset len)
      (fun r s' => r = 0 ∧ offset / kAlignment + len / kAlignment ≤ kMaxOffset ∧
        (Wf s' ∧ Frame (offset / kAlignment) (offset / kAlignment + len / kAlignment) s s') ∧
        ∀ x, offset / kAlignment ≤ x → x < offset / kAlignment + len / kAlignment →
          resolve s'.segments x = some .zero)
      (fun e s' => 0 < e ∧ Wf s' ∧ Frame (offset / kAlignment) (offset / kAlignment + len / kAlignment) s s') s := by
  have hrefl : ∀ lo hi, Wf s ∧ Frame lo hi s s := fun lo hi => ⟨hw, Frame.refl lo hi s⟩
  unfold discard
  simp only [wp_bind, wp_gets, wp_refuse, id]
  refine ⟨fun _ => ⟨by simp [erofs], hrefl _ _⟩, fun _ => ⟨fun _ => ⟨by simp [einval], hrefl _ _⟩, fun hal =>
    ⟨fun _ => ⟨by simp [einval], hrefl _ _⟩, fun hsize => ?_⟩⟩⟩
  set lo := offset / kAlignment with hlo
  set hi := lo + len / kAlignment with hhi
  have hmax : hi ≤ kMaxOffset := by
    have := hw.vsize_le
    simp only [kAlignment] at *
    omega
  refine wp_mono (respects_prepareMutation s) (fun _ s₀ h₀ => ?_)
    fun e s₀ h₀ => ⟨h₀.1, within_of_quiet lo hi h₀.2 hw⟩
  obtain ⟨hw₀, hf₀⟩ := within_of_quiet lo hi h₀ hw
  have hpub : Respects quiet (publishZeros lo (chop lo hi)) :=
    respects_each (fun _ => respects_journal (FilePair.respects_append _) _) _
  simp only [wp_bind, wp_gets, id]
  refine wp_mono (hpub s₀) (fun _ s₁ h₁ => ?_) fun e s₁ h₁ => ?_
  · rw [wp_bind, wp_modify, wp_pure]
    obtain ⟨hw₁, hf₁⟩ := within_of_quiet lo hi h₁ hw₀
    have hsegs : s₁.segments = s₀.segments := h₁.2.1
    obtain ⟨hzwf, -, hzero⟩ := zeroRuns_spec (chopped_chop (Nat.le_add_right lo (len / kAlignment)))
    obtain ⟨hwf, hr⟩ := replaceRuns_spec hw₀.index hzwf (Nat.le_add_right lo (len / kAlignment)) fun x => by
      rw [hzero x]
      split_ifs with h <;> simp [h]
    have hout : ∀ x, ¬ (lo ≤ x ∧ x < hi) →
        resolve (((chop lo hi).map zeroRun).foldl insertSorted (eraseRange lo hi s₀.segments)) x =
          resolve s₁.segments x := fun x hx => by
      rw [hr x, if_neg hx, hsegs]
    have hin : ∀ x, lo ≤ x ∧ x < hi →
        resolve (((chop lo hi).map zeroRun).foldl insertSorted (eraseRange lo hi s₀.segments)) x = some .zero :=
      fun x hx => by rw [hr x, if_pos hx, hzero x, if_pos hx]
    -- DATA survives only outside the range
    have hdata : ∀ x p,
        resolve (((chop lo hi).map zeroRun).foldl insertSorted (eraseRange lo hi s₀.segments)) x = some (.data p) →
        resolve s₁.segments x = some (.data p) := by
      intro x p hx
      by_cases hwin : lo ≤ x ∧ x < hi
      · rw [hin x hwin] at hx
        cases hx
      · exact (hout x hwin).symm.trans hx
    refine ⟨rfl, hmax, ⟨⟨hwf, hw₁.header_le, hw₁.vsize_le, hw₁.start, fun x p hx => hw₁.backed x p (hdata x p hx),
      fun x y p hx hy => hw₁.exclusive x y p (hdata x p hx) (hdata y p hy)⟩, ?_⟩, fun x hx hx' => hin x ⟨hx, hx'⟩⟩
    exact (hf₀.trans hf₁).trans (frame_replace hout)
  · obtain ⟨hw₁, hf₁⟩ := within_of_quiet lo hi h₁.2 hw₀
    exact ⟨h₁.1, hw₁, hf₀.trans hf₁⟩

/-- **`flush`** moves nothing. -/
theorem flush_spec {s : LsmtRw} (hw : Wf s) :
    wp flush (fun r s' => r = 0 ∧ Wf s' ∧ Frame 0 0 s s' ∧ s'.segments = s.segments)
      (fun e s' => 0 < e ∧ Wf s' ∧ Frame 0 0 s s' ∧ s'.segments = s.segments) s := by
  unfold flush
  simp only [wp_bind, wp_gets, wp_refuse, id]
  refine ⟨fun _ => ⟨by simp [eio], hw, Frame.refl 0 0 s, trivial⟩, fun _ => ?_⟩
  have hq : Respects quiet (onPair (if s.sealed = false then FilePair.flush else FilePair.sys Disk.call)) :=
    respects_onPair (Respects.ite FilePair.respects_flush FilePair.respects_call)
  refine wp_mono (hq s) (fun _ s' h => ?_) fun e s' h => ?_
  · exact ⟨rfl, (within_of_quiet 0 0 h hw).1, (within_of_quiet 0 0 h hw).2, h.2.1⟩
  · exact ⟨h.1, (within_of_quiet 0 0 h.2 hw).1, (within_of_quiet 0 0 h.2 hw).2, h.2.2.1⟩

/-- Adopting the outcome of a grow moves nothing. -/
theorem adoptGrow_quiet {s : LsmtRw} (hw : Wf s) :
    (Wf s.adoptGrow ∧ Frame 0 0 s s.adoptGrow) ∧ s.adoptGrow.segments = s.segments := by
  unfold adoptGrow
  split_ifs
  · exact ⟨within_of_payload (s := s) 0 0 (FilePair.payload.refl _) rfl rfl rfl rfl Wf.header_le hw, rfl⟩
  · exact ⟨within_of_payload (s := s) 0 0 (FilePair.payload.refl _) rfl rfl rfl rfl Wf.vsize_le hw, rfl⟩
  · exact ⟨⟨hw, Frame.refl 0 0 s⟩, rfl⟩

/-- **`grow`** moves nothing. -/
theorem grow_spec {vsize : ℕ} {s : LsmtRw} (hw : Wf s) :
    wp (grow vsize) (fun r s' => r = 0 ∧ Wf s' ∧ Frame 0 0 s s' ∧ s'.segments = s.segments)
      (fun e s' => 0 < e ∧ Wf s' ∧ Frame 0 0 s s' ∧ s'.segments = s.segments) s := by
  have hrefl : Wf s ∧ Frame 0 0 s s ∧ True := ⟨hw, Frame.refl 0 0 s, trivial⟩
  unfold grow
  simp only [wp_bind, wp_gets, wp_refuse, wp_onError, id]
  refine ⟨fun _ => ⟨by simp [erofs], hrefl⟩, fun _ => ⟨fun _ => ⟨by simp [eio], hrefl⟩, fun _ => ?_⟩⟩
  have hadopt : ∀ s', quiet.rel s s' →
      Wf s'.adoptGrow ∧ Frame 0 0 s s'.adoptGrow ∧ s'.adoptGrow.segments = s.segments := by
    intro s' h
    obtain ⟨hw', hf'⟩ := within_of_quiet 0 0 h hw
    obtain ⟨⟨hw'', hf''⟩, hsegs⟩ := adoptGrow_quiet hw'
    exact ⟨hw'', hf'.trans hf'', hsegs.trans h.2.1⟩
  exact wp_mono (respects_onPair (FilePair.respects_grow vsize) s) (fun _ s' h => ⟨rfl, hadopt s' h⟩)
    fun e s' h => ⟨h.1, hadopt s' h.2⟩

end LsmtRw

end OverlayBD
