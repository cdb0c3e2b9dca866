import OverlayBD.Format.LsmtFlushCrash

/-!
# What requests for other sectors leave of a sector

Map, payload and log of a layer move with every request: a plan reuses payload, a publication may stop half-way, a long
log is compacted, a grow is rolled forward by the next open.  A sector notices nothing of this until a request is issued
for it.

* `Elsewhere x` — runs without a request for sector `x`, with any outcomes, and with flushes, grows and openings.
* `Stays` — the sector is as it was, in the map, in the payload and in the log.
* `request_survives` — what a successful request put into a sector stays there along every such run.
-/

namespace OverlayBD

open Intervals SegmentMapping Bytes Effect FilePair

namespace LsmtRw

/-- A run from `s` without a request for sector `x`. -/
inductive Elsewhere (x : ℕ) (s : LsmtRw) : LsmtRw → Prop where
  | start : Elsewhere x s s
  | request {t : LsmtRw} (h : Elsewhere x s t) {m : Mutation} (hm : ¬ m.Touches x) : Elsewhere x s (m.op.run t).2
  | flush {t : LsmtRw} (h : Elsewhere x s t) : Elsewhere x s (LsmtRw.flush t).2
  | grow {t : LsmtRw} (h : Elsewhere x s t) (vsize : ℕ) : Elsewhere x s (LsmtRw.grow vsize t).2
  | reopen {t : LsmtRw} (h : Elsewhere x s t) {faults : ℕ → Option Fault} {p : FilePair}
      (ho : openSync (rebooted t.pair.disk faults) = .ok p) : Elsewhere x s (fromPair p)

/-- Sector `x` of `t` is as in `s`; the log says so even where the map is no longer published. -/
structure Stays (x : ℕ) (s t : LsmtRw) : Prop where
  wf : Wf t
  maps : resolve t.segments x = resolve s.segments x
  bytes : ∀ p, resolve s.segments x = some (.data p) →
    ∀ j < kAlignment, t.data.byte (p * kAlignment + j) = s.data.byte (p * kAlignment + j)
  log : ∃ records, LogInv t records ∧ logMap records x = resolve s.segments x

variable {x : ℕ} {s t t' : LsmtRw}

/-- A change that leaves the sector alone, in the log too. -/
theorem Stays.frame (h : Stays x s t) {lo hi : ℕ} (hf : Frame lo hi t t') (hx : ¬ (lo ≤ x ∧ x < hi)) (hw : Wf t')
    (hlog : ∃ records, LogInv t' records ∧ logMap records x = resolve s.segments x) : Stays x s t' where
  wf := hw
  maps := (hf.maps x hx).trans h.maps
  bytes p hp j hj := (hf.bytes x p hx (h.maps.trans hp) j hj).trans (h.bytes p hp j hj)
  log := hlog

theorem Stays.request (h : Stays x s t) {m : Mutation} (hm : ¬ m.Touches x) : Stays x s (m.op.run t).2 := by
  obtain ⟨records, hinv, hlog⟩ := h.log
  obtain ⟨⟨hw, hframe⟩, hmut, -⟩ := m.spec hinv h.wf
  refine h.frame hframe hm hw ?_
  rcases hmut with ⟨-, heq⟩ | ⟨-, base, new, hbase, hconf, hinv'⟩
  · rw [heq]
    exact ⟨records, hinv, hlog⟩
  refine ⟨base ++ new, hinv', (hconf.logMap base hm).trans ?_⟩
  cases hj : t.journalFailed with
  | false =>
    -- a prepared log denotes the map, compacted or not
    rw [← hbase.map (.inl (t.prepared_journalFailed.trans hj)) x, prepared_segments]
    exact h.maps
  | true =>
    -- a failed layer leaves its log alone
    rw [prepared_of_failed hj] at hbase
    have hrec : base = records := by
      rw [← hbase.log_eq.2, ← hinv.log_eq.2, ← hbase.log_eq.1, ← hinv.log_eq.1]
    exact hrec ▸ hlog

/-- An operation that moves no sector. -/
theorem Stays.still (h : Stays x s t) {m : Eff LsmtRw ℤ} (hm : ∀ records, LogInv t records →
    wp m (fun _ t' => Wf t' ∧ Frame 0 0 t t' ∧ LogInv t' records) (fun _ t' => Wf t' ∧ Frame 0 0 t t' ∧ LogInv t' records) t) :
    Stays x s (m t).2 := by
  obtain ⟨records, hinv, hlog⟩ := h.log
  obtain ⟨hw, hframe, hinv'⟩ := state_of_wp (P := fun t' : LsmtRw => Wf t' ∧ Frame 0 0 t t' ∧ LogInv t' records)
    (hm records hinv)
  exact h.frame hframe (by omega) hw ⟨records, hinv', hlog⟩

theorem Stays.flush (h : Stays x s t) : Stays x s (LsmtRw.flush t).2 :=
  h.still fun _ hinv => wp_mono (wp_and (flush_spec h.wf) (flush_logged logRules hinv))
    (fun _ _ h' => ⟨h'.1.2.1, h'.1.2.2.1, h'.2.2.2.2.2.2⟩) fun _ _ h' => ⟨h'.1.2.1, h'.1.2.2.1, h'.2⟩

theorem Stays.grow (h : Stays x s t) (vsize : ℕ) : Stays x s (LsmtRw.grow vsize t).2 :=
  h.still fun _ hinv => wp_mono (wp_and (grow_spec h.wf) (grow_logged logRules hinv))
    (fun _ _ h' => ⟨h'.1.2.1, h'.1.2.2.1, h'.2.2⟩) fun _ _ h' => ⟨h'.1.2.1, h'.1.2.2.1, h'.2⟩

theorem Stays.reopen (h : Stays x s t) {faults : ℕ → Option Fault} {p : FilePair}
    (ho : openSync (rebooted t.pair.disk faults) = .ok p) : Stays x s (fromPair p) := by
  obtain ⟨records, hinv, hlog⟩ := h.log
  obtain ⟨header, hopens⟩ := opens_reopen hinv ho
  have hinv' := logInv_of_opens hopens hinv.small
  refine ⟨wf_fromPair (opened_of_openSync ho), (hinv'.map (.inl rfl) x).trans hlog, fun q hq j hj => ?_,
    records, hinv', hlog⟩
  have hbehind : kSpace ≤ q * kAlignment + j := by
    have := (h.wf.backed x q (h.maps.trans hq)).1
    simp only [kDataStartSector, kSpace, kAlignment] at *
    omega
  exact (hopens.bytes _ hbehind).trans (h.bytes q hq j hj)

theorem Elsewhere.stays (h : Elsewhere x s t) (h₀ : Stays x s s) : Stays x s t := by
  induction h with
  | start => exact h₀
  | request _ hm ih => exact ih.request hm
  | flush _ ih => exact ih.flush
  | grow _ vsize ih => exact ih.grow vsize
  | reopen _ ho ih => exact ih.reopen ho

/-- What a request is for, in a sector of its range. -/
def Mutation.Shown (s : LsmtRw) (x : ℕ) : Mutation → Prop
  | .pwrite buf _ offset => ∃ p, resolve s.segments x = some (.data p) ∧ Holds s buf offset x p
  | .discard _ _ => resolve s.segments x = some .zero

/-- A request that succeeded shows. -/
theorem Mutation.shown_of_ok (hw : Wf s) {m : Mutation} {r : ℤ} (hok : m.op.run s = (.ok r, t)) (hx : m.Touches x) :
    m.Shown t x := by
  cases m with
  | pwrite buf count offset => exact (ok_of_wp (pwrite_spec hw) hok).2.2.2 x hx.1 hx.2
  | discard offset len => exact (ok_of_wp (discard_spec hw) hok).2.2.2 x hx.1 hx.2

/-- **A successful request survives.**  Whatever happened to the layer before, and whatever the requests for other
sectors, the flushes, grows and openings after it meet: the sector keeps what the request put there. -/
theorem request_survives {m : Mutation} {r : ℤ} (h : History s) (hok : m.op.run s = (.ok r, t)) (hx : m.Touches x)
    (hrun : Elsewhere x t t') : m.Shown t' x := by
  obtain ⟨hw, records, hinv⟩ := h.inv
  obtain ⟨⟨hw', records', hinv'⟩, hj⟩ := ok_of_wp (Op.inv logRules hinv hw m.op) hok
  have hstays := hrun.stays ⟨hw', rfl, fun _ _ _ _ => rfl, records', hinv', (hinv'.map (.inl hj) x).symm⟩
  have hshown := m.shown_of_ok hw hok hx
  cases m with
  | pwrite buf count offset =>
    obtain ⟨p, hp, hholds⟩ := hshown
    exact ⟨p, hstays.maps.trans hp, fun j hj => (hstays.bytes p hp j hj).trans (hholds j hj)⟩
  | discard offset len => exact hstays.maps.trans hshown

/-- A first write, behind it a discard of other sectors and a grow. -/
theorem request_survives_grown : ∃ s t t', History s ∧ (Mutation.pwrite (fun _ => 0) 4096 0).op.run s = (.ok 4096, t) ∧
    t' = (LsmtRw.grow (2 ^ 21) (LsmtRw.discard 4096 4096 t).2).2 ∧ (Mutation.pwrite (fun _ => 0) 4096 0).Shown t' 7 := by
  obtain ⟨s, flushed, t, k, hs, hf, hw, -, -⟩ := exists_written
  have hflushed : History flushed := by
    have hcall := hs.call .flush
    rwa [show Op.flush.run s = (.ok 0, flushed) from hf] at hcall
  have hother : ¬ (Mutation.discard 4096 4096).Touches 7 := by
    rintro ⟨hge, -⟩
    exact absurd hge (by decide)
  exact ⟨flushed, t, _, hflushed, hw, rfl,
    request_survives hflushed hw ⟨by decide, by decide⟩ ((Elsewhere.start.request hother).grow (2 ^ 21))⟩

end LsmtRw

end OverlayBD
