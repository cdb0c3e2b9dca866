import OverlayBD.Format.LsmtRecovery

/-!
# A host crash after a flush

Between two flushes neither file is synced, and nothing orders what reaches the disk: after a crash the index may hold
records whose payload is lost.  `open_sync` replays every record it finds against the payload it finds, and refuses the
whole pair when one of them points past the end.

* `Mutation`, `Later` — a flush and what was issued after it, with the number of records that are durable at each point.
* `Survivor` — what a crash may leave.
* `Later.kept` — what no later operation covers is as it was, in the map, in the payload and in the log.
* `flush_crash_iff` — a survivor opens with the flushed state if and only if the payload of every surviving record
  survived and the payload does not end like a sealed layer.
-/

namespace OverlayBD

open Intervals SegmentMapping Bytes Errno Effect FilePair

namespace LsmtRw

/-! ### Operations after a flush -/

/-- A write or a discard. -/
inductive Mutation where
  | pwrite (buf : Buf) (count offset : ℕ)
  | discard (offset len : ℕ)

namespace Mutation

/-- The operation of the layer. -/
def op : Mutation → Op
  | .pwrite buf count offset => .pwrite buf count offset
  | .discard offset len => .discard offset len

def offset : Mutation → ℕ
  | .pwrite _ _ offset => offset
  | .discard offset _ => offset

def count : Mutation → ℕ
  | .pwrite _ count _ => count
  | .discard _ len => len

/-- It was issued for this sector. -/
def Touches (m : Mutation) (x : ℕ) : Prop :=
  m.offset / kAlignment ≤ x ∧ x < m.offset / kAlignment + m.count / kAlignment

end Mutation

/-- The records of the index file that are durable after a mutation: those that were, or, if the log was compacted, all
that the new file was created with. -/
def Durable (m : Mutation) (s : LsmtRw) (k k' : ℕ) : Prop :=
  (Admits s m.offset m.count ∧ s.prepared.pair.disk.index ≠ s.pair.disk.index ∧
      k' = completeRecords s.prepared.pair.disk.index.size) ∨
    (¬ (Admits s m.offset m.count ∧ s.prepared.pair.disk.index ≠ s.pair.disk.index) ∧ k' = k)

/-- **Mutations after a flush** that returned in state `flushed`, newest first, with the states in between. -/
inductive Later (flushed : LsmtRw) : List Mutation → List (LsmtRw × ℕ) → Prop where
  | flush : Later flushed [] [(flushed, completeRecords flushed.pair.disk.index.size)]
  | call {ms : List Mutation} {s : LsmtRw} {k k' : ℕ} {trace : List (LsmtRw × ℕ)} (h : Later flushed ms ((s, k) :: trace))
      (m : Mutation) (hk : Durable m s k k') :
      Later flushed (m :: ms) (((m.op.run s).2, k') :: (s, k) :: trace)

/-- **What a host crash may leave**: everything the flush synced, with any later byte in its place, and any bytes behind
it; of some index file of the trace the durable records and any number of further ones, perhaps with part of one
more. -/
structure Survivor (flushed : LsmtRw) (trace : List (LsmtRw × ℕ)) (d : Disk) : Prop where
  size_ge : flushed.data.size ≤ d.data.size
  size_le : ∃ t ∈ trace, d.data.size ≤ t.1.data.size
  bytes : ∀ i < flushed.data.size, ∃ t ∈ trace, d.data.byte i = t.1.data.byte i
  index : ∃ t ∈ trace, ∃ j, t.2 ≤ j ∧ j ≤ completeRecords t.1.pair.disk.index.size ∧
    kSpace + 16 * j ≤ d.index.size ∧ d.index.size < kSpace + 16 * (j + 1) ∧
    ∀ i < kSpace + 16 * j, d.index.byte i = t.1.pair.disk.index.byte i
  intent : d.growIntent = none

/-! ### What mutations leave alone -/

end LsmtRw

namespace FilePair

/-- The header, and that no grow is under way. -/
def volume : Guarantee FilePair where
  rel p p' := p'.header = p.header ∧ p'.growthPending = p.growthPending
  refl _ := ⟨rfl, rfl⟩
  trans h h' := ⟨h'.1.trans h.1, h'.2.trans h.2⟩

theorem volume_call : Respects volume (sys Disk.call) :=
  fun p => wp_sys_call (volume.refl p) fun _ he => ⟨he, volume.refl p⟩

theorem volume_write (a : Artifact) (off n : ℕ) (src : Buf) : Respects volume (sys (Disk.write a off n src)) := by
  intro p
  rw [sys, wp_zoom]
  unfold wp Disk.write
  cases p.disk.faults p.disk.tick with
  | none =>
    by_cases hk : kMaxFileSize < off + n
    · simp only [if_pos hk]
      exact ⟨by simp [efbig], volume.refl p⟩
    · simp only [if_neg hk]
      exact volume.refl p
  | some f => exact ⟨f.pos, volume.refl p⟩

theorem volume_append (m : SegmentMapping) : Respects volume (append m) := by
  refine (respects_gets _).bind fun p => (respects_refuse (by simp [eio])).bind fun _ => ?_
  refine (respects_refuse (by simp [efbig])).bind fun _ => (respects_refuse (by simp [efbig])).bind fun _ => ?_
  refine Respects.bind (Respects.onError (volume_write _ _ _ _) fun p => volume.refl p) fun _ => ?_
  exact respects_modify fun p => volume.refl p

theorem volume_compactSync (live : List SegmentMapping) : Respects volume (compactSync live) := by
  refine (respects_gets _).bind fun p => (respects_refuse (by simp [eio])).bind fun _ => ?_
  refine (respects_refuse (by simp [efbig])).bind fun _ => volume_call.bind fun _ => ?_
  refine respects_need_bind (by simp [einval]) fun replay _ => ?_
  refine respects_need_bind (by simp [einval]) fun replayed _ => volume_call.bind fun _ => ?_
  refine respects_need_bind (by simp [einval]) fun region _ => ?_
  refine volume_call.bind fun _ => volume_call.bind fun _ => ?_
  exact Respects.bind (respects_modify fun p => volume.refl p) fun _ => volume_call

end FilePair

namespace LsmtRw

/-- The header of the layer's pair. -/
def onVolume : Guarantee LsmtRw where
  rel s s' := FilePair.volume.rel s.pair s'.pair
  refl s := FilePair.volume.refl s.pair
  trans := FilePair.volume.trans

theorem onVolume_onPair {α : Type} {m : Eff FilePair α} (h : Respects FilePair.volume m) : Respects onVolume (onPair m) :=
  h.zoom fun _ _ hp => hp

theorem onVolume_prepareMutation : Respects onVolume prepareMutation :=
  (respects_gets _).bind fun _ => (respects_refuse (by simp [eio])).bind fun _ =>
    Respects.onlyIf (onVolume_onPair (volume_compactSync _))

theorem onVolume_publishOps (ops : List WriteOp) (published : Bool) : Respects onVolume (publishOps ops published) := by
  induction ops generalizing published with
  | nil => exact respects_pure ()
  | cons op ops ih =>
    rw [publishOps]
    refine Respects.ite (ih published) ?_
    exact Respects.bind ((onVolume_onPair (volume_append _)).onError fun s => ⟨rfl, rfl⟩) fun _ => ih true

theorem onVolume_pwritePiece (buf : Buf) (offset lo hi : ℕ) : Respects onVolume (pwritePiece buf offset lo hi) := by
  refine (respects_gets _).bind fun s => Respects.bind (respects_modify fun _ => ⟨rfl, rfl⟩) fun _ => ?_
  refine Respects.bind (respects_each (fun op => ?_) _) fun _ => Respects.ite (respects_pure ()) ?_
  · exact (onVolume_onPair (volume_write _ _ _ _)).bind fun _ => respects_modify fun _ => ⟨rfl, rfl⟩
  · exact (onVolume_publishOps _ _).bind fun _ => respects_modify fun _ => ⟨rfl, rfl⟩

/-- **Mutations keep the header.** -/
theorem Mutation.onVolume (m : Mutation) : Respects onVolume m.op.run := by
  cases m with
  | pwrite buf count offset =>
    refine (respects_gets _).bind fun s => (respects_refuse (by simp [erofs])).bind fun _ => ?_
    refine (respects_refuse (by simp [einval])).bind fun _ => (respects_refuse (by simp [einval])).bind fun _ => ?_
    refine onVolume_prepareMutation.bind fun _ => ?_
    refine Respects.bind (respects_each (fun piece : ℕ × ℕ => onVolume_pwritePiece _ _ piece.1 piece.2) _) fun _ => ?_
    exact Respects.bind (respects_modify fun _ => ⟨rfl, rfl⟩) fun _ => respects_pure _
  | discard offset len =>
    refine (respects_gets _).bind fun s => (respects_refuse (by simp [erofs])).bind fun _ => ?_
    refine (respects_refuse (by simp [einval])).bind fun _ => (respects_refuse (by simp [einval])).bind fun _ => ?_
    refine onVolume_prepareMutation.bind fun _ => (respects_gets _).bind fun s => ?_
    refine Respects.bind (respects_each (fun piece => ?_) _) fun _ => ?_
    · exact (onVolume_onPair (volume_append _)).onError fun _ => ⟨rfl, rfl⟩
    · exact Respects.bind (respects_modify fun _ => ⟨rfl, rfl⟩) fun _ => respects_pure _

variable {s : LsmtRw}

/-- A layer that refuses mutations refuses them before the log is touched. -/
theorem prepared_of_failed (h : s.journalFailed = true) : s.prepared = s := by
  refine state_of_wp (P := fun s' : LsmtRw => s' = s) ?_
  unfold prepareMutation
  rw [wp_bind, wp_gets, id_eq, wp_bind, wp_refuse_of h]

/-- Preparation changes the pair only. -/
theorem prepared_journalFailed (s : LsmtRw) : s.prepared.journalFailed = s.journalFailed := by
  refine state_of_wp (P := fun s' : LsmtRw => s'.journalFailed = s.journalFailed) ?_
  unfold prepareMutation
  rw [wp_bind, wp_gets, wp_bind, wp_refuse]
  refine ⟨fun _ => rfl, fun _ => ?_⟩
  rw [wp_onlyIf, onPair, wp_zoom]
  exact ⟨fun _ => wp_mono wp_trivial (fun _ _ _ => rfl) fun _ _ _ => rfl, fun _ => rfl⟩

theorem prepared_segments (s : LsmtRw) : s.prepared.segments = s.segments :=
  state_of_wp (P := fun s' : LsmtRw => s'.segments = s.segments)
    (wp_mono (respects_prepareMutation s) (fun _ _ h => h.2.1) fun _ _ h => h.2.2.1)

variable {records : List SegmentMapping}

/-- **One mutation**, whatever comes of it. -/
theorem Mutation.spec (h : LogInv s records) (hw : Wf s) (m : Mutation) : (Wf (m.op.run s).2 ∧
      Frame (m.offset / kAlignment) (m.offset / kAlignment + m.count / kAlignment) s (m.op.run s).2) ∧
    Mutated PairInv m.offset m.count s (m.op.run s).2 ∧ LsmtRw.onVolume.rel s (m.op.run s).2 := by
  have hvol : LsmtRw.onVolume.rel s (m.op.run s).2 :=
    state_of_wp (P := fun s' : LsmtRw => LsmtRw.onVolume.rel s s')
      (wp_mono (m.onVolume s) (fun _ _ h => h) fun _ _ h => h.2)
  cases m with
  | pwrite buf count offset =>
    have hspec : wp (LsmtRw.pwrite buf count offset) _ _ s := pwrite_spec hw
    have hrun := wp_and hspec (pwrite_logged logRules h hw)
    have := state_of_wp (P := fun s' : LsmtRw => (Wf s' ∧
      Frame (offset / kAlignment) (offset / kAlignment + count / kAlignment) s s') ∧ Mutated PairInv offset count s s')
      (wp_mono hrun (fun _ _ h' => ⟨h'.1.2.2.1, h'.2.2⟩) fun _ _ h' => ⟨h'.1.2, h'.2⟩)
    exact ⟨this.1, this.2, hvol⟩
  | discard offset len =>
    have hspec : wp (LsmtRw.discard offset len) _ _ s := discard_spec hw
    have hrun := wp_and hspec (discard_logged logRules h hw)
    have := state_of_wp (P := fun s' : LsmtRw => (Wf s' ∧
      Frame (offset / kAlignment) (offset / kAlignment + len / kAlignment) s s') ∧ Mutated PairInv offset len s s')
      (wp_mono hrun (fun _ _ h' => ⟨h'.1.2.2.1, h'.2.2⟩) fun _ _ h' => ⟨h'.1.2, h'.2⟩)
    exact ⟨this.1, this.2, hvol⟩

/-! ### The log after a flush -/

/-- The log is what the index file holds. -/
theorem MapInv.log_eq (h : LogInv s records) :
    completeRecords s.pair.disk.index.size = records.length ∧
      Replay.recordsOf s.pair.disk.index records.length = records := by
  have hbody : ∃ sectors, Body s.pair.disk sectors records := by
    cases h.pair with
    | logged h => exact ⟨_, h.onDisk.toBody⟩
    | suspended h =>
      rcases h.onDisk with h | ⟨header, v, h⟩
      · exact ⟨_, h.toBody⟩
      · exact ⟨_, h.toBody⟩
    | broken h _ _ => exact ⟨_, h.toBody⟩
  obtain ⟨sectors, hb⟩ := hbody
  have h1 := hb.index_ge
  have h2 := hb.index_lt
  refine ⟨?_, hb.log⟩
  unfold completeRecords
  omega

/-- Without a grow the directory of a layer holds its header and its log. -/
theorem MapInv.onDisk (h : LogInv s records)
    (hg : s.pair.growthPending = false) : LogOn s.pair.disk s.pair.header records := by
  cases h.pair with
  | logged h => exact h.onDisk
  | suspended h => exact nomatch h.pending.symm.trans hg
  | broken h _ _ => exact h

/-- No mutation of the list was issued for the sector. -/
def Untouched (ms : List Mutation) (x : ℕ) : Prop := ∀ m ∈ ms, ¬ m.Touches x

/-- **A point of the trace**: sectors without mutations are as the flush left them, in the map, in the payload and in
every log that may survive. -/
structure Kept (flushed : LsmtRw) (ms : List Mutation) (t : LsmtRw × ℕ) : Prop where
  wf : Wf t.1
  volume : FilePair.volume.rel flushed.pair t.1.pair
  maps : ∀ x, Untouched ms x → resolve t.1.segments x = resolve flushed.segments x
  bytes : ∀ x p, Untouched ms x → resolve flushed.segments x = some (.data p) →
    ∀ j < kAlignment, t.1.data.byte (p * kAlignment + j) = flushed.data.byte (p * kAlignment + j)
  log : ∃ records, LogInv t.1 records ∧ t.2 ≤ records.length ∧
    ∀ x, Untouched ms x → ∀ j, t.2 ≤ j → logMap (records.take j) x = resolve flushed.segments x

variable {flushed : LsmtRw} {ms : List Mutation}

theorem Kept.mono {t : LsmtRw × ℕ} (h : Kept flushed ms t) (m : Mutation) :
    Kept flushed (m :: ms) t := by
  have hmem : ∀ {x}, Untouched (m :: ms) x → Untouched ms x := fun hx a ha => hx a (List.mem_cons_of_mem m ha)
  obtain ⟨records, hinv, hle, hlog⟩ := h.log
  exact ⟨h.wf, h.volume, fun x hx => h.maps x (hmem hx), fun x p hx => h.bytes x p (hmem hx),
    records, hinv, hle, fun x hx => hlog x (hmem hx)⟩

/-- **One more mutation.** -/
theorem Kept.step {k k' : ℕ} (h : Kept flushed ms (s, k)) (m : Mutation)
    (hk : Durable m s k k') : Kept flushed (m :: ms) ((m.op.run s).2, k') := by
  obtain ⟨records, hinv, hle, hlog⟩ := h.log
  obtain ⟨⟨hw', hframe⟩, hmut, hvol⟩ := m.spec hinv h.wf
  have hout : ∀ {x}, Untouched (m :: ms) x →
      ¬ (m.offset / kAlignment ≤ x ∧ x < m.offset / kAlignment + m.count / kAlignment) :=
    fun hx => hx m List.mem_cons_self
  have hold : ∀ {x}, Untouched (m :: ms) x → Untouched ms x := fun hx a ha => hx a (List.mem_cons_of_mem m ha)
  have hmaps : ∀ x, Untouched (m :: ms) x → resolve (m.op.run s).2.segments x = resolve flushed.segments x :=
    fun x hx => (hframe.maps x (hout hx)).trans (h.maps x (hold hx))
  refine ⟨hw', FilePair.volume.trans h.volume hvol, hmaps, fun x p hx hp j hj => ?_, ?_⟩
  · have hs : resolve s.segments x = some (.data p) := (h.maps x (hold hx)).trans hp
    exact (hframe.bytes x p (hout hx) hs j hj).trans (h.bytes x p (hold hx) hp j hj)
  rcases hmut with ⟨hn, heq⟩ | ⟨ha, base, new, hbase, hconf, hinv'⟩
  · -- refused at once
    obtain rfl : k' = k := by
      rcases hk with ⟨hadm, -⟩ | ⟨-, rfl⟩
      · exact absurd hadm hn
      · rfl
    rw [heq]
    exact ⟨records, hinv, hle, fun x hx => hlog x (hold hx)⟩
  -- the durable records are part of the prepared log, and from there on the map is that of the flush
  have hprep : k' ≤ base.length ∧ ∀ x, Untouched (m :: ms) x → ∀ j, k' ≤ j →
      logMap (base.take j) x = resolve flushed.segments x := by
    by_cases hsame : s.prepared.pair.disk.index = s.pair.disk.index
    · obtain rfl : k' = k := by
        rcases hk with ⟨-, hne, -⟩ | ⟨-, rfl⟩
        · exact absurd hsame hne
        · rfl
      have hrec : base = records := by
        have h1 := hbase.log_eq
        have h2 := hinv.log_eq
        rw [hsame] at h1
        rw [← h1.2, ← h2.2, ← h1.1, ← h2.1]
      rw [hrec]
      exact ⟨hle, fun x hx => hlog x (hold hx)⟩
    · -- compacted: the whole file is durable
      obtain rfl : k' = base.length := by
        rcases hk with ⟨-, -, rfl⟩ | ⟨hn, -⟩
        · exact hbase.log_eq.1
        · exact absurd ⟨ha, hsame⟩ hn
      have hj : s.journalFailed = false := by
        refine Bool.eq_false_of_not_eq_true fun hj => hsame ?_
        rw [prepared_of_failed hj]
      refine ⟨le_rfl, fun x hx j hle' => ?_⟩
      rw [List.take_of_length_le hle', ← hbase.map (.inl (s.prepared_journalFailed.trans hj)) x, prepared_segments]
      exact h.maps x (hold hx)
  refine ⟨base ++ new, hinv', hprep.1.trans (by rw [List.length_append]; exact Nat.le_add_right _ _), fun x hx j hj => ?_⟩
  rw [List.take_append]
  have hnew : Confined (m.offset / kAlignment) (m.offset / kAlignment + m.count / kAlignment)
      (new.take (j - base.length)) := fun a ha => hconf a (List.mem_of_mem_take ha)
  rw [hnew.logMap _ (hout hx)]
  exact hprep.2 x hx j hj

/-- **Every point after a flush.** -/
theorem Later.kept {r : ℤ} {trace : List (LsmtRw × ℕ)} (hs : History s)
    (hf : LsmtRw.flush s = (.ok r, flushed)) (h : Later flushed ms trace) : ∀ t ∈ trace, Kept flushed ms t := by
  induction h with
  | flush =>
    obtain ⟨hw, records, hinv⟩ := hs.inv
    obtain ⟨-, hseg, -, -, hj, hinv'⟩ := ok_of_wp (flush_logged logRules hinv) hf
    have hw' : Wf flushed := (ok_of_wp (flush_spec hw) hf).2.1
    intro t ht
    rw [List.mem_singleton.mp ht]
    refine ⟨hw', FilePair.volume.refl _, fun _ _ => rfl, fun _ _ _ _ _ _ => rfl, records, hinv', ?_, fun x _ j hle => ?_⟩
    · exact hinv'.log_eq.1.le
    · rw [List.take_of_length_le (hinv'.log_eq.1.symm.le.trans hle)]
      exact (hinv'.map (.inl hj) x).symm
  | call h m hk ih =>
    intro t ht
    rcases List.mem_cons.mp ht with rfl | ht
    · exact (ih _ List.mem_cons_self).step m hk
    · exact (ih t ht).mono m

/-! ### Opening a survivor -/

section Survivor

variable {s flushed : LsmtRw} {r : ℤ} {ms : List Mutation} {trace : List (LsmtRw × ℕ)} {d : Disk}

/-- The flushed sectors of a pair that was opened again. -/
def ReadsAs (flushed : LsmtRw) (ms : List Mutation) (p : FilePair) : Prop :=
  ∀ x, Untouched ms x → resolve p.mappings x = resolve flushed.segments x ∧
    ∀ q, resolve flushed.segments x = some (.data q) →
      ∀ j < kAlignment, p.disk.data.byte (q * kAlignment + j) = flushed.data.byte (q * kAlignment + j)

/-- Every surviving DATA record has its payload. -/
def PayloadSurvived (d : Disk) : Prop :=
  ∀ m ∈ Replay.recordsOf d.index (completeRecords d.index.size), m.zeroed = false →
    m.moffset + m.length ≤ d.data.size / kAlignment

/-- **What is left of a log** behind the headers of the flush; the payload of its records may be gone. -/
structure Remnant (flushed : LsmtRw) (ms : List Mutation) (d : Disk) (records : List SegmentMapping) : Prop where
  valid : PairHeader flushed.pair.header
  dataRegion : flushed.pair.header.serialize = some (d.data.read 0 kSpace)
  indexRegion : (indexHeader flushed.pair.header).serialize = some (d.index.read 0 kSpace)
  intent : d.growIntent = none
  data_ge : kSpace ≤ d.data.size
  data_lt : d.data.size / kAlignment < kMaxMoffset
  index_ge : kSpace + 16 * records.length ≤ d.index.size
  index_lt : d.index.size < kSpace + 16 * (records.length + 1)
  log : Replay.recordsOf d.index records.length = records
  /-- The records replay against some payload. -/
  replays : ∃ n, Replay.Replays (flushed.pair.header.virtualSize / kAlignment) n records
  distinct : Replay.Distinct records
  maps : ∀ x, Untouched ms x → logMap records x = resolve flushed.segments x

/-- The directory of every point holds the header of the flush. -/
theorem Later.logOn (hs : History s) (hf : LsmtRw.flush s = (.ok r, flushed)) (hl : Later flushed ms trace)
    {t : LsmtRw × ℕ} (ht : t ∈ trace) {records : List SegmentMapping} (hinv : LogInv t.1 records) :
    LogOn t.1.pair.disk flushed.pair.header records := by
  have hkept := hl.kept hs hf t ht
  obtain ⟨-, _, hinv₀⟩ := hs.inv
  obtain ⟨-, -, -, -, hj, hinv'⟩ := ok_of_wp (flush_logged logRules hinv₀) hf
  have hon := hinv.onDisk (hkept.volume.2.trans (hinv'.led logRules hj).settled)
  rwa [hkept.volume.1] at hon

/-- The flush is the first point of its trace. -/
theorem Later.flushed_mem (hl : Later flushed ms trace) :
    (flushed, completeRecords flushed.pair.disk.index.size) ∈ trace := by
  induction hl with
  | flush => exact List.mem_singleton_self _
  | call _ _ _ ih => exact List.mem_cons_of_mem _ ih

/-- **The log of a survivor.** -/
theorem Survivor.remnant (hs : History s) (hf : LsmtRw.flush s = (.ok r, flushed)) (hl : Later flushed ms trace)
    (h : Survivor flushed trace d) : ∃ records, Remnant flushed ms d records := by
  have hkept := hl.kept hs hf
  -- the flush itself, and the state that bounds the payload
  obtain ⟨-, records₀, hinv₀⟩ := hs.inv
  have hon₀ := hl.logOn hs hf hl.flushed_mem (ok_of_wp (flush_logged logRules hinv₀) hf).2.2.2.2.2
  have hlt : d.data.size / kAlignment < kMaxMoffset := by
    obtain ⟨t, ht, hle⟩ := h.size_le
    obtain ⟨records, hinv, -⟩ := (hkept t ht).log
    exact (Nat.div_le_div_right hle).trans_lt (hl.logOn hs hf ht hinv).data_lt
  -- the header of the data file is the same at every point
  have hheader : d.data.read 0 kSpace = flushed.data.read 0 kSpace := by
    refine File.read_congr fun i hi => ?_
    have hge₀ : kSpace ≤ flushed.data.size := hon₀.data_ge
    obtain ⟨t, ht, hb⟩ := h.bytes (0 + i) (by omega)
    obtain ⟨records, hinv, -⟩ := (hkept t ht).log
    have hread := Option.some.inj ((hl.logOn hs hf ht hinv).dataRegion.symm.trans hon₀.dataRegion)
    exact hb.trans (File.byte_of_read hread hi)
  -- the index file is one of the trace, cut somewhere
  obtain ⟨t, ht, j, hj, hjle, hge, hlt', hbytes⟩ := h.index
  obtain ⟨records, hinv, -, hmap⟩ := (hkept t ht).log
  have hon := hl.logOn hs hf ht hinv
  rw [hinv.log_eq.1] at hjle
  have hlen : (records.take j).length = j := List.length_take_of_le hjle
  refine ⟨records.take j, hon.valid, ?_, ?_, h.intent, hon₀.data_ge.trans h.size_ge, hlt, ?_, ?_, ?_,
    ⟨_, hon.replays.take j⟩, hon.distinct.take j, fun x hx => hmap x hx j hj⟩
  · rw [hheader]
    exact hon₀.dataRegion
  · rw [hon.indexRegion]
    exact congrArg some (File.read_congr fun i hi => (hbytes _ (by omega)).symm)
  · rw [hlen]
    exact hge
  · rw [hlen]
    exact hlt'
  · rw [hlen, ← hon.log, ← recordsOf_take _ hjle]
    refine List.map_congr_left fun i hi => ?_
    have := List.mem_range.mp hi
    exact congrArg loadSegmentLe (File.read_congr fun b hb => hbytes _ (by omega))

section Remnant

variable {records : List SegmentMapping}

theorem Remnant.count (h : Remnant flushed ms d records) : completeRecords d.index.size = records.length := by
  have h1 := h.index_ge
  have h2 := h.index_lt
  unfold completeRecords
  omega

/-- **With its payload the log is complete.** -/
theorem Remnant.logOn (h : Remnant flushed ms d records) (hp : PayloadSurvived d) :
    LogOn d flushed.pair.header records := by
  obtain ⟨n, hr⟩ := h.replays
  rw [PayloadSurvived, h.count, h.log] at hp
  refine ⟨⟨h.data_ge, h.data_lt, h.log, h.index_ge, h.index_lt, ⟨fun m hm => ?_, hr.count, hr.live⟩, h.distinct⟩,
    h.valid, h.dataRegion, h.indexRegion, h.intent⟩
  have hw := hr.within m hm
  exact ⟨hw.length_pos, hw.length_le, hw.stop_le, fun hz => ⟨(hw.backed hz).1, hp m hm hz⟩⟩

/-- **A pair that opens has the payload of its records.** -/
theorem Remnant.of_open (h : Remnant flushed ms d records) {p : FilePair} (ho : openSync d = .ok p) :
    PayloadSurvived d ∧ sealedTrailer d.data = false := by
  have hparse := HeaderTrailer.parse_serialize h.valid.fits h.dataRegion
  have htrailer : sealedTrailer d.data = false := by
    refine Bool.eq_false_of_not_eq_true fun htrue => ?_
    cases ho.symm.trans (openSync_of_sealedTrailer h.data_ge hparse htrue)
  refine ⟨fun m hm hz => ?_, htrailer⟩
  rw [h.count, h.log] at hm
  obtain ⟨n, hr⟩ := h.replays
  have hge : kSpace ≤ d.data.size / kAlignment * kAlignment := by
    have := h.data_ge
    simp only [kSpace, kAlignment] at *
    omega
  have hsize : d.data.size / kAlignment * kAlignment / kAlignment = d.data.size / kAlignment :=
    Nat.mul_div_cancel _ (by decide)
  have hcomplete : completeIndex d.index.size = kSpace + 16 * records.length := by
    have h1 := h.index_ge
    have h2 := h.index_lt
    unfold completeIndex
    omega
  have hvalid : validatePair flushed.pair.header (indexHeader flushed.pair.header) (d.data.size / kAlignment * kAlignment)
      (completeIndex d.index.size) = some records.length := by
    rw [hcomplete]
    exact h.valid.validatePair_eq records.length hge (Nat.mul_mod_left _ _) (hsize.symm ▸ h.data_lt) hr.count
  cases hload : Replay.load flushed.pair.header.virtualSize (d.data.size / kAlignment * kAlignment) d.index records.length with
  | none =>
    have := openSync_of_not_loaded h.data_ge hparse h.valid.not_isSealed htrailer ((Nat.le_add_right _ _).trans h.index_ge)
      h.intent (HeaderTrailer.parse_serialize h.valid.fits_index h.indexRegion) hvalid hload
    cases ho.symm.trans this
  | some live =>
    have hin := hr.within m hm
    have hoff : m.offset ≠ kInvalidOffset := by
      have h1 := hin.stop_le.trans h.valid.capacity_le
      have h2 := hin.length_pos
      have h3 : kMaxOffset ≤ kInvalidOffset := by decide
      simp only [stop] at h1
      omega
    have hw := Replay.within_of_load hload m (h.log.symm ▸ hm) hoff
    rw [hsize] at hw
    exact (hw.backed hz).2

end Remnant

/-- **A flush survives a crash** exactly when the crash is kind to what came after it.  A layer was flushed and then
written and discarded, whatever came of it; a host crash left the directory `d`.  Opening it succeeds, and every sector
without a later operation resolves and reads as when the flush returned, if and only if no DATA record survived without
its payload and the payload does not end like a sealed layer. -/
theorem flush_crash_iff (hs : History s) (hf : LsmtRw.flush s = (.ok r, flushed)) (hl : Later flushed ms trace)
    (h : Survivor flushed trace d) :
    (∃ p, openSync d = .ok p ∧ ReadsAs flushed ms p) ↔ PayloadSurvived d ∧ sealedTrailer d.data = false := by
  obtain ⟨records, hrem⟩ := h.remnant hs hf hl
  refine ⟨fun ⟨p, ho, _⟩ => hrem.of_open ho, fun ⟨hp, htrailer⟩ => ?_⟩
  have hlog := hrem.logOn hp
  refine ⟨_, openSync_of_log hlog htrailer, fun x hx => ⟨?_, fun q hq j hj => ?_⟩⟩
  · exact ((Replay.liveOf_spec hlog.replays.lengths).2 x).trans (hrem.maps x hx)
  · -- the payload of the flush is in front of every cut, and at every point the same
    have hwf : Wf flushed := (hl.kept hs hf _ hl.flushed_mem).wf
    have hin : (q + 1) * kAlignment ≤ flushed.data.size := (hwf.backed x q hq).2.2.2
    have hlt : q * kAlignment + j < flushed.data.size := by
      rw [Nat.add_mul, Nat.one_mul] at hin
      omega
    have hround : d.data.size ≤ (d.data.size + kAlignment - 1) / kAlignment * kAlignment := by
      simp only [kAlignment]
      omega
    obtain ⟨t, ht, hb⟩ := h.bytes _ hlt
    refine (if_pos ((hlt.trans_le h.size_ge).trans_le hround)).trans (hb.trans ?_)
    exact (hl.kept hs hf t ht).bytes x q hx hq j hj

end Survivor

/-! ### A write behind a flush -/

/-- A flush of a new layer. -/
theorem flush_blank {s : LsmtRw} (h : Blank s) :
    wp flush (fun r s' => r = 0 ∧ Blank s' ∧ s'.vsize = s.vsize ∧ s'.data = s.data) (fun _ _ => False) s := by
  unfold flush
  rw [wp_bind, wp_gets, id_eq, wp_bind, wp_refuse_of_not (by simp [h.admitting]), wp_bind, if_pos h.admitting.1, onPair,
    wp_zoom]
  unfold FilePair.flush
  rw [wp_bind, wp_gets, id_eq, wp_bind, wp_refuse_of_not (by simp [h.healthy]), wp_bind]
  refine wp_sys_call_ok (h.faults _) ?_
  rw [wp_bind]
  refine wp_sys_call_ok (h.faults _) (wp_sys_call_ok (h.faults _) ?_)
  exact ⟨rfl, ⟨h.faults, h.healthy, h.indexBytes, h.liveRanges, h.segments, h.dataEndSector, h.admitting⟩, rfl, rfl⟩

/-- A run of two steps: a new layer is flushed, and then written. -/
theorem exists_written : ∃ s flushed s' k, History s ∧ LsmtRw.flush s = (.ok 0, flushed) ∧
    pwrite (fun _ => 0) 4096 0 flushed = (.ok 4096, s') ∧ flushed.data.size = kSpace ∧
    Later flushed [.pwrite (fun _ => 0) 4096 0] [(s', k), (flushed, k)] := by
  obtain ⟨s, hcreate, hblank, hv, hsize⟩ := exists_blank
  have hflush := flush_blank hblank
  rcases hr : flush s with ⟨e | r, flushed⟩
  · unfold wp at hflush
    rw [hr] at hflush
    exact hflush.elim
  obtain ⟨rfl, hblank', hv', hdata⟩ := ok_of_wp hflush hr
  have hrun := first_write hblank' (fun _ => 0) (by rw [hv', hv]; decide)
  rcases hw : pwrite (fun _ => 0) 4096 0 flushed with ⟨e | r, s'⟩
  · unfold wp at hrun
    rw [hw] at hrun
    exact hrun.elim
  obtain ⟨rfl, -⟩ := ok_of_wp hrun hw
  refine ⟨s, flushed, s', completeRecords flushed.pair.disk.index.size, .create hcreate, hr, hw, hdata ▸ hsize, ?_⟩
  have hlater : Later flushed _ _ := Later.flush.call (.pwrite (fun _ => 0) 4096 0) (.inr ⟨fun hc => hc.2 ?_, rfl⟩)
  · have hstate : (Op.run (.pwrite (fun _ => 0) 4096 0) flushed).2 = s' := congrArg Prod.snd hw
    exact hstate ▸ hlater
  · rw [prepared, prepareMutation_blank hblank']

/-- The directory after a crash that keeps every record of `s` and loses the growth of the data file since `flushed`. -/
def shortened (flushed s : LsmtRw) : Disk := { s.pair.disk with data := flushed.data }

/-- **A record without its payload** locks the pair: create, flush, one write of 4096 bytes; the crash keeps the record of
that write and loses the growth of the data file.  No operation was issued for the sectors behind it, and they are not
readable either. -/
theorem flush_lost : ∃ s flushed s' k, History s ∧ LsmtRw.flush s = (.ok 0, flushed) ∧
    pwrite (fun _ => 0) 4096 0 flushed = (.ok 4096, s') ∧
    Later flushed [.pwrite (fun _ => 0) 4096 0] [(s', k), (flushed, k)] ∧
    Survivor flushed [(s', k), (flushed, k)] (shortened flushed s') ∧
    ∀ p, openSync (shortened flushed s') ≠ .ok p := by
  obtain ⟨s, flushed, s', k, hs, hf, hw, hsize, hlater⟩ := exists_written
  have hkept := hlater.kept hs hf (s', k) List.mem_cons_self
  obtain ⟨records, hinv, hle, -⟩ := hkept.log
  have hon := hlater.logOn hs hf List.mem_cons_self hinv
  have hflushed : (flushed, k) ∈ [(s', k), (flushed, k)] := List.mem_cons_of_mem _ (List.mem_singleton_self _)
  have hsurvivor : Survivor flushed [(s', k), (flushed, k)] (shortened flushed s') :=
    ⟨le_rfl, ⟨_, hflushed, le_rfl⟩, fun i _ => ⟨_, hflushed, rfl⟩,
      ⟨_, List.mem_cons_self, records.length, hle, hinv.log_eq.1.ge, hon.index_ge, hon.index_lt, fun _ _ => rfl⟩, hon.intent⟩
  refine ⟨s, flushed, s', k, hs, hf, hw, hlater, hsurvivor, fun p ho => ?_⟩
  obtain ⟨_, hrem⟩ := hsurvivor.remnant hs hf hlater
  have hpay := (hrem.of_open ho).1
  -- the first sector is mapped to payload, and there is none
  have hw₀ : Wf flushed := (hlater.kept hs hf _ hflushed).wf
  obtain ⟨-, records₀, hinv₀⟩ := hs.inv
  have hinv₁ := (ok_of_wp (flush_logged logRules hinv₀) hf).2.2.2.2.2
  have hj : s'.journalFailed = false := (ok_of_wp (pwrite_logged logRules hinv₁ hw₀) hw).1
  obtain ⟨q, hq, -⟩ := (ok_of_wp (pwrite_spec hw₀) hw).2.2.2 0 (by decide) (by decide)
  obtain ⟨m, hm, -, hplace⟩ := Replay.exists_record_of_logMap ((hinv.map (.inl hj) 0).symm.trans hq)
  have hz : m.zeroed = false := by
    cases hz : m.zeroed
    · rfl
    · simp [place, hz] at hplace
  have hmem : m ∈ Replay.recordsOf (shortened flushed s').index (completeRecords (shortened flushed s').index.size) := by
    show m ∈ Replay.recordsOf s'.pair.disk.index (completeRecords s'.pair.disk.index.size)
    rw [hinv.log_eq.1, hinv.log_eq.2]
    exact hm
  have hend : m.moffset + m.length ≤ flushed.data.size / kAlignment := hpay m hmem hz
  have hin := hon.replays.within m hm
  have hstart := (hin.backed hz).1
  have hpos := hin.length_pos
  rw [hsize] at hend
  simp only [kSpace, kAlignment, kDataStartSector] at hend hstart
  omega

/-- The crash that loses the record as well: the flushed state is back. -/
theorem flush_kept : ∃ s flushed s' k p, History s ∧ LsmtRw.flush s = (.ok 0, flushed) ∧
    pwrite (fun _ => 0) 4096 0 flushed = (.ok 4096, s') ∧
    Later flushed [.pwrite (fun _ => 0) 4096 0] [(s', k), (flushed, k)] ∧
    Survivor flushed [(s', k), (flushed, k)] flushed.pair.disk ∧ openSync flushed.pair.disk = .ok p ∧
    ReadsAs flushed [.pwrite (fun _ => 0) 4096 0] p := by
  obtain ⟨s, flushed, s', k, hs, hf, hw, hsize, hlater⟩ := exists_written
  have hflushed : (flushed, k) ∈ [(s', k), (flushed, k)] := List.mem_cons_of_mem _ (List.mem_singleton_self _)
  obtain ⟨records, hinv, hle, -⟩ := (hlater.kept hs hf _ hflushed).log
  have hon := hlater.logOn hs hf hflushed hinv
  have hsurvivor : Survivor flushed [(s', k), (flushed, k)] flushed.pair.disk :=
    ⟨le_rfl, ⟨_, hflushed, le_rfl⟩, fun i _ => ⟨_, hflushed, rfl⟩,
      ⟨_, hflushed, records.length, hle, hinv.log_eq.1.ge, hon.index_ge, hon.index_lt, fun _ _ => rfl⟩, hon.intent⟩
  have hpay : PayloadSurvived flushed.pair.disk := by
    intro m hm hz
    rw [hinv.log_eq.1, hinv.log_eq.2] at hm
    exact ((hon.replays.within m hm).backed hz).2
  have hshort : sealedTrailer flushed.data = false := by
    rw [sealedTrailer, hsize, if_pos (by decide)]
  obtain ⟨p, hp, hreads⟩ := (flush_crash_iff hs hf hlater hsurvivor).mpr ⟨hpay, hshort⟩
  exact ⟨s, flushed, s', k, p, hs, hf, hw, hlater, hsurvivor, hp, hreads⟩

end LsmtRw

end OverlayBD
