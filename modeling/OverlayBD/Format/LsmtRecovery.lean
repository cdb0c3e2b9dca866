import OverlayBD.Format.LsmtRwJournal

/-!
# Recovery of an LSMT writable layer

Opening a pair whose index lost its end finds the map that the surviving records denote.  One thing stands in the way:
`open_sync` looks for a sealed trailer in the last 4096 bytes of the data file, and on an unsealed layer these bytes are
the guest's.

* `Op`, `History`, `Journal` — runs of a layer: operations with any outcome, and operations that succeed.
* `History.inv` — the invariants of every state of such a run.
* `recovery_iff` — recovery succeeds, with the right map, if and only if the payload does not end like a sealed layer.
-/

namespace OverlayBD

open Intervals SegmentMapping Bytes Errno Effect FilePair

namespace LsmtRw

/-! ### Runs -/

/-- An operation of the layer; compaction is part of the mutations. -/
inductive Op where
  | pwrite (buf : Buf) (count offset : ℕ)
  | discard (offset len : ℕ)
  | flush
  | grow (vsize : ℕ)

/-- What an operation does. -/
def Op.run : Op → Eff LsmtRw ℤ
  | .pwrite buf count offset => LsmtRw.pwrite buf count offset
  | .discard offset len => LsmtRw.discard offset len
  | .flush => LsmtRw.flush
  | .grow vsize => LsmtRw.grow vsize

/-- **A layer that was created and used**, whatever its operations met, and perhaps opened again. -/
inductive History : LsmtRw → Prop where
  | create {vsize : ℕ} {uuid : List UInt8} {faults : ℕ → Option Fault} {s : LsmtRw}
      (h : LsmtRw.create vsize uuid faults = .ok s) : History s
  | call {s : LsmtRw} (h : History s) (op : Op) : History (op.run s).2
  | reopen {s : LsmtRw} (h : History s) {faults : ℕ → Option Fault} {p : FilePair}
      (ho : openSync (rebooted s.pair.disk faults) = .ok p) : History (fromPair p)

/-- **A layer whose operations all succeeded.** -/
inductive Journal : LsmtRw → Prop where
  | create {vsize : ℕ} {uuid : List UInt8} {faults : ℕ → Option Fault} {s : LsmtRw}
      (h : LsmtRw.create vsize uuid faults = .ok s) : Journal s
  | call {s s' : LsmtRw} (h : Journal s) {op : Op} {r : ℤ} (hr : op.run s = (.ok r, s')) : Journal s'
  | reopen {s : LsmtRw} (h : Journal s) {faults : ℕ → Option Fault} {p : FilePair}
      (ho : openSync (rebooted s.pair.disk faults) = .ok p) : Journal (fromPair p)

/-- **One operation** keeps the invariants; if it succeeds, the layer still admits operations. -/
theorem Op.inv {Led Inv : FilePair → List SegmentMapping → Prop} (J : LogRules Led Inv) {s : LsmtRw}
    {records : List SegmentMapping} (h : MapInv Inv s records) (hw : Wf s) (op : Op) :
    wp op.run (fun _ s' => (Wf s' ∧ ∃ records', MapInv Inv s' records') ∧ s'.journalFailed = false)
      (fun _ s' => Wf s' ∧ ∃ records', MapInv Inv s' records') s := by
  have hmut : ∀ {offset count : ℕ} {s' : LsmtRw}, Mutated Inv offset count s s' → ∃ records', MapInv Inv s' records' := by
    rintro offset count s' (⟨-, rfl⟩ | ⟨-, base, new, -, -, hinv⟩)
    · exact ⟨records, h⟩
    · exact ⟨base ++ new, hinv⟩
  cases op with
  | pwrite buf count offset =>
    exact wp_mono (wp_and (pwrite_spec hw) (pwrite_logged J h hw))
      (fun _ _ h' => ⟨⟨h'.1.2.2.1.1, hmut h'.2.2⟩, h'.2.1⟩) fun _ _ h' => ⟨h'.1.2.1, hmut h'.2⟩
  | discard offset len =>
    exact wp_mono (wp_and (discard_spec hw) (discard_logged J h hw))
      (fun _ _ h' => ⟨⟨h'.1.2.2.1.1, hmut h'.2.2⟩, h'.2.1⟩) fun _ _ h' => ⟨h'.1.2.1, hmut h'.2⟩
  | flush =>
    exact wp_mono (wp_and (flush_spec hw) (flush_logged J h))
      (fun _ _ h' => ⟨⟨h'.1.2.1, records, h'.2.2.2.2.2.2⟩, h'.2.2.2.2.2.1⟩) fun _ _ h' => ⟨h'.1.2.1, records, h'.2⟩
  | grow v =>
    exact wp_mono (wp_and (grow_spec hw) (grow_logged J h))
      (fun _ _ h' => ⟨⟨h'.1.2.1, records, h'.2.2⟩, h'.2.1⟩) fun _ _ h' => ⟨h'.1.2.1, records, h'.2⟩

/-- **Every state of a run.** -/
theorem History.inv {s : LsmtRw} (h : History s) : Wf s ∧ ∃ records, LogInv s records := by
  induction h with
  | create h =>
    obtain ⟨hinv, hw⟩ := logInv_create h
    exact ⟨hw, [], hinv⟩
  | call _ op ih =>
    obtain ⟨hw, records, hinv⟩ := ih
    exact state_of_wp (wp_mono (Op.inv logRules hinv hw op) (fun _ _ h' => h'.1) fun _ _ h' => h')
  | reopen _ ho ih =>
    obtain ⟨-, records, hinv⟩ := ih
    obtain ⟨hinv', hw⟩ := logInv_reopen hinv ho
    exact ⟨hw, records, hinv'⟩

/-- A run that succeeds is a run. -/
theorem Journal.history {s : LsmtRw} (h : Journal s) : History s := by
  induction h with
  | create h => exact .create h
  | @call s s' _ op r hr ih =>
    have := ih.call op
    rwa [hr] at this
  | reopen _ ho ih => exact ih.reopen ho

/-- A layer whose operations all succeeded is usable. -/
theorem Journal.usable {s : LsmtRw} (h : Journal s) : s.journalFailed = false := by
  induction h with
  | create h =>
    unfold LsmtRw.create at h
    cases hp : createSync _ _ _ with
    | error e =>
      rw [hp] at h
      exact nomatch h
    | ok p =>
      rw [hp] at h
      obtain rfl := Except.ok.inj h
      rfl
  | call h' hr ih =>
    obtain ⟨hw, records, hinv⟩ := h'.history.inv
    exact (ok_of_wp (Op.inv logRules hinv hw _) hr).2
  | reopen => rfl

/-! ### Recovery -/

/-- The records of the index file, the first `k` of them. -/
def logOf (s : LsmtRw) (k : ℕ) : List SegmentMapping := Replay.recordsOf s.pair.disk.index k

/-- The number of complete records in `n` bytes of an index file. -/
def completeRecords (n : ℕ) : ℕ := (n - kSpace) / 16

/-- The files of a layer, the index cut after `n` bytes. -/
def cut (s : LsmtRw) (n : ℕ) (faults : ℕ → Option Fault) : Disk :=
  rebooted { s.pair.disk with index := s.pair.disk.index.truncate n } faults

/-- **Recovery.**  A layer whose operations all succeeded, its index cut anywhere behind the header: opening it succeeds
and resolves every sector as the records that are complete do, and so as any layer with just these records did, if and
only if the data file does not end like a sealed layer.  With no cut these are the records of the live map. -/
theorem recovery_iff {s : LsmtRw} (hs : Journal s) (faults : ℕ → Option Fault) {n : ℕ} (hn : kSpace ≤ n)
    (hle : n ≤ s.pair.disk.index.size) :
    ((∃ p, openSync (cut s n faults) = .ok p ∧
        (∀ x, resolve p.mappings x = logMap (logOf s (completeRecords n)) x) ∧
        ∀ t, Journal t → logOf t (completeRecords t.pair.disk.index.size) = logOf s (completeRecords n) →
          ∀ x, resolve p.mappings x = resolve t.segments x) ↔
      sealedTrailer s.data = false) ∧
    ∀ x, resolve s.segments x = logMap (logOf s (completeRecords s.pair.disk.index.size)) x := by
  -- what a usable layer has on disk
  have hlive : ∀ t, Journal t → ∃ records, LogOn t.pair.disk t.pair.header records ∧
      logOf t (completeRecords t.pair.disk.index.size) = records ∧ (∀ x, resolve t.segments x = logMap records x) := by
    intro t ht
    obtain ⟨-, records, hinv⟩ := ht.history.inv
    have hlog := hinv.led logRules ht.usable
    have hcount : completeRecords t.pair.disk.index.size = records.length := by
      have := hlog.indexSize
      unfold completeRecords
      omega
    exact ⟨records, hlog.onDisk, by rw [hcount]; exact hlog.onDisk.log, hinv.map (.inl ht.usable)⟩
  obtain ⟨records, hdisk, hall, hmap⟩ := hlive s hs
  have hlt := hdisk.index_lt
  have htake : logOf s (completeRecords n) = records.take (completeRecords n) := by
    have hk : completeRecords n ≤ records.length := by
      unfold completeRecords
      omega
    rw [logOf, recordsOf_take _ hk, hdisk.log]
  have hcut := hdisk.cut hn hle
  have hcut' : LogOn (cut s n faults) s.pair.header (records.take (completeRecords n)) :=
    ⟨hcut.toBody.front rfl rfl fun _ _ => rfl, hcut.valid, hcut.dataRegion, hcut.indexRegion, hcut.intent⟩
  refine ⟨⟨fun hopen => ?_, fun hseal => ?_⟩, fun x => by rw [hall]; exact hmap x⟩
  · -- a payload that ends like a sealed layer is refused
    obtain ⟨p, hp, -⟩ := hopen
    refine Bool.eq_false_of_not_eq_true fun htrue => ?_
    have := openSync_of_sealedTrailer hcut'.data_ge (HeaderTrailer.parse_serialize hcut'.valid.fits hcut'.dataRegion) htrue
    exact nomatch hp.symm.trans this
  · have hres : ∀ x, resolve (Replay.liveOf (records.take (completeRecords n))) x = logMap (logOf s (completeRecords n)) x := by
      rw [htake]
      exact (Replay.liveOf_spec hcut'.replays.lengths).2
    refine ⟨_, openSync_of_log hcut' hseal, hres, fun t ht heq x => ?_⟩
    obtain ⟨records', -, hall', hmap'⟩ := hlive t ht
    rw [hmap' x, ← hall', heq]
    exact hres x

/-! ### First writes -/

/-- A layer without mappings that meets no faults. -/
structure Blank (s : LsmtRw) : Prop where
  faults : ∀ n, s.pair.disk.faults n = none
  healthy : s.pair.poisoned = false
  indexBytes : s.pair.indexBytes = kSpace
  liveRanges : s.pair.liveRanges = []
  segments : s.segments = []
  dataEndSector : s.dataEndSector = 8
  admitting : s.sealed = false ∧ s.checkpointed = false ∧ s.journalFailed = false

/-- The first record of a log is published. -/
theorem append_first {p : FilePair} (hf : ∀ n, p.disk.faults n = none) (hp : p.poisoned = false)
    (hi : p.indexBytes = kSpace) (hr : p.liveRanges = []) {m : SegmentMapping} :
    wp (FilePair.append m) (fun _ p' => p'.disk.data = p.disk.data) (fun _ _ => False) p := by
  have hlen : (replaceRange p.liveRanges m).length = 1 := by
    rw [hr]
    rfl
  have hsmall : kSpace + (storeSegmentLe m).length ≤ kMaxFileSize := by
    rw [length_storeSegmentLe]
    decide
  unfold FilePair.append
  rw [wp_bind, wp_gets, id_eq, hp, hi, hlen, wp_bind, wp_refuse_of_not (by decide), wp_bind, wp_refuse_of_not (by decide),
    wp_bind, wp_refuse_of_not (by decide), wp_bind, wp_onError, writeBytes, wp_sys_write (hf _) hsmall, wp_modify]
  rfl

/-- The first eight sectors. -/
theorem first_piece {s : LsmtRw} (h : Blank s) (buf : Buf) :
    wp (pwritePiece buf 0 0 8) (fun _ s' => s'.data = s.data.write kSpace kSpace fun i => buf i) (fun _ _ => False) s := by
  have hplan : planOps 0 8 (s.segments.dropWhile fun m => decide (m.stop ≤ 0)) 0 s.dataEndSector
      = ([⟨0, 8, 8, false⟩], 16) := by
    rw [h.segments, h.dataEndSector, List.dropWhile_nil, planOps, if_pos (by decide)]
  unfold pwritePiece
  simp only [wp_bind, wp_gets, wp_modify, id, hplan, each, wp_pure, writeOp, onPair, wp_zoom]
  rw [wp_sys_write (h.faults _) (by decide), if_neg (by decide), wp_bind, publishOps, if_neg Bool.false_ne_true,
    wp_bind, wp_onError, onPair, wp_zoom]
  refine wp_mono (append_first ?_ ?_ ?_ ?_) (fun _ p' hp' => ?_) fun _ _ he => he
  · exact h.faults
  · exact h.healthy
  · exact h.indexBytes
  · exact h.liveRanges
  · rw [publishOps, wp_pure, wp_modify]
    refine hp'.trans ?_
    simp only [Nat.zero_mul, Nat.zero_add, Nat.sub_zero]
    rfl

/-- A short log is not compacted. -/
theorem prepareMutation_blank {s : LsmtRw} (h : Blank s) : prepareMutation s = (.ok (), s) := by
  refine eq_ok_of_wp ?_
  unfold prepareMutation
  rw [wp_bind, wp_gets, wp_bind, wp_refuse_of_not (by simp [h.admitting]), wp_onlyIf]
  refine ⟨fun hc => absurd hc ?_, fun _ => ⟨rfl, rfl⟩⟩
  rw [id_eq, h.segments, h.indexBytes]
  decide

/-- **The first 4096 bytes** go behind the header. -/
theorem first_write {s : LsmtRw} (h : Blank s) (buf : Buf) (hv : 4096 ≤ s.vsize) :
    wp (pwrite buf 4096 0) (fun r s' => r = 4096 ∧ s'.data = s.data.write kSpace kSpace fun i => buf i)
      (fun _ _ => False) s := by
  have hchop : chop (0 / kAlignment) (0 / kAlignment + 4096 / kAlignment) = [(0, 8)] := by decide
  unfold pwrite
  rw [hchop, wp_bind, wp_gets, wp_bind, wp_refuse_of_not (by simp [h.admitting]), wp_bind, wp_refuse_of_not (by decide),
    wp_bind, wp_refuse_of_not (by rw [id_eq]; omega), wp_bind, wp_of_eq (prepareMutation_blank h), wp_bind,
    each, wp_bind]
  refine wp_mono (first_piece h buf) (fun _ s' hs' => ?_) fun _ _ he => he
  rw [each, wp_pure, wp_bind, wp_modify, wp_pure]
  exact ⟨rfl, hs'⟩

/-- The trailer of a sealed layer without mappings. -/
def emptyTrailer : HeaderTrailer := { flags := 6, indexOffset := kSpace }

theorem fits_emptyTrailer : emptyTrailer.Fits :=
  ⟨rfl, by decide, by decide, by decide, by decide, ⟨by decide, by decide⟩, ⟨by decide, by decide⟩, by decide, by decide,
    by decide, ⟨by decide, by decide⟩⟩

/-- A payload that is such a trailer. -/
theorem sealedTrailer_of_payload {f : File} {trailer : List UInt8} (ht : emptyTrailer.serialize = some trailer)
    (hsize : f.size = 2 * kSpace) (hread : f.read kSpace kSpace = trailer) : sealedTrailer f = true := by
  have hfront : f.size - kSpace = kSpace := by omega
  unfold sealedTrailer
  rw [if_neg (by omega), hfront, hread, HeaderTrailer.parse_serialize fits_emptyTrailer ht]
  rfl

/-- A new layer, created with no faults to come. -/
theorem exists_blank : ∃ s, create (2 ^ 20) nilUuid (fun _ => none) = .ok s ∧ Blank s ∧ s.vsize = 2 ^ 20 ∧
    s.data.size = kSpace := by
  obtain ⟨data, index, hdata, -, -, hcreate⟩ := createSync_ok (show validUuid nilUuid = true by decide)
    (show 2 ^ 20 ≠ 0 by decide) (by decide) (by decide) fun _ => none
  refine ⟨fromPair (created (2 ^ 20) nilUuid data index fun _ => none), ?_, ?_, rfl, ?_⟩
  · rw [create, hcreate]
    rfl
  · exact ⟨fun _ => rfl, rfl, rfl, rfl, rfl, by show kSpace / kAlignment = 8; decide, rfl, rfl, rfl⟩
  · exact size_region hdata

/-- **A guest that writes a trailer** locks its layer: create, one write of 4096 bytes, and the pair does not open. -/
theorem recovery_refused : ∃ s₀ s buf, create (2 ^ 20) nilUuid (fun _ => none) = .ok s₀ ∧
    pwrite buf 4096 0 s₀ = (.ok 4096, s) ∧ openSync s.pair.disk = .error ealready := by
  obtain ⟨s₀, hcreate, hblank, hv, hsize⟩ := exists_blank
  have ht := HeaderTrailer.serialize_of_fits fits_emptyTrailer
  generalize List.flatten _ = trailer at ht
  have hlen := HeaderTrailer.length_serialize ht
  have hrun := first_write hblank (fun i => trailer.getD i 0) (by rw [hv]; decide)
  rcases hr : pwrite (fun i => trailer.getD i 0) 4096 0 s₀ with ⟨e | r, s⟩
  · unfold wp at hrun
    rw [hr] at hrun
    exact hrun.elim
  · obtain ⟨rfl, hdata⟩ := ok_of_wp hrun hr
    refine ⟨s₀, s, _, hcreate, hr, ?_⟩
    have hop : (Op.pwrite (fun i => trailer.getD i 0) 4096 0).run s₀ = (.ok 4096, s) := hr
    have hs : Journal s := (Journal.create hcreate).call hop
    obtain ⟨-, records, hinv⟩ := hs.history.inv
    have hdisk := (hinv.led logRules hs.usable).onDisk
    refine openSync_of_sealedTrailer hdisk.data_ge (HeaderTrailer.parse_serialize hdisk.valid.fits hdisk.dataRegion) ?_
    refine sealedTrailer_of_payload ht ?_ ?_
    · show s.data.size = _
      rw [hdata, File.size_write, hsize]
      decide
    · show s.data.read kSpace kSpace = _
      have hread : (s₀.data.writeBytes kSpace trailer).read kSpace trailer.length = trailer := File.read_writeBytes
      rw [File.writeBytes, hlen] at hread
      rw [hdata]
      exact hread

/-- A payload of zeroes is not a trailer. -/
theorem sealedTrailer_of_zeroes {f : File} (h : ∀ i, kSpace ≤ i → f.byte i = 0) : sealedTrailer f = false := by
  unfold sealedTrailer
  by_cases hs : f.size < 2 * kSpace
  · rw [if_pos hs]
  · have hread : f.read (f.size - kSpace) kSpace = List.replicate kSpace 0 := by
      refine List.eq_replicate_iff.mpr ⟨File.length_read, fun b hb => ?_⟩
      obtain ⟨i, -, rfl⟩ := List.mem_map.mp hb
      exact h _ (by omega)
    have hmagic : field (List.replicate kSpace (0 : UInt8)) 0 8 ≠ kMagic0 := by
      rw [field, List.drop_zero, List.take_replicate]
      decide
    rw [if_neg hs, hread, HeaderTrailer.parse, if_pos (.inl hmagic)]

/-- Recovery at work: create, one write of zeroes, and the pair opens with its map. -/
theorem recovery_first_write : ∃ s p, Journal s ∧ openSync (cut s s.pair.disk.index.size fun _ => none) = .ok p ∧
    ∀ x, resolve p.mappings x = resolve s.segments x := by
  obtain ⟨s₀, hcreate, hblank, hv, hsize⟩ := exists_blank
  have hrun := first_write hblank (fun _ => 0) (by rw [hv]; decide)
  rcases hr : pwrite (fun _ => 0) 4096 0 s₀ with ⟨e | r, s⟩
  · unfold wp at hrun
    rw [hr] at hrun
    exact hrun.elim
  · obtain ⟨rfl, hdata⟩ := ok_of_wp hrun hr
    have hop : (Op.pwrite (fun _ => 0) 4096 0).run s₀ = (.ok 4096, s) := hr
    have hs : Journal s := (Journal.create hcreate).call hop
    have hzero : sealedTrailer s.data = false := by
      refine sealedTrailer_of_zeroes fun i hi => ?_
      rw [hdata, File.byte_write]
      split_ifs
      · rfl
      · exact s₀.data.tail i (hsize.le.trans hi)
    obtain ⟨-, records, hinv⟩ := hs.history.inv
    have hge : kSpace ≤ s.pair.disk.index.size :=
      (Nat.le_add_right _ _).trans (hinv.led logRules hs.usable).onDisk.index_ge
    obtain ⟨p, hp, -, hmap⟩ := (recovery_iff hs (fun _ => none) hge le_rfl).1.mpr hzero
    exact ⟨s, p, hs, hp, hmap s hs rfl⟩

end LsmtRw

end OverlayBD
