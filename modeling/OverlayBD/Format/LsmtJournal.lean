import OverlayBD.Format.LsmtGrow

/-!
# The journal of a pair

What a pair has on disk, whatever its operations met: a log that replays and names every payload sector once.

* `Logged` — the pair is usable and its log is on disk, with nothing behind it.
* `Suspended` — a published grow is not finished.
* `PairInv` — one of the two, or a record was cut short and the pair is unusable.
* `append_spec`, `compactSync_spec`, `flush_logged`, `grow_logged`, `openBody_logged` — every operation keeps the
  invariant on every way out, and says which records are on disk afterwards.
-/

namespace OverlayBD

open Intervals SegmentMapping Bytes Errno Effect

/-! ### The index file -/

/-- A record behind the log. -/
theorem recordsOf_write {index : File} {records : List SegmentMapping} {m : SegmentMapping}
    (hrec : Replay.recordsOf index records.length = records) (hm : m.Fits) :
    Replay.recordsOf (index.writeBytes (kSpace + 16 * records.length) (storeSegmentLe m)) (records.length + 1)
      = records ++ [m] := by
  have hlen : (storeSegmentLe m).length = 16 := length_storeSegmentLe m
  have hold : ∀ i ∈ List.range records.length,
      loadSegmentLe ((index.writeBytes (kSpace + 16 * records.length) (storeSegmentLe m)).read (kSpace + 16 * i) 16)
        = loadSegmentLe (index.read (kSpace + 16 * i) 16) := by
    intro i hi
    have hi' := List.mem_range.mp hi
    rw [File.writeBytes, File.read_write_of_disjoint (by omega)]
  have hnew : loadSegmentLe ((index.writeBytes (kSpace + 16 * records.length) (storeSegmentLe m)).read
      (kSpace + 16 * records.length) 16) = m := by
    have hread : (index.writeBytes (kSpace + 16 * records.length) (storeSegmentLe m)).read
        (kSpace + 16 * records.length) (storeSegmentLe m).length = storeSegmentLe m := File.read_writeBytes
    rw [hlen] at hread
    have hload := loadSegmentLe_storeSegmentLe hm []
    rw [List.append_nil] at hload
    rw [hread, hload]
  unfold Replay.recordsOf at hrec ⊢
  rw [List.range_succ, List.map_append, List.map_congr_left hold, hrec, List.map_singleton, hnew]

/-! ### Records written and read back -/

/-- A run as a record keeps it. -/
def retag (m : SegmentMapping) : SegmentMapping := { m with moffset := m.moffset % 2 ^ 55, tag := m.tag % 2 ^ 8 }

theorem reload_eq {m : SegmentMapping} (ho : m.offset < 2 ^ 50) (hl : m.length < 2 ^ 14) :
    loadSegmentLe (storeSegmentLe m) = retag m := by
  have hstore : storeSegmentLe m = storeSegmentLe (retag m) := by
    simp only [storeSegmentLe, retag, Nat.mod_mod]
    rfl
  have hfits : (retag m).Fits := ⟨ho, hl, Nat.mod_lt _ (by decide), Nat.mod_lt _ (by decide)⟩
  have := loadSegmentLe_storeSegmentLe hfits []
  rwa [List.append_nil, ← hstore] at this

section Retag

variable {sectors dataSectors : ℕ} {l : List SegmentMapping}

theorem within_retag {m : SegmentMapping} (h : Replay.Within sectors dataSectors m) (hd : dataSectors < kMaxMoffset) :
    Replay.Within sectors dataSectors (retag m) ∧ ∀ x, (retag m).place x = m.place x := by
  have hkeep : m.zeroed = false → m.moffset % 2 ^ 55 = m.moffset := by
    intro hz
    have := (h.backed hz).2
    have : kMaxMoffset < 2 ^ 55 := by decide
    exact Nat.mod_eq_of_lt (by omega)
  refine ⟨⟨h.length_pos, h.length_le, h.stop_le, fun hz => ?_⟩, fun x => ?_⟩
  · show kDataStartSector ≤ m.moffset % 2 ^ 55 ∧ m.moffset % 2 ^ 55 + m.length ≤ dataSectors
    rw [hkeep hz]
    exact h.backed hz
  · unfold place retag
    dsimp only
    cases hz : m.zeroed with
    | true => rfl
    | false => rw [hkeep hz]

theorem resolve_map_retag (h : ∀ m ∈ l, Replay.Within sectors dataSectors m) (hd : dataSectors < kMaxMoffset)
    (x : ℕ) : resolve (l.map retag) x = resolve l x := by
  induction l with
  | nil => rfl
  | cons m l ih =>
    rw [List.map_cons]
    by_cases hc : Covers m x
    · have hc' : Covers (retag m) x := hc
      rw [resolve, lookup_cons_of_covers hc', resolve, lookup_cons_of_covers hc,
        (within_retag (h m List.mem_cons_self) hd).2]
    · have hc' : ¬ Covers (retag m) x := hc
      rw [resolve, lookup_cons_of_not hc', resolve, lookup_cons_of_not hc]
      exact ih fun m hm => h m (List.mem_cons_of_mem _ hm)

theorem indexWf_map_retag (h : IndexWf l) : IndexWf (l.map retag) := by
  refine ⟨List.pairwise_map.mpr h.ordered, fun m hm => ?_, fun m hm => ?_⟩
  · obtain ⟨t, ht, rfl⟩ := List.mem_map.mp hm
    exact h.proper t ht
  · obtain ⟨t, ht, rfl⟩ := List.mem_map.mp hm
    exact h.short t ht

/-- **A sorted list of runs replays**, if it is not too long. -/
theorem replays_of_indexWf (h : IndexWf l) (hin : ∀ m ∈ l, Replay.Within sectors dataSectors m)
    (hlen : l.length ≤ kMaxRoIndexSize) : Replay.Replays sectors dataSectors l := by
  refine ⟨hin, ?_, fun k => ?_⟩
  · unfold kMaxLogRecords
    omega
  · rw [Replay.liveOf_of_indexWf (h.sublist (List.take_sublist k l)), List.length_map]
    exact (List.length_take_le' _ _).trans hlen

/-- The records a compacted log is read back with. -/
theorem map_reload (hin : ∀ m ∈ l, Replay.Within sectors dataSectors m) (hs : sectors ≤ kMaxOffset) :
    (l.map fun m => loadSegmentLe (storeSegmentLe m)) = l.map retag := by
  refine List.map_congr_left fun m hm => reload_eq ?_ ?_
  · have h1 := (hin m hm).stop_le
    have h2 := (hin m hm).length_pos
    have h3 : kMaxOffset < 2 ^ 50 := by decide
    simp only [stop] at h1
    omega
  · have h1 := (hin m hm).length_le
    have h2 : kMaxLength < 2 ^ 14 := by decide
    omega

/-- **The runs of a map as a log**: it replays, and no payload is named twice. -/
theorem replays_retag (h : IndexWf l) (hx : SectorMap.Exclusive (resolve l))
    (hin : ∀ m ∈ l, Replay.Within sectors dataSectors m) (hd : dataSectors < kMaxMoffset)
    (hlen : l.length ≤ kMaxRoIndexSize) :
    Replay.Replays sectors dataSectors (l.map retag) ∧ Replay.Distinct (l.map retag) := by
  constructor
  · refine replays_of_indexWf (indexWf_map_retag h) (fun m hm => ?_) (by rw [List.length_map]; exact hlen)
    obtain ⟨t, ht, rfl⟩ := List.mem_map.mp hm
    exact (within_retag (hin t ht) hd).1
  · refine Replay.distinct_of_exclusive (indexWf_map_retag h) ?_
    rwa [show resolve (l.map retag) = resolve l from funext (resolve_map_retag hin hd)]

end Retag

namespace FilePair

/-- **The pair has its log on disk**, and nothing behind it. -/
structure Logged (p : FilePair) (records : List SegmentMapping) : Prop where
  onDisk : LogOn p.disk p.header records
  indexSize : p.disk.index.size = kSpace + 16 * records.length
  indexBytes : p.indexBytes = kSpace + 16 * records.length
  ranges : p.liveRanges = (Replay.liveOf records).map bounds
  healthy : p.poisoned = false
  settled : p.growthPending = false

/-- **A grow is not finished.** -/
structure Suspended (p : FilePair) (records : List SegmentMapping) : Prop where
  onDisk : LogOn p.disk p.header records ∨ ∃ header v, Growing p.disk header v records
  indexSize : p.disk.index.size = kSpace + 16 * records.length
  indexBytes : p.indexBytes = kSpace + 16 * records.length
  ranges : p.liveRanges = (Replay.liveOf records).map bounds
  poisoned : p.poisoned = true
  pending : p.growthPending = true

/-- **The invariant of a pair.** -/
inductive PairInv (p : FilePair) (records : List SegmentMapping) : Prop where
  | logged (h : Logged p records)
  | suspended (h : Suspended p records)
  /-- A record was cut short. -/
  | broken (h : LogOn p.disk p.header records) (hp : p.poisoned = true) (hg : p.growthPending = false)

variable {p : FilePair} {records : List SegmentMapping}

theorem PairInv.logged_of_healthy (h : PairInv p records) (hp : p.poisoned = false) : Logged p records := by
  cases h with
  | logged h => exact h
  | suspended h => exact nomatch h.poisoned.symm.trans hp
  | broken _ hb _ => exact nomatch hb.symm.trans hp

theorem Logged.passed (h : Logged p records) : Logged { p with disk := p.disk.passed } records :=
  ⟨h.onDisk.passed, h.indexSize, h.indexBytes, h.ranges, h.healthy, h.settled⟩

theorem Suspended.passed (h : Suspended p records) : Suspended { p with disk := p.disk.passed } records := by
  refine ⟨?_, h.indexSize, h.indexBytes, h.ranges, h.poisoned, h.pending⟩
  rcases h.onDisk with hl | ⟨header, v, hg⟩
  · exact .inl hl.passed
  · exact .inr ⟨header, v, hg.passed⟩

variable {d : Disk} {header : HeaderTrailer}

/-- Other payload behind the same header. -/
theorem LogOn.store (h : LogOn d header records) {f : File} (t : ℕ)
    (hsize : d.data.size ≤ f.size) (hlt : f.size / kAlignment < kMaxMoffset)
    (hfront : ∀ i, i < kSpace → f.byte i = d.data.byte i) : LogOn { d with data := f, tick := t } header records := by
  refine ⟨⟨h.data_ge.trans hsize, hlt, h.log, h.index_ge, h.index_lt,
    h.replays.mono le_rfl (Nat.div_le_div_right hsize), h.distinct⟩, h.valid, ?_, h.indexRegion, h.intent⟩
  rw [h.dataRegion]
  exact congrArg some (File.read_congr fun i hi => (hfront _ (by omega)).symm)

/-! ### Publishing -/

variable {m : SegmentMapping}

/-- A record behind a log, complete or not. -/
theorem LogOn.write {n : ℕ} (h : LogOn d header records)
    (hsize : d.index.size = kSpace + 16 * records.length) (hn : n < 16) :
    LogOn (d.setFile .index (d.index.write (kSpace + 16 * records.length) n fun i => (storeSegmentLe m).getD i 0)).passed
      header records := by
  have hs : (d.index.write (kSpace + 16 * records.length) n fun i => (storeSegmentLe m).getD i 0).size
      = kSpace + 16 * records.length + n := by
    rw [File.size_write, hsize]
    split_ifs <;> omega
  have hkeep : ∀ off len, off + len ≤ kSpace + 16 * records.length →
      (d.index.write (kSpace + 16 * records.length) n fun i => (storeSegmentLe m).getD i 0).read off len
        = d.index.read off len := fun off len hle => File.read_write_of_disjoint (.inl hle)
  refine ⟨⟨h.data_ge, h.data_lt, ?_, ?_, ?_, h.replays, h.distinct⟩, h.valid, h.dataRegion, ?_, h.intent⟩
  · refine Eq.trans (List.map_congr_left fun i hi => ?_) h.log
    have := List.mem_range.mp hi
    exact congrArg loadSegmentLe (hkeep _ _ (by omega))
  · exact (Nat.le_add_right _ n).trans_eq hs.symm
  · exact hs.trans_lt (by omega)
  · exact h.indexRegion.trans (congrArg some (hkeep 0 kSpace (by omega)).symm)

/-- A complete record behind a log. -/
theorem LogOn.concat (h : LogOn d header records) (hsize : d.index.size = kSpace + 16 * records.length)
    (hm : Replay.Within (header.virtualSize / kAlignment) (d.data.size / kAlignment) m) (hf : m.Fits)
    (hfresh : ∀ a ∈ records, Replay.SharesNothing a m) (hcount : records.length < kMaxLogRecords)
    (hlive : (Replay.liveStep (Replay.liveOf records) m).length ≤ kMaxRoIndexSize) :
    LogOn (d.setFile .index (d.index.writeBytes (kSpace + 16 * records.length) (storeSegmentLe m))).passed header
        (records ++ [m]) ∧
      (d.index.writeBytes (kSpace + 16 * records.length) (storeSegmentLe m)).size
        = kSpace + 16 * (records ++ [m]).length := by
  have hlen : (storeSegmentLe m).length = 16 := length_storeSegmentLe m
  have hall : (records ++ [m]).length = records.length + 1 := List.length_append
  have hs : (d.index.writeBytes (kSpace + 16 * records.length) (storeSegmentLe m)).size
      = kSpace + 16 * (records.length + 1) := by
    rw [File.writeBytes, File.size_write, hlen, if_neg (by decide), hsize]
    omega
  have hkeep : (d.index.writeBytes (kSpace + 16 * records.length) (storeSegmentLe m)).read 0 kSpace
      = d.index.read 0 kSpace := File.read_write_of_disjoint (.inl (by omega))
  rw [hall]
  refine ⟨⟨⟨h.data_ge, h.data_lt, ?_, ?_, ?_, h.replays.concat hm hcount hlive, h.distinct.concat hfresh⟩, h.valid,
    h.dataRegion, h.indexRegion.trans (congrArg some hkeep.symm), h.intent⟩, hs⟩
  · rw [hall]
    exact recordsOf_write h.log hf
  · rw [hall]
    exact hs.ge
  · rw [hall]
    exact hs.trans_lt (by omega)

/-- **A published record**: it is on disk, or the log is as before, perhaps with the pair unusable. -/
theorem append_spec (h : Logged p records)
    (hm : Replay.Within (p.header.virtualSize / kAlignment) (p.disk.data.size / kAlignment) m) (hf : m.Fits)
    (hfresh : ∀ a ∈ records, Replay.SharesNothing a m) :
    wp (append m) (fun _ p' => Logged p' (records ++ [m]) ∧ p'.disk.data = p.disk.data ∧ p'.header = p.header)
      (fun _ p' => (∃ new, (new = [] ∨ new = [m] ∧ p'.poisoned = true) ∧ PairInv p' (records ++ new)) ∧
        p'.disk.data = p.disk.data ∧ p'.header = p.header ∧ p'.growthPending = false) p := by
  have hlen : (storeSegmentLe m).length = 16 := length_storeSegmentLe m
  have hsame : (∃ new, (new = [] ∨ new = [m] ∧ p.poisoned = true) ∧ PairInv p (records ++ new)) ∧
      p.disk.data = p.disk.data ∧ p.header = p.header ∧ p.growthPending = false :=
    ⟨⟨[], .inl rfl, by rw [List.append_nil]; exact .logged h⟩, rfl, rfl, h.settled⟩
  unfold append
  rw [wp_bind, wp_gets, wp_bind, wp_refuse]
  refine ⟨fun _ => hsame, fun _ => ?_⟩
  rw [wp_bind, wp_refuse]
  refine ⟨fun _ => hsame, fun hcount => ?_⟩
  rw [wp_bind, wp_refuse]
  refine ⟨fun _ => hsame, fun hlive => ?_⟩
  simp only [id] at hcount hlive
  have hcount' : records.length < kMaxLogRecords := by
    rw [h.indexBytes] at hcount
    omega
  rw [h.ranges, replaceRange_map, List.length_map, not_lt] at hlive
  obtain ⟨hfull, hsize⟩ := h.onDisk.concat h.indexSize hm hf hfresh hcount' hlive
  rw [wp_bind, wp_onError, id_eq, h.indexBytes, writeBytes, sys, wp_zoom]
  unfold wp Disk.write
  cases p.disk.faults p.disk.tick with
  | some f =>
    rw [hlen]
    rcases Nat.lt_or_ge (min f.written (kMaxFileSize - (kSpace + 16 * records.length))) 16 with hw | hw
    · refine ⟨⟨[], .inl rfl, ?_⟩, rfl, rfl, h.settled⟩
      rw [List.append_nil]
      refine .broken ?_ rfl h.settled
      exact h.onDisk.write h.indexSize (by omega)
    · refine ⟨⟨[m], .inr ⟨rfl, rfl⟩, ?_⟩, rfl, rfl, h.settled⟩
      rw [min_eq_right hw, ← hlen]
      exact .broken hfull rfl h.settled
  | none =>
    by_cases hbig : kMaxFileSize < kSpace + 16 * records.length + (storeSegmentLe m).length
    · simp only [if_pos hbig]
      refine ⟨⟨[], .inl rfl, ?_⟩, rfl, trivial, h.settled⟩
      rw [List.append_nil]
      exact .broken h.onDisk.passed rfl h.settled
    · simp only [if_neg hbig]
      refine ⟨⟨hfull, hsize, ?_, ?_, h.healthy, h.settled⟩, rfl, rfl⟩
      · show p.indexBytes + 16 = _
        rw [h.indexBytes, List.length_append, List.length_singleton]
        omega
      · show replaceRange p.liveRanges m = _
        rw [h.ranges, replaceRange_map, Replay.liveOf_concat]

/-! ### Compaction -/

variable {live : List SegmentMapping}

/-- The check of `compact_sync` is a replay of the records it writes. -/
theorem fold_of_replayLive {r r' : Replay} (h : replayLive r live = some r') :
    (live.map fun m => loadSegmentLe (storeSegmentLe m)).foldlM Replay.append r = some r' := by
  unfold replayLive at h
  generalize 0 = previous at h
  induction live generalizing r previous with
  | nil => simpa using h
  | cons m live ih =>
    rw [List.map_cons, List.foldlM_cons]
    simp only [List.foldlM_cons, Option.bind_eq_bind, Option.bind_assoc] at h
    by_cases hg : previous ≤ m.offset
    · simp only [hg, guard_true, Option.pure_def, Option.bind_some] at h
      obtain ⟨r₁, h1, h2⟩ := Option.bind_eq_some_iff.mp h
      rw [h1]
      exact ih m.stop h2
    · simp [hg] at h

/-- The check passes for runs in order whose records replay. -/
theorem replayLive_of_fold {r r' : Replay} (ho : Ordered live)
    (h : (live.map fun m => loadSegmentLe (storeSegmentLe m)).foldlM Replay.append r = some r') :
    replayLive r live = some r' := by
  unfold replayLive
  have hstart : ∀ m ∈ live, 0 ≤ m.offset := fun _ _ => Nat.zero_le _
  generalize 0 = previous at hstart ⊢
  induction live generalizing r previous with
  | nil => simpa using h
  | cons m live ih =>
    rw [List.map_cons, List.foldlM_cons] at h
    obtain ⟨r₁, h1, h2⟩ := Option.bind_eq_some_iff.mp h
    have hrest := ih ho.of_cons h2 m.stop (List.pairwise_cons.mp ho).1
    simp only [List.foldlM_cons, Option.bind_eq_bind, Option.bind_assoc, hstart m List.mem_cons_self, guard_true,
      Option.pure_def, Option.bind_some, h1]
    exact hrest

/-- The size of a new journal. -/
theorem size_journal {region : List UInt8} (hregion : region.length = kSpace) (l : List SegmentMapping) :
    (File.ofBytes (region ++ l.flatMap storeSegmentLe)).size = kSpace + 16 * l.length := by
  rw [File.size_ofBytes, List.length_append, hregion, File.length_pieces length_storeSegmentLe]

/-- The records of a file written in one piece. -/
theorem recordsOf_ofBytes {region : List UInt8} (hregion : region.length = kSpace) (l : List SegmentMapping) :
    Replay.recordsOf (File.ofBytes (region ++ l.flatMap storeSegmentLe)) l.length
      = l.map fun m => loadSegmentLe (storeSegmentLe m) := by
  refine List.ext_getElem (by simp [Replay.recordsOf]) fun i hi hi' => ?_
  have hlt : i < l.length := by simpa using hi'
  have hread := File.read_ofBytes_flatMap region storeSegmentLe length_storeSegmentLe l hlt
  rw [hregion] at hread
  simp only [Replay.recordsOf, List.getElem_map, List.getElem_range, hread]

/-- **Compaction** writes a log of the runs it is given; if it fails, the log is that one or the old one. -/
theorem compactSync_spec (h : Logged p records) (hw : IndexWf live) (hx : SectorMap.Exclusive (resolve live))
    (hin : ∀ m ∈ live, Replay.Within (p.header.virtualSize / kAlignment) (p.disk.data.size / kAlignment) m) :
    wp (compactSync live)
      (fun _ p' => Logged p' (live.map retag) ∧ p'.disk.data = p.disk.data ∧ p'.header = p.header)
      (fun _ p' => (Logged p' records ∨ Logged p' (live.map retag)) ∧ p'.disk.data = p.disk.data ∧
        p'.header = p.header) p := by
  have hd := h.onDisk
  have hreload := map_reload hin hd.valid.capacity_le
  unfold compactSync
  rw [wp_bind, wp_gets, wp_bind, wp_refuse]
  refine ⟨fun _ => ⟨.inl h, rfl, rfl⟩, fun _ => ?_⟩
  rw [wp_bind, wp_refuse]
  refine ⟨fun _ => ⟨.inl h, rfl, rfl⟩, fun hlen => ?_⟩
  obtain ⟨hreplays, hdistinct⟩ := replays_retag hw hx hin hd.data_lt (Nat.le_of_not_lt hlen)
  rw [wp_bind]
  refine wp_sys_call ?_ fun _ _ => ⟨.inl h.passed, rfl, rfl⟩
  have h1 := h.passed
  rw [wp_bind, wp_need]
  refine ⟨fun r hr => ?_, fun _ => ⟨.inl h1, rfl, rfl⟩⟩
  rw [wp_bind, wp_need]
  refine ⟨fun replayed hrep => ?_, fun _ => ⟨.inl h1, rfl, rfl⟩⟩
  rw [wp_bind]
  refine wp_sys_call ?_ fun _ _ => ⟨.inl h1.passed, rfl, rfl⟩
  have h2 := h1.passed
  rw [wp_bind, wp_need]
  refine ⟨fun region hregion => ?_, fun _ => ⟨.inl h2, rfl, rfl⟩⟩
  rw [wp_bind]
  refine wp_sys_call ?_ fun _ _ => ⟨.inl h2.passed, rfl, rfl⟩
  rw [wp_bind]
  refine wp_sys_call ?_ fun _ _ => ⟨.inl h2.passed.passed, rfl, rfl⟩
  rw [wp_bind, wp_modify]
  refine (fun hnew => wp_sys_call ⟨Logged.passed hnew, rfl, rfl⟩ fun _ _ => ⟨.inr (Logged.passed hnew), rfl, rfl⟩) ?_
  -- the replay of the check ends in the runs of the new log
  have hlive : replayed = Replay.liveOf (live.map retag) := by
    obtain ⟨r', hr', hfin⟩ := Option.bind_eq_some_iff.mp hrep
    have hfold := fold_of_replayLive hr'
    rw [hreload, Replay.start_eq hr] at hfold
    have := hreplays.fold hd.valid.capacity_le
    rw [Replay.finish_eq_some hfin]
    exact (congrArg Replay.live (Option.some.inj (hfold.symm.trans this)))
  have hrlen : region.length = kSpace := HeaderTrailer.length_serialize hregion
  have hsize := size_journal hrlen live
  have hcount : (live.map retag).length = live.length := List.length_map _
  refine ⟨⟨⟨hd.data_ge, hd.data_lt, ?_, ?_, ?_, hreplays, hdistinct⟩, hd.valid, hd.dataRegion, ?_, hd.intent⟩,
    ?_, ?_, ?_, h.healthy, h.settled⟩
  · rw [hcount]
    exact (recordsOf_ofBytes hrlen live).trans hreload
  · rw [hcount]
    exact hsize.ge
  · rw [hcount]
    exact hsize.trans_lt (by omega)
  · have := File.read_ofBytes_append [] region (live.flatMap storeSegmentLe)
    rw [hrlen] at this
    exact hregion.trans (congrArg some this.symm)
  · rw [hcount]
    exact hsize
  · rw [hcount]
  · show replayed.map bounds = _
    rw [hlive]

/-! ### Flush -/

/-- **Flush** moves nothing. -/
theorem flush_logged (h : PairInv p records) :
    wp flush (fun _ p' => PairInv p' records ∧ ∃ t, p' = { p with disk := { p.disk with tick := t } })
      (fun _ p' => PairInv p' records ∧ ∃ t, p' = { p with disk := { p.disk with tick := t } }) p := by
  unfold flush
  rw [wp_bind, wp_gets, wp_bind, wp_refuse]
  refine ⟨fun _ => ⟨h, p.disk.tick, rfl⟩, fun hp => ?_⟩
  have hlog := h.logged_of_healthy (Bool.eq_false_of_not_eq_true hp)
  rw [wp_bind]
  refine wp_sys_call ?_ fun _ _ => ⟨.logged hlog.passed, _, rfl⟩
  rw [wp_bind]
  refine wp_sys_call ?_ fun _ _ => ⟨.logged hlog.passed.passed, _, rfl⟩
  exact wp_sys_call ⟨.logged hlog.passed.passed.passed, _, rfl⟩ fun _ _ => ⟨.logged hlog.passed.passed.passed, _, rfl⟩

/-! ### Grow -/

variable {v : ℕ}

/-- The intent of a usable pair. -/
theorem growIntent_eq (h : Logged p records) (hv : PairHeader (p.header.withCapacity v)) {raw : List UInt8}
    (hraw : p.growIntent v = some raw) :
    ∃ data index, (p.header.withCapacity v).serialize = some data ∧
      ((indexHeader p.header).withCapacity v).serialize = some index ∧
      raw = growBytes p.header.virtualSize data index := by
  have hd := h.onDisk
  have hih := HeaderTrailer.parse_serialize hd.valid.fits_index hd.indexRegion
  have hdata := HeaderTrailer.serialize_of_fits hv.fits
  have hindex : ((indexHeader p.header).withCapacity v).serialize = _ := HeaderTrailer.serialize_of_fits hv.fits_index
  refine ⟨_, _, hdata, hindex, ?_⟩
  unfold FilePair.growIntent at hraw
  rw [hdata, hih] at hraw
  simp only [Option.bind_eq_bind, Option.bind_some] at hraw
  obtain ⟨n, -, hraw⟩ := Option.bind_eq_some_iff.mp hraw
  rw [hindex] at hraw
  exact (Option.some.inj hraw).symm

/-- A usable pair whose payload is whole sectors has an intent for every capacity. -/
theorem exists_growIntent (h : Logged p records) (hv : PairHeader (p.header.withCapacity v))
    (hal : p.disk.data.size % kAlignment = 0) : ∃ raw, p.growIntent v = some raw := by
  have hd := h.onDisk
  have hvalid := hd.valid.validatePair_eq records.length hd.data_ge hal hd.data_lt hd.replays.count
  rw [← h.indexBytes] at hvalid
  have hindex : ((indexHeader p.header).withCapacity v).serialize = _ := HeaderTrailer.serialize_of_fits hv.fits_index
  unfold FilePair.growIntent
  rw [HeaderTrailer.serialize_of_fits hv.fits, HeaderTrailer.parse_serialize hd.valid.fits_index hd.indexRegion]
  simp only [Option.bind_eq_bind, Option.bind_some, hvalid, hindex]
  exact ⟨_, rfl⟩

/-- A header with a larger capacity. -/
theorem pairHeader_withCapacity (h : PairHeader header) (h0 : v ≠ 0)
    (ha : v % kAlignment = 0) (hm : v / kAlignment ≤ kMaxOffset) : PairHeader (header.withCapacity v) := by
  have hlt : v < 2 ^ 64 := by
    simp only [kAlignment, kMaxOffset] at *
    omega
  have hf := h.fits
  exact ⟨h.flags, ⟨hf.size, hf.flags, hf.indexOffset, hf.indexSize, hlt, hf.uuid, hf.parentUuid, hf.reserved,
    hf.version, hf.subVersion, hf.userTag⟩, h.indexOffset, h.indexSize, h.version, h.subVersion, h.reserved, h.uuid,
    h.parentUuid, h0, ha, hm⟩

/-- **Recovery of a suspended pair**: finished, or still suspended. -/
theorem recoverGrow_suspended (h : Suspended p records) :
    wp recoverGrow
      (fun _ p' => headersOnly.rel p p' ∧ LogOn p'.disk p'.header records ∧ (Logged p' records ∨ Suspended p' records))
      (fun _ p' => headersOnly.rel p p' ∧ Suspended p' records) p := by
  rcases h.onDisk with hlog | ⟨header, v, hg⟩
  · rw [wp_of_eq (recoverGrow_none hlog.intent)]
    exact ⟨headersOnly.refl p, hlog, .inr h⟩
  · have hge : kSpace ≤ p.disk.index.size := (Nat.le_add_right _ _).trans hg.index_ge
    refine wp_mono (wp_and (respects_headers_recoverGrow p) (recoverGrow_spec hg)) (fun _ p' h' => ?_) fun _ p' h' => ?_
    · obtain ⟨hrel, hlog, hheader, hp, hpend⟩ := h'
      obtain ⟨-, hi, -, -, -, hib, -, hr⟩ := id hrel
      rw [← hheader] at hlog
      exact ⟨hrel, hlog, .inl ⟨hlog, (hi hge).trans h.indexSize, hib.trans h.indexBytes, hr.trans h.ranges, hp, hpend⟩⟩
    · obtain ⟨⟨-, hrel⟩, hdisk, hheader, hp, hpend⟩ := h'
      obtain ⟨-, hi, -, -, -, hib, -, hr⟩ := id hrel
      refine ⟨hrel, ?_, (hi hge).trans h.indexSize, hib.trans h.indexBytes, hr.trans h.ranges, hp, hpend⟩
      rcases hdisk with hdisk | hdisk
      · exact .inr ⟨header, v, hdisk⟩
      · exact .inl (hheader ▸ hdisk)

/-- **The second half of a grow.** -/
theorem publishGrow_logged (h : Logged p records) (v : ℕ) :
    wp (publishGrow p v)
      (fun _ p' => headersOnly.rel p p' ∧ Logged p' records ∧ p'.header = p.header.withCapacity v)
      (fun _ p' => headersOnly.rel p p' ∧ (Logged p' records ∧ p'.header = p.header ∨ Suspended p' records)) p := by
  unfold publishGrow
  rw [wp_bind, wp_refuse]
  refine ⟨fun _ => ⟨headersOnly.refl p, .inl ⟨h, rfl⟩⟩, fun hv => ?_⟩
  rw [wp_ite]
  refine ⟨fun heq => ⟨headersOnly.refl p, h, ?_⟩, fun hne => ?_⟩
  · rw [heq]
  have htarget : PairHeader (p.header.withCapacity v) :=
    pairHeader_withCapacity h.onDisk.valid (by omega) (by omega) (by omega)
  rw [wp_bind, wp_need]
  refine ⟨fun raw hraw => ?_, fun _ => ⟨headersOnly.refl p, .inl ⟨h, rfl⟩⟩⟩
  obtain ⟨data, index, hdata, hindex, rfl⟩ := growIntent_eq h htarget hraw
  rw [wp_bind]
  refine wp_sys_call ?_ fun _ _ => ⟨headersOnly.refl p, .inl ⟨h.passed, rfl⟩⟩
  rw [wp_bind, wp_refuse_of_not (by rw [h.onDisk.intent]; simp), wp_bind]
  refine wp_sys_call ?_ fun _ _ => ⟨headersOnly.refl p, .inl ⟨h.passed.passed, rfl⟩⟩
  rw [wp_bind, wp_modify]
  -- from here on the intent is published
  set q : FilePair := { p with
    disk := { p.disk.passed.passed with growIntent := some (growBytes p.header.virtualSize data index) }
    growthPending := true, poisoned := true } with hq
  have hd := h.onDisk
  have hgrowing : Growing q.disk p.header v records :=
    ⟨hd.toBody.front rfl rfl fun _ _ => rfl, hd.valid, htarget, by omega, tornRegion_old v hd.dataRegion,
      tornRegion_old v hd.indexRegion, data, index, hdata, hindex, rfl⟩
  have hsus : Suspended q records := ⟨.inr ⟨p.header, v, hgrowing⟩, h.indexSize, h.indexBytes, h.ranges, rfl, rfl⟩
  have hrel : headersOnly.rel p q := headersOnly.refl p
  rw [wp_bind]
  refine wp_sys_call ?_ fun _ _ => ⟨hrel, .inr hsus.passed⟩
  have hspec := recoverGrow_spec (p := { q with disk := q.disk.passed }) hgrowing.passed
  refine wp_mono (wp_and (recoverGrow_suspended hsus.passed) hspec) (fun _ p' h' => ?_)
    fun _ p' h' => ⟨headersOnly.trans hrel h'.1.1, .inr h'.1.2⟩
  obtain ⟨⟨hrel', hlog, -⟩, -, hheader, hp, hpend⟩ := h'
  obtain ⟨-, hi, -, -, -, hib, -, hr⟩ := id hrel'
  refine ⟨headersOnly.trans hrel hrel', ⟨hlog, ?_, hib.trans h.indexBytes, hr.trans h.ranges, hp, hpend⟩, hheader⟩
  have hge : kSpace ≤ p.disk.index.size := (Nat.le_add_right _ _).trans hd.index_ge
  exact (hi hge).trans h.indexSize

/-- **Grow** keeps the log. -/
theorem grow_logged (h : PairInv p records) (v : ℕ) :
    wp (grow v)
      (fun _ p' => headersOnly.rel p p' ∧ Logged p' records ∧ p'.header.virtualSize = v)
      (fun _ p' => headersOnly.rel p p' ∧ (p' = p ∨ Logged p' records ∨ Suspended p' records)) p := by
  unfold grow
  rw [wp_bind, wp_gets, wp_bind, wp_refuse]
  refine ⟨fun _ => ⟨headersOnly.refl p, .inl rfl⟩, fun hrefuse => ?_⟩
  have hpublish : ∀ q : FilePair, headersOnly.rel p q → Logged q records →
      wp (publishGrow q v) (fun _ p' => headersOnly.rel p p' ∧ Logged p' records ∧ p'.header.virtualSize = v)
        (fun _ p' => headersOnly.rel p p' ∧ (p' = p ∨ Logged p' records ∨ Suspended p' records)) q := by
    intro q hrel hq
    refine wp_mono (publishGrow_logged hq v) (fun _ p' h' => ?_) fun _ p' h' => ⟨headersOnly.trans hrel h'.1, .inr ?_⟩
    · exact ⟨headersOnly.trans hrel h'.1, h'.2.1, by rw [h'.2.2]⟩
    · exact h'.2.imp_left And.left
  rw [wp_bind, wp_onlyIf]
  refine ⟨fun hpend => ?_, fun hpend => ?_⟩
  · have hsus : Suspended p records := by
      cases h with
      | logged h => exact nomatch h.settled.symm.trans hpend
      | suspended h => exact h
      | broken _ _ hg => exact nomatch hg.symm.trans hpend
    rw [wp_bind]
    refine wp_mono (recoverGrow_suspended hsus) (fun _ q hq => ?_) fun _ q hq => ⟨hq.1, .inr (.inr hq.2)⟩
    obtain ⟨hrel, hlog, hkept⟩ := hq
    -- flagged or not, the files are those of a finished grow
    have hadopt : Logged { q with disk := q.disk.passed, growthPending := false, poisoned := false } records := by
      rcases hkept with hq | hq
      · exact ⟨hlog.passed, hq.indexSize, hq.indexBytes, hq.ranges, rfl, rfl⟩
      · exact ⟨hlog.passed, hq.indexSize, hq.indexBytes, hq.ranges, rfl, rfl⟩
    rw [wp_bind]
    refine wp_sys_call ?_ fun _ _ => ⟨hrel, .inr (hkept.imp Logged.passed Suspended.passed)⟩
    rw [wp_modify, wp_bind, wp_gets]
    exact hpublish _ hrel hadopt
  · have hlog : Logged p records := by
      cases h with
      | logged h => exact h
      | suspended h => exact absurd h.pending hpend
      | broken _ hp hg => exact absurd ⟨hp, hg⟩ hrefuse
    rw [wp_bind, wp_gets]
    exact hpublish p (headersOnly.refl p) hlog

/-! ### What the layer asks of a log -/

/-- **The rules of a log**: `Led` is a usable pair with its effective records, `Inv` any pair.  The layer above keeps its
map in step with every log that has them. -/
structure LogRules (Led Inv : FilePair → List SegmentMapping → Prop) : Prop where
  inv : ∀ {p records}, Led p records → Inv p records
  led : ∀ {p records}, Inv p records → p.poisoned = false → Led p records
  healthy : ∀ {p records}, Led p records → p.poisoned = false
  data_ge : ∀ {p records}, Inv p records → kSpace ≤ p.disk.data.size
  data_lt : ∀ {p records}, Led p records → p.disk.data.size / kAlignment < kMaxMoffset
  capacity_le : ∀ {p records}, Led p records → p.header.virtualSize / kAlignment ≤ kMaxOffset
  within : ∀ {p records}, Led p records → ∀ m ∈ records,
    Replay.Within (p.header.virtualSize / kAlignment) (p.disk.data.size / kAlignment) m
  passed : ∀ {p records}, Led p records → Led { p with disk := p.disk.passed } records
  /-- Other payload behind the same header. -/
  store : ∀ {p records}, Led p records → ∀ (f : File) (t : ℕ), p.disk.data.size ≤ f.size →
    f.size / kAlignment < kMaxMoffset → (∀ i, i < kSpace → f.byte i = p.disk.data.byte i) →
    Led { p with disk := { p.disk with data := f, tick := t } } records
  append : ∀ {p records m}, Led p records →
    Replay.Within (p.header.virtualSize / kAlignment) (p.disk.data.size / kAlignment) m → m.Fits →
    (∀ a ∈ records, Replay.SharesNothing a m) →
    wp (append m) (fun _ p' => Led p' (records ++ [m]) ∧ p'.disk.data = p.disk.data ∧ p'.header = p.header)
      (fun _ p' => (∃ new, (new = [] ∨ new = [m] ∧ p'.poisoned = true) ∧ Inv p' (records ++ new)) ∧
        p'.disk.data = p.disk.data ∧ p'.header = p.header ∧ p'.growthPending = false) p
  compact : ∀ {p records live}, Led p records → IndexWf live → SectorMap.Exclusive (resolve live) →
    (∀ m ∈ live, Replay.Within (p.header.virtualSize / kAlignment) (p.disk.data.size / kAlignment) m) →
    wp (compactSync live)
      (fun _ p' => Led p' (live.map retag) ∧ p'.disk.data = p.disk.data ∧ p'.header = p.header)
      (fun _ p' => (Led p' records ∨ Led p' (live.map retag)) ∧ p'.disk.data = p.disk.data ∧ p'.header = p.header) p
  flush : ∀ {p records}, Inv p records →
    wp flush (fun _ p' => Inv p' records ∧ ∃ t, p' = { p with disk := { p.disk with tick := t } })
      (fun _ p' => Inv p' records ∧ ∃ t, p' = { p with disk := { p.disk with tick := t } }) p
  grow : ∀ {p records}, Inv p records → ∀ v : ℕ,
    wp (grow v) (fun _ p' => headersOnly.rel p p' ∧ Led p' records)
      (fun _ p' => headersOnly.rel p p' ∧
        (p' = p ∨ Led p' records ∨ Inv p' records ∧ p'.poisoned = true ∧ p'.growthPending = true)) p

/-- **The log of a pair that was created here** has the rules. -/
theorem logRules : LogRules Logged PairInv where
  inv := .logged
  led := PairInv.logged_of_healthy
  healthy := Logged.healthy
  data_ge h := by
    cases h with
    | logged h => exact h.onDisk.data_ge
    | suspended h => exact h.onDisk.elim (fun h => h.data_ge) fun ⟨_, _, h⟩ => h.data_ge
    | broken h _ _ => exact h.data_ge
  data_lt h := h.onDisk.data_lt
  capacity_le h := h.onDisk.valid.capacity_le
  within h := h.onDisk.replays.within
  passed := Logged.passed
  store h _ t hsize hlt hfront :=
    ⟨h.onDisk.store t hsize hlt hfront, h.indexSize, h.indexBytes, h.ranges, h.healthy, h.settled⟩
  append := append_spec
  compact := compactSync_spec
  flush := flush_logged
  grow h v := by
    refine wp_mono (grow_logged h v) (fun _ p' h' => ⟨h'.1, h'.2.1⟩) fun _ p' h' => ⟨h'.1, ?_⟩
    rcases h'.2 with hp | hp | hp
    · exact .inl hp
    · exact .inr (.inl hp)
    · exact .inr (.inr ⟨.suspended hp, hp.poisoned, hp.pending⟩)

/-! ### Opening -/

/-- A size in whole sectors. -/
def roundUp (n : ℕ) : ℕ := (n + kAlignment - 1) / kAlignment * kAlignment

theorem le_roundUp (n : ℕ) : n ≤ roundUp n := by
  simp only [roundUp, kAlignment]
  omega

/-- **The pair a directory opens as**, with its whole log. -/
structure Opens (d : Disk) (header : HeaderTrailer) (records : List SegmentMapping) (p : FilePair) : Prop where
  logged : Logged p records
  header_eq : p.header = header
  mappings : p.mappings = Replay.liveOf records
  dataBytes : p.dataBytes = roundUp d.data.size
  size : p.disk.data.size = roundUp d.data.size
  bytes : ∀ i, kSpace ≤ i → p.disk.data.byte i = d.data.byte i

/-- What recovery has to reach for the rest of `open_sync` to succeed. -/
def Recovered (d : Disk) (header : HeaderTrailer) (records : List SegmentMapping) (p : FilePair) : Prop :=
  headersOnly.rel (closed d) p ∧ LogOn p.disk header records ∧ p.header = header ∧ p.poisoned = false ∧
    p.growthPending = false

section Open

variable {d : Disk} {header target : HeaderTrailer}

/-- The last step of `open_sync`. -/
theorem opens_of_recovered {q : FilePair} (h : Recovered d target records q) (hge : kSpace ≤ d.data.size)
    (hige : kSpace ≤ d.index.size) (hsmall : d.data.size ≤ 2 ^ 63) :
    Opens d target records { q with
      disk := { q.disk with
        data := q.disk.data.truncate (roundUp d.data.size)
        index := q.disk.index.truncate (completeIndex d.index.size) }
      dataBytes := roundUp d.data.size
      indexBytes := completeIndex d.index.size
      mappings := Replay.liveOf records
      liveRanges := (Replay.liveOf records).map fun m => (m.offset, m.stop) } := by
  obtain ⟨⟨hds, his, hdb, -, -, -, -, -⟩, hlog, hheader, hp, hg⟩ := h
  have hds' : q.disk.data.size = d.data.size := hds hge
  have his' : q.disk.index.size = d.index.size := his hige
  have hround := le_roundUp d.data.size
  have hcomplete := hlog.completeIndex
  rw [his'] at hcomplete
  have hcut := hlog.cut (n := completeIndex d.index.size) (by omega) (by have := hlog.index_ge; omega)
  have htake : (completeIndex d.index.size - kSpace) / 16 = records.length := by omega
  rw [htake, List.take_length] at hcut
  have hstore := hcut.store (f := q.disk.data.truncate (roundUp d.data.size)) q.disk.tick
    (hds'.trans_le hround) ?_ fun i hi => if_pos (by omega)
  · refine ⟨⟨hheader ▸ hstore, hcomplete, hcomplete, rfl, hp, hg⟩, hheader, rfl, rfl, rfl, fun i hi => ?_⟩
    refine Eq.trans ?_ (hdb i hi)
    by_cases hlt : i < roundUp d.data.size
    · exact if_pos hlt
    · exact (if_neg hlt).trans (q.disk.data.tail i (by omega)).symm
  · show roundUp d.data.size / kAlignment < kMaxMoffset
    simp only [roundUp, kAlignment, kMaxMoffset]
    omega

/-- **Opening**: all it takes is the header, the seal check and recovery. -/
theorem openBody_spec {E : ℤ → FilePair → Prop} (hge : kSpace ≤ d.data.size)
    (hparse : HeaderTrailer.parse (d.data.read 0 kSpace) = some header) (hns : header.isSealed = false)
    (hige : kSpace ≤ d.index.size) (hsmall : d.data.size ≤ 2 ^ 63)
    (hseal : sealedTrailer d.data = true → E ealready { closed d with header := header })
    (hrec : wp recoverGrow (fun _ p => Recovered d target records p) E { closed d with header := header }) :
    wp openBody (fun _ p => Opens d target records p) E (closed d) := by
  unfold openBody
  rw [wp_bind, wp_gets, wp_bind, wp_refuse_of_not (Nat.not_lt.mpr hge), wp_bind, wp_need_some hparse, wp_bind, wp_modify,
    wp_bind, wp_refuse]
  refine ⟨fun h => hseal (h.resolve_left fun hs => nomatch hns.symm.trans hs), fun _ => ?_⟩
  rw [wp_bind, wp_refuse_of_not (Nat.not_lt.mpr hige), wp_bind]
  refine wp_mono hrec (fun _ q hq => ?_) fun _ _ he => he
  have hds : q.disk.data.size = d.data.size := hq.1.1 hge
  have his : q.disk.index.size = d.index.size := hq.1.2.1 hige
  have hlog := hq.2.1
  have hheader := hq.2.2.1
  have hvalid := (hlog.accepted hlog.valid).1
  have hload := (hlog.accepted hlog.valid).2
  rw [hds, his] at hvalid
  rw [hds] at hload
  subst hheader
  rw [wp_bind, wp_gets, id_eq, wp_bind,
    wp_need_some (HeaderTrailer.parse_serialize hlog.valid.fits_index hlog.indexRegion), wp_bind, wp_need_some hvalid,
    wp_bind, wp_need_some hload, wp_modify]
  exact opens_of_recovered hq hge hige hsmall

/-- **Opening a pair with a log.** -/
theorem openBody_of_log (h : LogOn d header records) (hsmall : d.data.size ≤ 2 ^ 63) :
    wp openBody (fun _ p => Opens d header records p)
      (fun _ p => headersOnly.rel (closed d) p ∧ sealedTrailer d.data = true) (closed d) := by
  refine openBody_spec h.data_ge (HeaderTrailer.parse_serialize h.valid.fits h.dataRegion) h.valid.not_isSealed
    ((Nat.le_add_right _ _).trans h.index_ge) hsmall (fun hs => ⟨headersOnly.refl _, hs⟩) ?_
  rw [wp_of_eq (recoverGrow_none h.intent)]
  exact ⟨headersOnly.refl _, h, rfl, rfl, rfl⟩

/-- **Opening a pair that was growing**: it ends grown, unless a call fails. -/
theorem openBody_of_growing {v : ℕ} (h : Growing d header v records) (hsmall : d.data.size ≤ 2 ^ 63) :
    wp openBody (fun _ p => Opens d (header.withCapacity v) records p)
      (fun _ p => headersOnly.rel (closed d) p ∧ (sealedTrailer d.data = true ∨ ∃ n, d.faults n ≠ none)) (closed d) := by
  obtain ⟨k, hk, hr⟩ := h.dataRegion
  have hparse := HeaderTrailer.parse_serialize (fits_torn hk h.valid.fits h.valid.fits.virtualSize) hr
  have hige : kSpace ≤ d.index.size := (Nat.le_add_right _ _).trans h.index_ge
  refine openBody_spec h.data_ge hparse h.valid.not_isSealed hige hsmall (fun hs => ⟨headersOnly.refl _, .inl hs⟩) ?_
  have hrun : wp recoverGrow _ _ { closed d with header := header.withCapacity (tornCapacity header.virtualSize v k) } :=
    wp_and (respects_headers_recoverGrow _) (wp_and (recoverGrow_spec h) (recoverGrow_faults h))
  exact wp_mono hrun (fun _ q hq => ⟨hq.1, hq.2.1⟩) fun _ q hq => ⟨hq.1.2, .inr hq.2.2⟩

/-- A pair that opened is what the run of the body left. -/
theorem of_openSync {Q : FilePair → Prop} {E : ℤ → FilePair → Prop}
    (h : wp openBody (fun _ p => Q p) E (closed d)) {p : FilePair} (ho : openSync d = .ok p) : Q p := by
  unfold openSync at ho
  rcases hr : openBody (closed d) with ⟨e | a, q⟩
  · rw [hr] at ho
    exact nomatch ho
  · rw [hr] at ho
    obtain rfl := Except.ok.inj ho
    exact ok_of_wp h hr

end Open

end FilePair

end OverlayBD
