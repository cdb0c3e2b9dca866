import Mathlib.Data.List.Pairwise
import OverlayBD.Format.LsmtPair

/-!
# Replaying the log of a pair

* `Replay.Ok` — what a replay keeps: a well-formed map inside the device and the payload.
* `append_spec`, `append_eq_some` — one record assigns its run, and is accepted exactly when it fits.
* `finish_iff` — the alias check, a sort and a scan, accepts exactly the maps that use no payload sector twice.
* `load_spec` — a log that is accepted denotes the map it returns.
-/

namespace OverlayBD

open Intervals SegmentMapping Bytes

namespace Replay

/-! ### The alias check -/

theorem overlaps_eq_false_of_pairwise : ∀ {l : List (ℕ × ℕ)}, l.Pairwise (fun a b => a.2 ≤ b.1) → overlaps l = false
  | [], _ => rfl
  | [_], _ => rfl
  | a :: b :: l, h => by
    have hab : a.2 ≤ b.1 := List.rel_of_pairwise_cons h List.mem_cons_self
    rw [overlaps, overlaps_eq_false_of_pairwise h.of_cons, decide_eq_false (by omega)]
    rfl

theorem pairwise_of_overlaps_eq_false : ∀ {l : List (ℕ × ℕ)}, (∀ a ∈ l, a.1 < a.2) → overlaps l = false →
    l.Pairwise fun a b => a.2 ≤ b.1
  | [], _, _ => .nil
  | [_], _, _ => List.pairwise_singleton _ _
  | a :: b :: l, hp, h => by
    rw [overlaps, Bool.or_eq_false_iff, decide_eq_false_iff_not] at h
    have ih := pairwise_of_overlaps_eq_false (fun c hc => hp c (List.mem_cons_of_mem _ hc)) h.2
    refine List.pairwise_cons.mpr ⟨fun c hc => ?_, ih⟩
    have hb := hp b (List.mem_cons_of_mem _ List.mem_cons_self)
    rcases List.mem_cons.mp hc with rfl | hc
    · omega
    · have := List.rel_of_pairwise_cons ih hc
      omega

/-- Two runs of payload that do not meet. -/
def Apart (a b : ℕ × ℕ) : Prop := a.2 ≤ b.1 ∨ b.2 ≤ a.1

/-- Sorting brings overlapping runs next to each other. -/
theorem overlaps_mergeSort_iff {l : List (ℕ × ℕ)} (hp : ∀ a ∈ l, a.1 < a.2) :
    overlaps (l.mergeSort pairLe) = false ↔ l.Pairwise Apart := by
  have hperm := List.mergeSort_perm l pairLe
  have hp' : ∀ a ∈ l.mergeSort pairLe, a.1 < a.2 := fun a ha => hp a (hperm.mem_iff.mp ha)
  have hsymm : ∀ {a b : ℕ × ℕ}, Apart a b → Apart b a := fun h => h.symm
  refine ⟨fun h => ?_, fun h => ?_⟩
  · exact (hperm.pairwise_iff hsymm).mp ((pairwise_of_overlaps_eq_false hp' h).imp fun hab => .inl hab)
  · have hsorted : (l.mergeSort pairLe).Pairwise fun a b => pairLe a b = true := by
      refine List.pairwise_mergeSort (fun a b c hab hbc => ?_) (fun a b => ?_) l
      · simp only [pairLe, decide_eq_true_iff] at *
        omega
      · simp only [pairLe, Bool.or_eq_true, decide_eq_true_iff]
        omega
    refine overlaps_eq_false_of_pairwise ?_
    have happart := (hperm.pairwise_iff hsymm).mpr h
    refine List.Pairwise.imp_of_mem (fun {a b} ha hb hab => ?_) (hsorted.and happart)
    have h1 := hp' a ha
    have h2 := hp' b hb
    have h3 := hab.2
    simp only [pairLe, decide_eq_true_iff, Apart] at *
    omega

variable {r : Replay}

/-- **The alias check** accepts exactly the maps that use no payload sector twice. -/
theorem finish_iff (hw : IndexWf r.live) :
    r.finish = some r.live ↔ SectorMap.Exclusive (resolve r.live) := by
  have hpos : ∀ m ∈ r.live, 0 < m.length := fun m hm => length_pos_of_proper hw.proper hm
  have hmend : ∀ m : SegmentMapping, (!m.zeroed) = true → m.mend = m.moffset + m.length := fun m hm => by
    have hz : m.zeroed = false := by simpa using hm
    simp [mend, hz]
  have hproper : ∀ a ∈ r.physical, a.1 < a.2 := by
    intro a ha
    obtain ⟨m, hm, rfl⟩ := List.mem_map.mp ha
    obtain ⟨hml, hz⟩ := List.mem_filter.mp hm
    have := hpos m hml
    simp only [hmend m hz]
    omega
  have hphys : r.physical.Pairwise Apart ↔ r.live.Pairwise fun a b => (!a.zeroed) = true → (!b.zeroed) = true →
      Apart (a.moffset, a.mend) (b.moffset, b.mend) := by
    rw [physical, List.pairwise_map, List.pairwise_filter]
  -- a DATA sector of a run, and where it is mapped
  have hcover : ∀ m ∈ r.live, (!m.zeroed) = true → ∀ p, m.moffset ≤ p → p < m.mend →
      resolve r.live (m.offset + (p - m.moffset)) = some (.data p) := by
    intro m hm hz p h1 h2
    rw [hmend m hz] at h2
    rw [resolve, hw.ordered.lookup_of_mem hm (by simp only [covers_iff]; omega), place, if_neg (by simpa using hz)]
    congr 2
    omega
  have hfin : r.finish = some r.live ↔ r.physical.Pairwise Apart := by
    rw [← overlaps_mergeSort_iff hproper, finish]
    cases overlaps (r.physical.mergeSort pairLe) <;> simp
  rw [hfin, hphys]
  refine ⟨fun h x y p hx hy => ?_, fun h => ?_⟩
  · obtain ⟨s, hs, hcs, hps⟩ := exists_of_lookup_some hx
    obtain ⟨t, ht, hct, hpt⟩ := exists_of_lookup_some hy
    have hzs : s.zeroed = false := by
      cases hz : s.zeroed
      · rfl
      · simp [place, hz] at hps
    have hzt : t.zeroed = false := by
      cases hz : t.zeroed
      · rfl
      · simp [place, hz] at hpt
    simp only [place, hzs, hzt, Bool.false_eq_true, if_false, Place.data.injEq] at hps hpt
    simp only [covers_iff] at hcs hct
    by_cases hst : s = t
    · subst hst
      omega
    · have : Std.Symm fun a b : SegmentMapping => (!a.zeroed) = true → (!b.zeroed) = true →
          Apart (a.moffset, a.mend) (b.moffset, b.mend) := ⟨fun a b hab ha hb => (hab hb ha).symm⟩
      have hap := h.forall hs ht hst (by simp [hzs]) (by simp [hzt])
      simp only [Apart, hmend s (by simp [hzs]), hmend t (by simp [hzt])] at hap
      omega
  · refine List.Pairwise.imp_of_mem (fun {a b} ha hb hab hza hzb => ?_) hw.ordered
    by_contra hn
    have h1 := hpos a ha
    have h2 := hpos b hb
    simp only [Apart, not_or, not_le, hmend a hza, hmend b hzb] at hn
    have hx := hcover a ha hza (max a.moffset b.moffset) (le_max_left _ _) (by rw [hmend a hza]; omega)
    have hy := hcover b hb hzb (max a.moffset b.moffset) (le_max_right _ _) (by rw [hmend b hzb]; omega)
    have := h _ _ _ hx hy
    simp only [lo_eq, hi_eq] at hab
    omega

theorem finish_eq_some {l : List SegmentMapping} (h : r.finish = some l) : l = r.live := by
  unfold finish at h
  split_ifs at h
  exact (Option.some.inj h).symm

/-! ### One record -/

/-- What a replay keeps: a well-formed map, inside the device and inside the payload. -/
structure Ok (r : Replay) : Prop where
  index : IndexWf r.live
  logical : ∀ x, (resolve r.live x).isSome = true → x < r.sectors
  physical : ∀ x p, resolve r.live x = some (.data p) → kDataStartSector ≤ p ∧ p < r.dataSectors

/-- The record fits the device and the payload. -/
structure Within (sectors dataSectors : ℕ) (m : SegmentMapping) : Prop where
  length_pos : 0 < m.length
  length_le : m.length ≤ kMaxLength
  stop_le : m.stop ≤ sectors
  backed : m.zeroed = false → kDataStartSector ≤ m.moffset ∧ m.moffset + m.length ≤ dataSectors

@[simp] theorem place_normalize (m : SegmentMapping) (x : ℕ) : (normalize m).place x = m.place x := by
  cases hz : m.zeroed <;> simp [normalize, place, hz]

variable {m : SegmentMapping}

@[simp] theorem covers_normalize {x : ℕ} : Covers (normalize m) x ↔ Covers m x := Iff.rfl

/-- The map after a record. -/
theorem live_append (hw : IndexWf r.live) (hpos : 0 < m.length) (hlen : m.length ≤ kMaxLength) :
    IndexWf (placeSorted (eraseRange m.offset m.stop r.live) (normalize m)) ∧
      ∀ x, resolve (placeSorted (eraseRange m.offset m.stop r.live) (normalize m)) x =
        SectorMap.assign (resolve r.live) m x := by
  obtain ⟨herase, hres⟩ := eraseRange_spec hw (show m.offset ≤ m.stop from Nat.le_add_right _ _)
  obtain ⟨hplace, hput⟩ := placeSorted_spec (m := normalize m) herase hpos hlen fun x hx => by
    rw [hres x]
    exact if_pos hx
  refine ⟨hplace, fun x => ?_⟩
  rw [hput x]
  simp only [SectorMap.assign, place_normalize, covers_normalize]
  by_cases hc : Covers m x
  · rw [if_pos hc, if_pos hc]
  · rw [if_neg hc, if_neg hc, hres x, if_neg (by simpa only [covers_iff, stop] using hc)]

/-- A record keeps what a replay keeps, if it fits. -/
theorem Ok.assign {r' : Replay} (h : r.Ok) (hm : Within r.sectors r.dataSectors m)
    (hw : IndexWf r'.live) (hs : r'.sectors = r.sectors) (hd : r'.dataSectors = r.dataSectors)
    (hr : ∀ x, resolve r'.live x = SectorMap.assign (resolve r.live) m x) : r'.Ok := by
  have hstop := hm.stop_le
  simp only [stop] at hstop
  refine ⟨hw, fun x hx => ?_, fun x p hx => ?_⟩
  · rw [hr x, SectorMap.assign] at hx
    rw [hs]
    split_ifs at hx with hc
    · simp only [covers_iff] at hc
      omega
    · exact h.logical x hx
  · rw [hr x, SectorMap.assign] at hx
    rw [hd]
    split_ifs at hx with hc
    · cases hz : m.zeroed
      · obtain ⟨h1, h2⟩ := hm.backed hz
        simp only [place, hz, Bool.false_eq_true, if_false, Option.some.injEq, Place.data.injEq] at hx
        simp only [covers_iff] at hc
        omega
      · simp [place, hz] at hx
    · exact h.physical x p hx

/-- **One accepted record**: padding is skipped, anything else fits and assigns its run. -/
theorem append_spec {r' : Replay} (h : r.Ok) (hlen : m.length ≤ kMaxLength) (ha : r.append m = some r') :
    r'.Ok ∧ r'.sectors = r.sectors ∧ r'.dataSectors = r.dataSectors ∧ r'.records = r.records + 1 ∧
      ∀ x, resolve r'.live x = if m.offset = kInvalidOffset then resolve r.live x
        else SectorMap.assign (resolve r.live) m x := by
  simp only [append] at ha
  split_ifs at ha with h1 h2 h3 h4 h5
  · obtain rfl := Option.some.inj ha
    exact ⟨⟨h.index, h.logical, h.physical⟩, rfl, rfl, rfl, fun x => by rw [if_pos h2]⟩
  · obtain rfl := Option.some.inj ha
    have hm : Within r.sectors r.dataSectors m := by
      refine ⟨by omega, hlen, by simp only [stop]; omega, fun hz => ?_⟩
      have hb := not_and.mp h4 hz
      omega
    obtain ⟨hw, hr⟩ := live_append h.index hm.length_pos hlen
    exact ⟨h.assign hm hw rfl rfl hr, rfl, rfl, rfl, fun x => by rw [if_neg h2]; exact hr x⟩

/-- A record that fits is accepted while the limits allow. -/
theorem append_eq_some (hm : Within r.sectors r.dataSectors m)
    (hs : r.sectors ≤ kMaxOffset) (hcount : r.records < kMaxLogRecords)
    (hlive : (placeSorted (eraseRange m.offset m.stop r.live) (normalize m)).length ≤ kMaxRoIndexSize) :
    r.append m = some { r with
      records := r.records + 1, live := placeSorted (eraseRange m.offset m.stop r.live) (normalize m) } := by
  have h1 := hm.length_pos
  have h2 := hm.stop_le
  simp only [stop] at h2
  have h3 : m.offset ≠ kInvalidOffset := by
    rw [kInvalidOffset]
    omega
  have h4 : ¬(m.zeroed = false ∧ (m.moffset < kDataStartSector ∨ r.dataSectors ≤ m.moffset ∨
      r.dataSectors - m.moffset < m.length)) := by
    rintro ⟨hz, hb⟩
    have := hm.backed hz
    omega
  rw [append, if_neg (by omega), if_neg h3, if_neg (by omega), if_neg h4]
  exact if_neg (by omega)

/-! ### A whole log -/

/-- The records of an index file. -/
def recordsOf (index : File) (count : ℕ) : List SegmentMapping :=
  (List.range count).map fun i => loadSegmentLe (index.read (kSpace + 16 * i) 16)

theorem load_eq (virtualSize dataBytes : ℕ) (index : File) (count : ℕ) :
    load virtualSize dataBytes index count =
      (start virtualSize dataBytes).bind fun r => ((recordsOf index count).foldlM append r).bind finish := by
  simp only [recordsOf, List.foldlM_map]
  rfl

theorem length_loadSegmentLe (bs : List UInt8) : (loadSegmentLe bs).length ≤ kMaxLength := by
  have := Nat.mod_lt (leNat (bs.take 8) / 2 ^ 50) (show 0 < 2 ^ 14 by decide)
  show _ % 2 ^ 14 ≤ 2 ^ 14 - 1
  omega

theorem start_eq {v n : ℕ} (h : start v n = some r) :
    r = ⟨v / kAlignment, n / kAlignment, 0, []⟩ := by
  unfold start at h
  split_ifs at h
  exact (Option.some.inj h).symm

theorem ok_nil (sectors dataSectors records : ℕ) : Ok ⟨sectors, dataSectors, records, []⟩ :=
  ⟨⟨.nil, fun _ h => absurd h List.not_mem_nil, fun _ h => absurd h List.not_mem_nil⟩,
    fun x hx => by simp at hx, fun x p hx => by simp at hx⟩

/-- The live part of a log, the padding dropped. -/
def liveRecords (ms : List SegmentMapping) : List SegmentMapping :=
  ms.filter fun m => decide (m.offset ≠ kInvalidOffset)

theorem run_spec : ∀ {ms : List SegmentMapping} {r r' : Replay}, r.Ok → (∀ m ∈ ms, m.length ≤ kMaxLength) →
    ms.foldlM append r = some r' → r'.Ok ∧ r'.sectors = r.sectors ∧ r'.dataSectors = r.dataSectors ∧
      ∀ x, resolve r'.live x = (liveRecords ms).foldl SectorMap.assign (resolve r.live) x
  | [], r, r', h, _, hr => by
    obtain rfl := Option.some.inj hr
    exact ⟨h, rfl, rfl, fun _ => rfl⟩
  | m :: ms, r, r', h, hlen, hr => by
    rw [List.foldlM_cons] at hr
    obtain ⟨r₁, h1, h2⟩ := Option.bind_eq_some_iff.mp hr
    obtain ⟨hok, hs, hd, -, hres⟩ := append_spec h (hlen m List.mem_cons_self) h1
    obtain ⟨hok', hs', hd', hres'⟩ := run_spec hok (fun m hm => hlen m (List.mem_cons_of_mem _ hm)) h2
    refine ⟨hok', hs'.trans hs, hd'.trans hd, fun x => ?_⟩
    rw [hres' x]
    by_cases hi : m.offset = kInvalidOffset
    · have : resolve r₁.live = resolve r.live := funext fun x => by rw [hres x, if_pos hi]
      rw [this, liveRecords, liveRecords, List.filter_cons_of_neg (by simpa using hi)]
    · have : resolve r₁.live = SectorMap.assign (resolve r.live) m := funext fun x => by rw [hres x, if_neg hi]
      rw [this, liveRecords, liveRecords, List.filter_cons_of_pos (by simpa using hi), List.foldl_cons]

/-- **An accepted log** denotes the map it returns: well formed, inside the device and the payload, no
payload sector used twice. -/
theorem load_spec {v n count : ℕ} {index : File} {live : List SegmentMapping} (h : load v n index count = some live) :
    Ok ⟨v / kAlignment, n / kAlignment, count, live⟩ ∧ SectorMap.Exclusive (resolve live) ∧
      ∀ x, resolve live x = logMap (liveRecords (recordsOf index count)) x := by
  rw [load_eq] at h
  obtain ⟨r, hr, h⟩ := Option.bind_eq_some_iff.mp h
  obtain rfl := start_eq hr
  obtain ⟨r', hr', h⟩ := Option.bind_eq_some_iff.mp h
  have hlen : ∀ m ∈ recordsOf index count, m.length ≤ kMaxLength := by
    intro m hm
    obtain ⟨i, -, rfl⟩ := List.mem_map.mp hm
    exact length_loadSegmentLe _
  obtain ⟨hok, hs, hd, hres⟩ := run_spec (ok_nil _ _ _) hlen hr'
  obtain rfl := finish_eq_some h
  refine ⟨⟨hok.index, ?_, ?_⟩, (finish_iff hok.index).mp h, hres⟩
  · intro x hx
    exact hs ▸ hok.logical x hx
  · intro x p hx
    exact hd ▸ hok.physical x p hx

end Replay

end OverlayBD
