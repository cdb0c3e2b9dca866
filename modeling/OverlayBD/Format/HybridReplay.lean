import OverlayBD.Format.RecordReplay

/-!
# The end of a Hybrid replay

A ZERO record of a Hybrid log may name payload that backs it: a later write to its sectors goes there in place.  Such a
claim is worth something only if nobody else has the payload.  `hybrid::Replay::finish` settles it with one sweep over
the physical extents in the order of their starts: DATA extents that overlap are an error, and a ZERO extent that
overlaps anything loses its backing.

## The model

* `Extent`, `strays`, `physical` — the extents that take part in the sweep.
* `sweep`, `finish` — `Replay::finish`.  `std::sort` compares starts only, so where it leaves equal starts is open:
  `finish` is given some function that sorts.

## What is proved

* `sweep_spec` — the sweep sees every overlap, not only those of neighbours.
* `finish_resolves` — when a replay fails, and which ZERO extents keep their backing.
* `replay_last_writer` — both replays, from the records to the map that is returned.
-/

namespace OverlayBD

open Intervals SegmentMapping Bytes

namespace Hybrid

/-! ### The program -/

/-- `Extent` in `Replay::finish`. -/
structure Extent where
  start : ℕ
  stop : ℕ
  index : ℕ

/-- A ZERO run whose payload is not in the data file, or that has none. -/
def strays (dataSectors : ℕ) (m : SegmentMapping) : Bool :=
  m.zeroed && decide (m.moffset = kNoPhysicalOffset ∨ dataSectors < m.moffset ∨ dataSectors - m.moffset < m.length)

/-- The run without its backing. -/
def disown (m : SegmentMapping) : SegmentMapping := { m with moffset := kNoPhysicalOffset }

/-- The map after the first loop. -/
def settled (dataSectors : ℕ) (live : List SegmentMapping) : List SegmentMapping :=
  live.map fun m => if strays dataSectors m then disown m else m

/-- The extents the first loop collects. -/
def physical (dataSectors : ℕ) (live : List SegmentMapping) : List Extent :=
  (live.zipIdx.filter fun p => !strays dataSectors p.1).map fun p => ⟨p.1.moffset, p.1.moffset + p.1.length, p.2⟩

/-- The second loop. -/
def sweep : List SegmentMapping → ℕ → ℕ → List Extent → Option (List SegmentMapping)
  | result, _, _, [] => some result
  | result, priorEnd, priorDataEnd, e :: rest => do
    let m ← result[e.index]?
    if m.zeroed = false then
      if e.start < priorDataEnd then none else sweep result (max priorEnd e.stop) e.stop rest
    else if e.start < priorEnd ∨ (∃ next ∈ rest.head?, next.start < e.stop) then
      sweep (result.modify e.index disown) (max priorEnd e.stop) priorDataEnd rest
    else sweep result (max priorEnd e.stop) priorDataEnd rest

/-- `hybrid::Replay::finish`; `none` is the aliasing error. -/
def finish (sort : List Extent → List Extent) (r : Replay) : Option (List SegmentMapping) :=
  sweep (settled r.dataSectors r.live) 0 0 (sort (physical r.dataSectors r.live))

/-- Sorting by start. -/
def SortsByStart (sort : List Extent → List Extent) : Prop :=
  ∀ l, (sort l).Perm l ∧ (sort l).Pairwise fun a b => a.start ≤ b.start

/-! ### The sweep -/

/-- Two extents share a sector. -/
def Extent.Meets (e f : Extent) : Prop := e.start < f.stop ∧ f.start < e.stop

/-- An extent of a DATA run, by the flags of the runs. -/
def Extent.isData (flags : List Bool) (e : Extent) : Bool := flags[e.index]? == some false

/-- A ZERO extent that shares a sector with another extent. -/
def Extent.Loses (flags : List Bool) (all : List Extent) (e : Extent) : Prop :=
  e.isData flags = false ∧ ∃ f ∈ all, f.index ≠ e.index ∧ e.Meets f

/-- What the sweep has behind it and before it. -/
structure Swept (flags : List Bool) (done todo : List Extent) (result : List SegmentMapping)
    (priorEnd priorDataEnd : ℕ) : Prop where
  sorted : (done ++ todo).Pairwise fun a b => a.start ≤ b.start
  proper : ∀ e ∈ done ++ todo, e.start < e.stop
  distinct : (done ++ todo).Pairwise fun a b => a.index ≠ b.index
  inside : ∀ e ∈ done ++ todo, e.index < flags.length
  kinds : result.map zeroed = flags
  lastEnd : ∀ y, y < priorEnd ↔ ∃ d ∈ done, y < d.stop
  lastDataEnd : ∀ y, y < priorDataEnd ↔ ∃ d ∈ done, d.isData flags = true ∧ y < d.stop
  clear : (done.filter (Extent.isData flags)).Pairwise fun a b => a.stop ≤ b.start

namespace Swept

variable {flags : List Bool} {done todo rest : List Extent} {e : Extent} {result : List SegmentMapping}
  {priorEnd priorDataEnd : ℕ}

theorem getElem?_modify_self (l : List SegmentMapping) (i : ℕ) : (l.modify i disown)[i]? = (l[i]?).map disown := by
  simp

theorem getElem?_modify_ne (l : List SegmentMapping) {i j : ℕ} (h : i ≠ j) : (l.modify i disown)[j]? = l[j]? := by
  simp [h]

theorem map_zeroed_modify (l : List SegmentMapping) (i : ℕ) : (l.modify i disown).map zeroed = l.map zeroed := by
  refine List.ext_getElem? fun j => ?_
  rw [List.getElem?_map, List.getElem?_map]
  rcases eq_or_ne i j with rfl | hij
  · rw [getElem?_modify_self]
    cases l[i]? <;> rfl
  · rw [getElem?_modify_ne l hij]

/-- The run at an extent, and its kind. -/
theorem exists_run (h : Swept flags done (e :: rest) result priorEnd priorDataEnd) :
    ∃ m, result[e.index]? = some m ∧ (m.zeroed = false ↔ e.isData flags = true) := by
  have hlt : e.index < result.length := by
    rw [← List.length_map (f := zeroed), h.kinds]
    exact h.inside e (List.mem_append_right _ List.mem_cons_self)
  refine ⟨result[e.index], List.getElem?_eq_getElem hlt, ?_⟩
  unfold Extent.isData
  rw [← h.kinds, List.getElem?_map, List.getElem?_eq_getElem hlt]
  simp

/-- Passing an extent. -/
theorem pass (h : Swept flags done (e :: rest) result priorEnd priorDataEnd) {result' : List SegmentMapping}
    {dataEnd : ℕ} (hkinds : result'.map zeroed = flags)
    (hdata : ∀ y, y < dataEnd ↔ ∃ d ∈ done ++ [e], d.isData flags = true ∧ y < d.stop)
    (hclear : ((done ++ [e]).filter (Extent.isData flags)).Pairwise fun a b => a.stop ≤ b.start) :
    Swept flags (done ++ [e]) rest result' (max priorEnd e.stop) dataEnd := by
  have happ : done ++ [e] ++ rest = done ++ e :: rest := by simp
  refine ⟨happ ▸ h.sorted, happ ▸ h.proper, happ ▸ h.distinct, happ ▸ h.inside, hkinds, fun y => ?_, hdata, hclear⟩
  rw [lt_max_iff, h.lastEnd y]
  simp [or_and_right, exists_or]

/-- The two tests of the sweep find every extent that shares a sector. -/
theorem meets_iff (h : Swept flags done (e :: rest) result priorEnd priorDataEnd) :
    (e.start < priorEnd ∨ ∃ next ∈ rest.head?, next.start < e.stop) ↔
      ∃ f ∈ done ++ e :: rest, f.index ≠ e.index ∧ e.Meets f := by
  obtain ⟨-, hsrest, hsdone⟩ := List.pairwise_append.mp h.sorted
  obtain ⟨-, hdrest, hddone⟩ := List.pairwise_append.mp h.distinct
  have hprop : ∀ f ∈ done ++ e :: rest, f.start < f.stop := h.proper
  have he := hprop e (List.mem_append_right _ List.mem_cons_self)
  rw [h.lastEnd]
  constructor
  · rintro (⟨d, hd, hlt⟩ | ⟨next, hnext, hlt⟩)
    · have hle := hsdone d hd e List.mem_cons_self
      exact ⟨d, List.mem_append_left _ hd, hddone d hd e List.mem_cons_self, hlt, by omega⟩
    · have hmem : next ∈ rest := List.mem_of_mem_head? hnext
      have hle := List.rel_of_pairwise_cons hsrest hmem
      have hp := hprop next (List.mem_append_right _ (List.mem_cons_of_mem _ hmem))
      exact ⟨next, List.mem_append_right _ (List.mem_cons_of_mem _ hmem),
        (List.rel_of_pairwise_cons hdrest hmem).symm, by omega, hlt⟩
  · rintro ⟨f, hf, hne, hlt, hlt'⟩
    rcases List.mem_append.mp hf with hf | hf
    · exact .inl ⟨f, hf, hlt⟩
    · rcases List.mem_cons.mp hf with rfl | hf
      · exact absurd rfl hne
      · -- the next extent starts no later than the one that is met
        right
        cases rest with
        | nil => exact absurd hf List.not_mem_nil
        | cons next rest =>
          refine ⟨next, rfl, ?_⟩
          rcases List.mem_cons.mp hf with rfl | hf
          · exact hlt'
          · have := List.rel_of_pairwise_cons hsrest.of_cons hf
            omega

/-- **The sweep** fails exactly if two DATA extents overlap, and takes the backing of exactly the ZERO extents that
share a sector. -/
theorem spec (h : Swept flags done todo result priorEnd priorDataEnd) :
    (((done ++ todo).filter (Extent.isData flags)).Pairwise (fun a b => a.stop ≤ b.start) →
      ∃ l, sweep result priorEnd priorDataEnd todo = some l ∧
        ∀ i, ((∃ e ∈ todo, e.index = i ∧ e.Loses flags (done ++ todo)) → l[i]? = (result[i]?).map disown) ∧
          ((∀ e ∈ todo, e.index = i → ¬ e.Loses flags (done ++ todo)) → l[i]? = result[i]?)) ∧
    (¬ ((done ++ todo).filter (Extent.isData flags)).Pairwise (fun a b => a.stop ≤ b.start) →
      sweep result priorEnd priorDataEnd todo = none) := by
  induction todo generalizing done result priorEnd priorDataEnd with
  | nil =>
    rw [List.append_nil]
    refine ⟨fun _ => ⟨result, rfl, fun i => ⟨fun hex => ?_, fun _ => rfl⟩⟩, fun hn => absurd h.clear hn⟩
    obtain ⟨e, he, -⟩ := hex
    exact absurd he List.not_mem_nil
  | cons e rest ih =>
    obtain ⟨m, hm, hkind⟩ := h.exists_run
    have happ : done ++ [e] ++ rest = done ++ e :: rest := by simp
    have hother : ∀ f ∈ rest, f.index ≠ e.index := fun f hf =>
      (List.rel_of_pairwise_cons (List.pairwise_append.mp h.distinct).2.1 hf).symm
    have hval : sweep result priorEnd priorDataEnd (e :: rest) =
        if m.zeroed = false then
          if e.start < priorDataEnd then none else sweep result (max priorEnd e.stop) e.stop rest
        else if e.start < priorEnd ∨ (∃ next ∈ rest.head?, next.start < e.stop) then
          sweep (result.modify e.index disown) (max priorEnd e.stop) priorDataEnd rest
        else sweep result (max priorEnd e.stop) priorDataEnd rest := by
      rw [sweep, hm]
      rfl
    rw [hval]
    by_cases hdata : e.isData flags = true
    · rw [if_pos (hkind.mpr hdata)]
      by_cases halias : e.start < priorDataEnd
      · -- it starts inside a DATA extent behind
        rw [if_pos halias]
        refine ⟨fun hp => ?_, fun _ => rfl⟩
        obtain ⟨d, hd, hdd, hlt⟩ := (h.lastDataEnd _).mp halias
        rw [List.filter_append, List.pairwise_append] at hp
        have := hp.2.2 d (List.mem_filter.mpr ⟨hd, hdd⟩) e (List.mem_filter.mpr ⟨List.mem_cons_self, hdata⟩)
        omega
      · rw [if_neg halias]
        have hbehind : ∀ d ∈ done, d.isData flags = true → d.stop ≤ e.start := by
          intro d hd hdd
          by_contra hlt
          exact halias ((h.lastDataEnd _).mpr ⟨d, hd, hdd, by omega⟩)
        have he := h.proper e (List.mem_append_right _ List.mem_cons_self)
        have hnext : Swept flags (done ++ [e]) rest result (max priorEnd e.stop) e.stop := by
          refine h.pass h.kinds (fun y => ?_) ?_
          · constructor
            · intro hy
              exact ⟨e, List.mem_append_right _ (List.mem_singleton_self e), hdata, hy⟩
            · rintro ⟨d, hd, hdd, hy⟩
              rcases List.mem_append.mp hd with hd | hd
              · have := hbehind d hd hdd
                omega
              · rwa [List.mem_singleton.mp hd] at hy
          · rw [List.filter_append, List.pairwise_append]
            refine ⟨h.clear, List.Pairwise.filter _ (List.pairwise_singleton _ e), fun d hd f hf => ?_⟩
            obtain ⟨hd, hdd⟩ := List.mem_filter.mp hd
            rw [List.mem_singleton.mp (List.mem_filter.mp hf).1]
            exact hbehind d hd hdd
        obtain ⟨hyes, hno⟩ := ih hnext
        rw [happ] at hyes hno
        refine ⟨fun hp => ?_, hno⟩
        obtain ⟨l, hl, hchar⟩ := hyes hp
        refine ⟨l, hl, fun i => ⟨fun hex => (hchar i).1 ?_, fun hall => (hchar i).2 fun f hf => ?_⟩⟩
        · obtain ⟨f, hf, hfi, hlose⟩ := hex
          rcases List.mem_cons.mp hf with rfl | hf
          · exact absurd (hdata.symm.trans hlose.1) (by decide)
          · exact ⟨f, hf, hfi, hlose⟩
        · exact hall f (List.mem_cons_of_mem _ hf)
    · rw [if_neg (fun hz => hdata (hkind.mp hz))]
      have hzero : e.isData flags = false := by simpa using hdata
      have hnext : ∀ result', result'.map zeroed = flags →
          Swept flags (done ++ [e]) rest result' (max priorEnd e.stop) priorDataEnd := by
        intro result' hk
        refine h.pass hk (fun y => ?_) ?_
        · rw [h.lastDataEnd y]
          simp [or_and_right, exists_or, hzero]
        · rw [List.filter_append]
          simpa [hzero] using h.clear
      by_cases hmeet : e.start < priorEnd ∨ ∃ next ∈ rest.head?, next.start < e.stop
      · rw [if_pos hmeet]
        have hlose : e.Loses flags (done ++ e :: rest) := ⟨hzero, h.meets_iff.mp hmeet⟩
        obtain ⟨hyes, hno⟩ := ih (hnext _ ((map_zeroed_modify _ _).trans h.kinds))
        rw [happ] at hyes hno
        refine ⟨fun hp => ?_, hno⟩
        obtain ⟨l, hl, hchar⟩ := hyes hp
        refine ⟨l, hl, fun i => ?_⟩
        rcases eq_or_ne e.index i with rfl | hne
        · have hsame : l[e.index]? = (result.modify e.index disown)[e.index]? :=
            (hchar e.index).2 fun f hf hfi => absurd hfi (hother f hf)
          rw [getElem?_modify_self] at hsame
          exact ⟨fun _ => hsame, fun hall => absurd hlose (hall e List.mem_cons_self rfl)⟩
        · obtain ⟨h1, h2⟩ := hchar i
          rw [getElem?_modify_ne result hne] at h1 h2
          refine ⟨fun hex => h1 ?_, fun hall => h2 fun f hf => hall f (List.mem_cons_of_mem _ hf)⟩
          obtain ⟨f, hf, hfi, hfl⟩ := hex
          rcases List.mem_cons.mp hf with rfl | hf
          · exact absurd hfi hne
          · exact ⟨f, hf, hfi, hfl⟩
      · rw [if_neg hmeet]
        have hkeep : ¬ e.Loses flags (done ++ e :: rest) := fun hl => hmeet (h.meets_iff.mpr hl.2)
        obtain ⟨hyes, hno⟩ := ih (hnext _ h.kinds)
        rw [happ] at hyes hno
        refine ⟨fun hp => ?_, hno⟩
        obtain ⟨l, hl, hchar⟩ := hyes hp
        refine ⟨l, hl, fun i => ⟨fun hex => (hchar i).1 ?_, fun hall => (hchar i).2 fun f hf => ?_⟩⟩
        · obtain ⟨f, hf, hfi, hfl⟩ := hex
          rcases List.mem_cons.mp hf with rfl | hf
          · exact absurd hfl hkeep
          · exact ⟨f, hf, hfi, hfl⟩
        · exact hall f (List.mem_cons_of_mem _ hf)

end Swept

/-! ### Which ZERO runs keep their backing -/

/-- What a replay knows of a run it keeps. -/
structure Owned (dataSectors : ℕ) (m : SegmentMapping) : Prop where
  sane : Sane m
  start_le : kDataStartSector ≤ m.moffset
  backed : m.zeroed = false → m.moffset + m.length ≤ dataSectors

/-- The payload the run names lies in the data area of the file. -/
def InArea (dataSectors : ℕ) (m : SegmentMapping) : Prop :=
  kDataStartSector ≤ m.moffset ∧ m.moffset + m.length ≤ dataSectors

instance (dataSectors : ℕ) (m : SegmentMapping) : Decidable (InArea dataSectors m) :=
  inferInstanceAs (Decidable (_ ∧ _))

/-- The payloads two runs name share a sector. -/
def Overlap (m m' : SegmentMapping) : Prop :=
  m.moffset < m'.moffset + m'.length ∧ m'.moffset < m.moffset + m.length

instance (m m' : SegmentMapping) : Decidable (Overlap m m') := inferInstanceAs (Decidable (_ ∧ _))

/-- The run's payload is in the data area, and no other run of the map names a sector of it: no DATA run, and no ZERO
run whose payload is in the data area. -/
def Exclusive (dataSectors : ℕ) (live : List SegmentMapping) (m : SegmentMapping) : Prop :=
  InArea dataSectors m ∧
    ∀ m' ∈ live, m' ≠ m → (m'.zeroed = false ∨ InArea dataSectors m') → ¬ Overlap m m'

instance (dataSectors : ℕ) (live : List SegmentMapping) (m : SegmentMapping) :
    Decidable (Exclusive dataSectors live m) := inferInstanceAs (Decidable (_ ∧ _))

section Finish

variable {dataSectors : ℕ} {live : List SegmentMapping} {m m' : SegmentMapping}

theorem strays_eq_false_iff (hm : Owned dataSectors m) (hd : dataSectors < kNoPhysicalOffset) :
    strays dataSectors m = false ↔ m.zeroed = false ∨ InArea dataSectors m := by
  have h8 := hm.start_le
  unfold strays InArea
  cases m.zeroed with
  | false => simp
  | true =>
    simp only [Bool.true_and, decide_eq_false_iff_not, Bool.true_eq_false, false_or]
    omega

theorem mem_physical {e : Extent} : e ∈ physical dataSectors live ↔
    ∃ m, live[e.index]? = some m ∧ strays dataSectors m = false ∧ e.start = m.moffset ∧
      e.stop = m.moffset + m.length := by
  unfold physical
  rw [List.mem_map]
  constructor
  · rintro ⟨⟨m, i⟩, hp, rfl⟩
    obtain ⟨hmem, hs⟩ := List.mem_filter.mp hp
    exact ⟨m, List.mem_zipIdx_iff_getElem?.mp hmem, by simpa using hs, rfl, rfl⟩
  · rintro ⟨m, hi, hs, h1, h2⟩
    refine ⟨(m, e.index), List.mem_filter.mpr ⟨List.mem_zipIdx_iff_getElem?.mpr hi, by simpa using hs⟩, ?_⟩
    obtain ⟨start, stop, index⟩ := e
    obtain ⟨rfl, rfl⟩ := And.intro h1 h2
    rfl

theorem nodup_of_tidy {P : SegmentMapping → Prop} (h : Tidy P live) : live.Nodup := by
  refine List.Pairwise.imp_of_mem (fun {a b} ha _ hab => ?_) h.ordered
  rintro rfl
  have := h.proper a ha
  omega

/-- Different entries of a map are different runs. -/
theorem index_eq_iff {P : SegmentMapping → Prop} (h : Tidy P live) {i j : ℕ} (hi : live[i]? = some m)
    (hj : live[j]? = some m') : i = j ↔ m = m' := by
  obtain ⟨hi', rfl⟩ := List.getElem?_eq_some_iff.mp hi
  obtain ⟨hj', rfl⟩ := List.getElem?_eq_some_iff.mp hj
  exact (nodup_of_tidy h).getElem_inj_iff.symm

theorem indices_physical (dataSectors : ℕ) (live : List SegmentMapping) :
    (physical dataSectors live).Pairwise fun a b => a.index ≠ b.index := by
  unfold physical
  rw [List.pairwise_map]
  refine List.Pairwise.filter _ ?_
  have : (live.zipIdx.map Prod.snd).Nodup := by
    rw [List.zipIdx_map_snd]
    exact List.nodup_range'
  exact List.pairwise_map.mp this

/-- The sweep starts. -/
theorem swept_start (hl : Tidy (Owned dataSectors) live) {sort : List Extent → List Extent} (hsort : SortsByStart sort) :
    Swept (live.map zeroed) [] (sort (physical dataSectors live)) (settled dataSectors live) 0 0 := by
  obtain ⟨hperm, hsorted⟩ := hsort (physical dataSectors live)
  refine ⟨hsorted, fun e he => ?_, ?_, fun e he => ?_, ?_, fun y => by simp, fun y => by simp, .nil⟩
  · obtain ⟨m, hi, -, h1, h2⟩ := mem_physical.mp (hperm.mem_iff.mp he)
    have := hl.proper m (List.mem_of_getElem? hi)
    simp only [lo_eq, hi_eq] at this
    omega
  · exact (hperm.pairwise_iff fun h => h.symm).mpr (indices_physical dataSectors live)
  · obtain ⟨m, hi, -⟩ := mem_physical.mp (hperm.mem_iff.mp he)
    obtain ⟨hlt, -⟩ := List.getElem?_eq_some_iff.mp hi
    rwa [List.length_map]
  · rw [settled, List.map_map]
    refine List.map_congr_left fun m _ => ?_
    simp only [Function.comp]
    split_ifs <;> rfl

theorem isData_iff {e : Extent} (hi : live[e.index]? = some m) :
    e.isData (live.map zeroed) = true ↔ m.zeroed = false := by
  unfold Extent.isData
  rw [List.getElem?_map, hi]
  simp

/-- The order of the sweep makes DATA extents that do not overlap follow each other. -/
theorem pairwise_data_iff (hl : Tidy (Owned dataSectors) live) {sort : List Extent → List Extent}
    (hsort : SortsByStart sort) :
    ((sort (physical dataSectors live)).filter (Extent.isData (live.map zeroed))).Pairwise
        (fun a b => a.stop ≤ b.start) ↔
      ∀ m ∈ live, ∀ m' ∈ live, m ≠ m' → m.zeroed = false → m'.zeroed = false → ¬ Overlap m m' := by
  have hs := swept_start hl hsort
  obtain ⟨hperm, -⟩ := hsort (physical dataSectors live)
  constructor
  · intro hp m hm m' hm' hne hz hz' hov
    obtain ⟨i, hi⟩ := List.mem_iff_getElem?.mp hm
    obtain ⟨j, hj⟩ := List.mem_iff_getElem?.mp hm'
    have hmem : ∀ {k : ℕ} {s : SegmentMapping}, live[k]? = some s → s.zeroed = false →
        (⟨s.moffset, s.moffset + s.length, k⟩ : Extent) ∈
          (sort (physical dataSectors live)).filter (Extent.isData (live.map zeroed)) := by
      intro k s hk hzs
      refine List.mem_filter.mpr ⟨hperm.mem_iff.mpr (mem_physical.mpr ⟨s, hk, ?_, rfl, rfl⟩), (isData_iff hk).mpr hzs⟩
      simp [strays, hzs]
    have hsymm : Std.Symm fun a b : Extent => a.stop ≤ b.start ∨ b.stop ≤ a.start := ⟨fun a b h => h.symm⟩
    have hap := (hp.imp fun h => Or.inl h : List.Pairwise (fun a b : Extent => a.stop ≤ b.start ∨ b.stop ≤ a.start) _)
    have hne' : (⟨m.moffset, m.moffset + m.length, i⟩ : Extent) ≠ ⟨m'.moffset, m'.moffset + m'.length, j⟩ := by
      intro heq
      exact hne ((index_eq_iff hl hi hj).mp (congrArg Extent.index heq))
    have := hap.forall (hmem hi hz) (hmem hj hz') hne'
    unfold Overlap at hov
    simp only at this
    omega
  · intro hfree
    refine List.Pairwise.imp_of_mem (fun {a b} ha hb hab => ?_) ((hs.sorted.and hs.distinct).filter _)
    obtain ⟨ha, hda⟩ := List.mem_filter.mp ha
    obtain ⟨hb, hdb⟩ := List.mem_filter.mp hb
    have hpa := hs.proper a ha
    have hpb := hs.proper b hb
    obtain ⟨m, hi, -, h1, h2⟩ := mem_physical.mp (hperm.mem_iff.mp ha)
    obtain ⟨m', hj, -, h3, h4⟩ := mem_physical.mp (hperm.mem_iff.mp hb)
    have hne : m ≠ m' := fun heq => hab.2 ((index_eq_iff hl hi hj).mpr heq)
    have := hfree m (List.mem_of_getElem? hi) m' (List.mem_of_getElem? hj) hne ((isData_iff hi).mp hda)
      ((isData_iff hj).mp hdb)
    have hle := hab.1
    unfold Overlap at this
    omega

/-- The extents that lose their backing, in terms of the runs. -/
theorem loses_iff (hl : Tidy (Owned dataSectors) live) {all : List Extent} (hperm : all.Perm (physical dataSectors live))
    {e : Extent} (he : e ∈ all) (hi : live[e.index]? = some m) :
    e.Loses (live.map zeroed) all ↔ m.zeroed = true ∧
      ∃ m' ∈ live, m' ≠ m ∧ strays dataSectors m' = false ∧ Overlap m m' := by
  obtain ⟨m₁, hi₁, -, h1, h2⟩ := mem_physical.mp (hperm.mem_iff.mp he)
  obtain rfl : m = m₁ := Option.some.inj (hi.symm.trans hi₁)
  have hdata : e.isData (live.map zeroed) = false ↔ m.zeroed = true := by
    rw [← Bool.not_eq_true, isData_iff hi, Bool.not_eq_false]
  unfold Extent.Loses
  rw [hdata]
  refine and_congr_right fun _ => ⟨?_, ?_⟩
  · rintro ⟨f, hf, hne, hm⟩
    obtain ⟨m', hj, hs, h3, h4⟩ := mem_physical.mp (hperm.mem_iff.mp hf)
    refine ⟨m', List.mem_of_getElem? hj, fun heq => hne ((index_eq_iff hl hj hi).mpr heq), hs, ?_⟩
    unfold Extent.Meets at hm
    unfold Overlap
    omega
  · rintro ⟨m', hm', hne, hs, hov⟩
    obtain ⟨j, hj⟩ := List.mem_iff_getElem?.mp hm'
    refine ⟨⟨m'.moffset, m'.moffset + m'.length, j⟩,
      hperm.mem_iff.mpr (mem_physical.mpr ⟨m', hj, hs, rfl, rfl⟩), ?_, ?_⟩
    · exact fun heq => hne ((index_eq_iff hl hj hi).mp heq)
    · unfold Overlap at hov
      unfold Extent.Meets
      simp only
      omega

theorem exclusive_iff (hl : Tidy (Owned dataSectors) live) (hd : dataSectors < kNoPhysicalOffset) (m : SegmentMapping) :
    Exclusive dataSectors live m ↔ InArea dataSectors m ∧
      ¬ ∃ m' ∈ live, m' ≠ m ∧ strays dataSectors m' = false ∧ Overlap m m' := by
  unfold Exclusive
  refine and_congr_right fun _ => ⟨?_, ?_⟩
  · rintro h ⟨m', hm', hne, hs, hov⟩
    exact h m' hm' hne ((strays_eq_false_iff (hl.all m' hm') hd).mp hs) hov
  · intro h m' hm' hne hs hov
    exact h ⟨m', hm', hne, (strays_eq_false_iff (hl.all m' hm') hd).mpr hs, hov⟩

/-- What the two loops make of one run: it strays and the first takes its backing, or it has an extent and the second
takes it if the extent loses it. -/
theorem settled_iff (hl : Tidy (Owned dataSectors) live) (hd : dataSectors < kNoPhysicalOffset) (hm : m ∈ live) :
    (m.zeroed = true ∧ ¬ Exclusive dataSectors live m) ↔ strays dataSectors m = true ∨
      (m.zeroed = true ∧ ∃ m' ∈ live, m' ≠ m ∧ strays dataSectors m' = false ∧ Overlap m m') := by
  have harea := strays_eq_false_iff (hl.all m hm) hd
  rw [exclusive_iff hl hd]
  cases hst : strays dataSectors m with
  | true =>
    have hno : ¬ (m.zeroed = false ∨ InArea dataSectors m) := fun h => absurd ((harea.mpr h).symm.trans hst) nofun
    rw [not_or] at hno
    exact iff_of_true ⟨by simpa using hno.1, fun h => hno.2 h.1⟩ (.inl rfl)
  | false =>
    rw [or_iff_right Bool.false_ne_true]
    refine and_congr_right fun hz => ?_
    have hin : InArea dataSectors m := (harea.mp hst).resolve_left (by simp [hz])
    rw [not_and_not_right]
    exact ⟨fun h => h hin, fun h _ => h⟩

/-- **The end of a replay** of a map whose runs are as a replay leaves them. -/
theorem finish_spec {r : Replay} (hl : Tidy (Owned r.dataSectors) r.live) (hd : r.dataSectors < kNoPhysicalOffset)
    {sort : List Extent → List Extent} (hsort : SortsByStart sort) :
    finish sort r =
      if ∀ m ∈ r.live, ∀ m' ∈ r.live, m ≠ m' → m.zeroed = false → m'.zeroed = false → ¬ Overlap m m' then
        some (r.live.map fun m =>
          if m.zeroed = true ∧ ¬ Exclusive r.dataSectors r.live m then disown m else m)
      else none := by
  obtain ⟨hyes, hno⟩ := (swept_start hl hsort).spec
  obtain ⟨hperm, -⟩ := hsort (physical r.dataSectors r.live)
  rw [List.nil_append, pairwise_data_iff hl hsort] at hyes hno
  split_ifs with hfree
  case neg => exact hno hfree
  obtain ⟨l, hval, hchar⟩ := hyes hfree
  refine hval.trans (congrArg some (List.ext_getElem? fun i => ?_))
  have hset : (settled r.dataSectors r.live)[i]? =
      (r.live[i]?).map fun m => if strays r.dataSectors m then disown m else m := List.getElem?_map
  -- an extent with this index is the extent of the run there
  have hextent : ∀ e ∈ sort (physical r.dataSectors r.live), e.index = i →
      ∃ m, r.live[i]? = some m ∧ strays r.dataSectors m = false := by
    rintro e he rfl
    obtain ⟨m, hm, hs, -⟩ := mem_physical.mp (hperm.mem_iff.mp he)
    exact ⟨m, hm, hs⟩
  rw [List.getElem?_map]
  cases hi : r.live[i]? with
  | none =>
    rw [(hchar i).2 fun e he hei => ?_, hset, hi]
    · rfl
    · obtain ⟨m, hm, -⟩ := hextent e he hei
      exact absurd (hm.symm.trans hi) nofun
  | some m =>
    rw [hi] at hset
    simp only [Option.map_some, settled_iff hl hd (List.mem_of_getElem? hi)] at hset ⊢
    cases hst : strays r.dataSectors m with
    | true =>
      rw [(hchar i).2 fun e he hei => ?_, hset, hst]
      · simp
      · obtain ⟨m', hm', hs⟩ := hextent e he hei
        obtain rfl : m = m' := Option.some.inj (hi.symm.trans hm')
        exact absurd (hst.symm.trans hs) nofun
    | false =>
      rw [hst] at hset
      have hmine : (⟨m.moffset, m.moffset + m.length, i⟩ : Extent) ∈ sort (physical r.dataSectors r.live) :=
        hperm.mem_iff.mpr (mem_physical.mpr ⟨m, hi, hst, rfl, rfl⟩)
      simp only [Bool.false_eq_true, false_or]
      split_ifs with hlose
      · rw [(hchar i).1 ⟨_, hmine, rfl, (loses_iff hl hperm hmine hi).mpr hlose⟩, hset]
        rfl
      · rw [(hchar i).2 fun e he hei hl' => hlose ((loses_iff hl hperm he (hei ▸ hi)).mp hl'), hset]
        rfl

/-! ### From the records -/

theorem cut_owned : cut.Lawful (Owned dataSectors) place where
  lo_left := cut_lawful.lo_left
  hi_left := cut_lawful.hi_left
  lo_right := cut_lawful.lo_right
  hi_right := cut_lawful.hi_right
  all_left {s k} hs h h' := by
    refine ⟨cut_lawful.all_left hs.sane h h', hs.start_le, fun hz => ?_⟩
    have := hs.backed hz
    simp only [hi_eq, lo_eq, cut] at *
    omega
  all_right {s k} hs h h' := by
    refine ⟨cut_lawful.all_right hs.sane h h', ?_, fun hz => ?_⟩
    · have := hs.start_le
      simp only [cut, suffix]
      split_ifs <;> omega
    · have := hs.backed hz
      simp only [hi_eq, lo_eq] at h h'
      simp only [cut, suffix]
      split_ifs <;> omega
  left hs := cut_lawful.left hs.sane
  right hs := cut_lawful.right hs.sane

theorem owned_of_keep {sectors : ℕ} (hd : dataSectors ≤ kMaxMoffset) (hlen : m.length ≤ kMaxLength)
    (h : rules.judge sectors dataSectors m = .keep m') : Owned dataSectors m' := by
  refine ⟨rules_lawful.sane hd hlen h, ?_, ?_⟩
  · simp only [rules, judge] at h
    split_ifs at h with h1 h2 h3 h4 h5 h6
    · cases h
      show kDataStartSector ≤ m.moffset
      rcases eq_or_ne m.moffset kNoPhysicalOffset with heq | hne
      · rw [heq]
        decide
      · have := not_and.mp h5 hne
        omega
    · cases h
      show kDataStartSector ≤ m.moffset
      omega
  · simp only [rules, judge] at h
    split_ifs at h with h1 h2 h3 h4 h5 h6
    · cases h
      exact fun hz => absurd (hz.symm.trans h4) Bool.false_ne_true
    · cases h
      intro _
      show m.moffset + m.length ≤ dataSectors
      omega

/-- What `hybrid::Replay` skips. -/
def padding (m : SegmentMapping) : Bool := decide (m = ⟨kInvalidOffset, 0, 0, false, 0⟩)

/-- The record fits the device, a DATA record the payload, and a ZERO record has no backing or names one from the start
of the payload to its end. -/
structure Within (sectors dataSectors : ℕ) (m : SegmentMapping) : Prop where
  length_pos : 0 < m.length
  stop_le : m.stop ≤ sectors
  backed : m.zeroed = false → kDataStartSector ≤ m.moffset ∧ m.moffset + m.length ≤ dataSectors
  marker : m.zeroed = true →
    m.moffset = kNoPhysicalOffset ∨ (kDataStartSector ≤ m.moffset ∧ m.moffset ≤ dataSectors)

theorem judge_skip_iff {sectors : ℕ} (m : SegmentMapping) :
    rules.judge sectors dataSectors m = .skip ↔ padding m = true := by
  obtain ⟨offset, length, moffset, zeroed, tag⟩ := m
  simp only [rules, judge, padding, decide_eq_true_iff, SegmentMapping.mk.injEq]
  constructor
  · intro h
    split_ifs at h with h1 h2
    simp only [not_or] at h2
    exact ⟨h1.1, h1.2, by omega, by simpa using h2.2.1, by omega⟩
  · rintro ⟨rfl, rfl, rfl, rfl, rfl⟩
    simp

theorem judge_reject_iff {sectors : ℕ} (m : SegmentMapping) :
    rules.judge sectors dataSectors m ≠ .reject ↔ padding m = true ∨ Within sectors dataSectors m := by
  constructor
  · intro h
    cases hj : rules.judge sectors dataSectors m with
    | skip => exact .inl ((judge_skip_iff m).mp hj)
    | reject => exact absurd hj h
    | keep m' =>
      right
      simp only [rules, judge] at hj
      split_ifs at hj with h1 h2 h3 h4 h5 h6
      · refine ⟨by omega, by simp only [stop]; omega, fun hz => ?_, fun _ => by omega⟩
        exact absurd (hz.symm.trans h4) Bool.false_ne_true
      · exact ⟨by omega, by simp only [stop]; omega, fun _ => by omega, fun hz => absurd hz h4⟩
  · rintro (h | h)
    · rw [(judge_skip_iff m).mpr h]
      rintro ⟨⟩
    · have hpos := h.length_pos
      have hstop := h.stop_le
      simp only [stop] at hstop
      simp only [rules, judge]
      rw [if_neg (by omega), if_neg (by omega)]
      by_cases hz : m.zeroed = true
      · have := h.marker hz
        rw [if_pos hz, if_neg (by omega)]
        rintro ⟨⟩
      · have := h.backed (by simpa using hz)
        rw [if_neg hz, if_neg (by omega)]
        rintro ⟨⟩

end Finish

variable {dataSectors sectors : ℕ} {chunks : List (List UInt8)} {r : Replay}

/-- The map a replay has after its records. -/
theorem live_owned (hd : dataSectors ≤ kMaxMoffset) (hchunks : ∀ chunk ∈ chunks, chunk.length % kEncodedSize = 0)
    (hr : chunks.foldlM (Replay.appendChunk rules) ⟨sectors, dataSectors, 0, []⟩ = some r) :
    r.dataSectors = dataSectors ∧ Tidy (Owned dataSectors) r.live := by
  obtain ⟨⟨-, hdata, hlive⟩, -⟩ :=
    (rules_lawful.chunks hd judge_skip_iff (fun m _ => judge_reject_iff m) hchunks).2 r hr
  have hpast : Past sectors _ := past_recordsIn rules_lawful hd chunks.flatten
  rw [hlive]
  refine ⟨hdata, (lookup_history cut_owned hpast.proper fun s hs => ?_).1⟩
  obtain ⟨m, hm, hkeep⟩ := List.mem_filterMap.mp (List.mem_reverse.mp hs)
  split at hkeep
  next m' hj =>
    obtain rfl := Option.some.inj hkeep
    exact owned_of_keep hd (length_of_mem_recordsIn hm) hj
  next => cases hkeep

/-- The end of a replay of chunks. -/
theorem finish_chunks (hd : dataSectors < kMaxMoffset) (hchunks : ∀ chunk ∈ chunks, chunk.length % kEncodedSize = 0)
    (hr : chunks.foldlM (Replay.appendChunk rules) ⟨sectors, dataSectors, 0, []⟩ = some r)
    {sort : List Extent → List Extent} (hsort : SortsByStart sort) :
    finish sort r =
      if ∀ m ∈ r.live, ∀ m' ∈ r.live, m ≠ m' → m.zeroed = false → m'.zeroed = false → ¬ Overlap m m' then
        some (r.live.map fun m => if m.zeroed = true ∧ ¬ Exclusive dataSectors r.live m then disown m else m)
      else none := by
  obtain ⟨hdata, htidy⟩ := live_owned hd.le hchunks hr
  have hspec := finish_spec (r := r) (hdata ▸ htidy) (hdata ▸ hd) hsort
  rwa [hdata] at hspec

/-- When the end of a replay fails. -/
theorem finish_eq_none_iff (hd : dataSectors < kMaxMoffset)
    (hchunks : ∀ chunk ∈ chunks, chunk.length % kEncodedSize = 0)
    (hr : chunks.foldlM (Replay.appendChunk rules) ⟨sectors, dataSectors, 0, []⟩ = some r)
    {sort : List Extent → List Extent} (hsort : SortsByStart sort) :
    finish sort r = none ↔
      ∃ m ∈ r.live, ∃ m' ∈ r.live, m ≠ m' ∧ m.zeroed = false ∧ m'.zeroed = false ∧ Overlap m m' := by
  rw [finish_chunks hd hchunks hr hsort, ite_eq_right_iff]
  simp only [reduceCtorEq, imp_false]
  push Not
  rfl

/-- **ZERO backing.**  After any accepted records, in any chunks: `finish` fails exactly if two DATA runs of the live
map name a common payload sector; otherwise a ZERO run keeps its backing exactly if that lies in the data area and no
other run of the map has a sector of it, and nothing else changes. -/
theorem finish_resolves {virtualSize dataBytes : ℕ} {r₀ r : Replay} {chunks : List (List UInt8)}
    (h₀ : Replay.start virtualSize dataBytes = some r₀)
    (hchunks : ∀ chunk ∈ chunks, chunk.length % kEncodedSize = 0)
    (hr : chunks.foldlM (Replay.appendChunk rules) r₀ = some r) {sort : List Extent → List Extent}
    (hsort : SortsByStart sort) :
    (finish sort r = none ↔
      ∃ m ∈ r.live, ∃ m' ∈ r.live, m ≠ m' ∧ m.zeroed = false ∧ m'.zeroed = false ∧ Overlap m m') ∧
    ∀ l, finish sort r = some l → l = r.live.map fun m =>
      if m.zeroed = true ∧ ¬ Exclusive (dataBytes / kAlignment) r.live m then
        { m with moffset := kNoPhysicalOffset }
      else m := by
  obtain ⟨rfl, -, hd⟩ := Replay.start_bounds h₀
  refine ⟨finish_eq_none_iff hd hchunks hr hsort, fun l hl => ?_⟩
  rw [finish_chunks hd hchunks hr hsort] at hl
  split_ifs at hl
  exact (Option.some.inj hl).symm

/-- A stable sort by start. -/
def byStart (l : List Extent) : List Extent := l.mergeSort fun a b => decide (a.start ≤ b.start)

theorem sortsByStart_byStart : SortsByStart byStart := by
  intro l
  refine ⟨List.mergeSort_perm l _, ?_⟩
  have hsorted : (byStart l).Pairwise fun a b => decide (a.start ≤ b.start) = true := List.pairwise_mergeSort
    (fun a b c hab hbc => by simp only [decide_eq_true_iff] at *; omega)
    (fun a b => by simp only [Bool.or_eq_true, decide_eq_true_iff]; omega) l
  exact hsorted.imp fun h => by simpa using h

/-- A DATA run, a ZERO run that claims a sector of it, one with payload of its own, and one whose payload would end
behind the file. -/
theorem finish_resolves_markers :
    ∃ r, [storeSegmentLe ⟨0, 2, 8, false, 0⟩ ++ storeSegmentLe ⟨2, 2, 9, true, 0⟩,
        storeSegmentLe ⟨4, 2, 12, true, 0⟩ ++ storeSegmentLe ⟨6, 2, 31, true, 0⟩].foldlM
          (Replay.appendChunk rules) ⟨16, 32, 0, []⟩ = some r ∧
      finish byStart r ≠ none ∧
      ∀ l, finish byStart r = some l →
        l = [⟨0, 2, 8, false, 0⟩, ⟨2, 2, kNoPhysicalOffset, true, 0⟩, ⟨4, 2, 12, true, 0⟩,
          ⟨6, 2, kNoPhysicalOffset, true, 0⟩] := by
  have hr : [storeSegmentLe ⟨0, 2, 8, false, 0⟩ ++ storeSegmentLe ⟨2, 2, 9, true, 0⟩,
      storeSegmentLe ⟨4, 2, 12, true, 0⟩ ++ storeSegmentLe ⟨6, 2, 31, true, 0⟩].foldlM
        (Replay.appendChunk rules) ⟨16, 32, 0, []⟩ =
      some ⟨16, 32, 4, [⟨0, 2, 8, false, 0⟩, ⟨2, 2, 9, true, 0⟩, ⟨4, 2, 12, true, 0⟩, ⟨6, 2, 31, true, 0⟩]⟩ := by
    rfl
  have h₀ : Replay.start 8192 16384 = some ⟨16, 32, 0, []⟩ := rfl
  obtain ⟨hnone, hsome⟩ := finish_resolves h₀ (by decide) hr sortsByStart_byStart
  refine ⟨_, hr, fun h => absurd (hnone.mp h) (by decide), fun l hl => (hsome l hl).trans (by decide)⟩

end Hybrid

/-! ### Both replays -/

/-- A run without its backing maps its sectors as before. -/
theorem Hybrid.resolve_settled (p : SegmentMapping → Prop) [DecidablePred p] (live : List SegmentMapping) (x : ℕ) :
    resolve (live.map fun m => if m.zeroed = true ∧ p m then Hybrid.disown m else m) x = resolve live x := by
  have hsame : ∀ m : SegmentMapping, ∀ y,
      (if m.zeroed = true ∧ p m then Hybrid.disown m else m).place y = m.place y := by
    intro m y
    split_ifs with h
    · simp [place, Hybrid.disown, h.1]
    · rfl
  refine (lookup_map _ (fun m => ?_) (fun m => ?_)).trans ?_
  · split_ifs <;> rfl
  · split_ifs <;> rfl
  · simp only [hsame]

/-- The map an LSMT replay has after its records. -/
theorem Lsmt.live_indexWf {sectors dataSectors : ℕ} (hd : dataSectors ≤ kMaxMoffset) {chunks : List (List UInt8)}
    (hchunks : ∀ chunk ∈ chunks, chunk.length % kEncodedSize = 0) {r : Replay}
    (hr : chunks.foldlM (Replay.appendChunk Lsmt.rules) ⟨sectors, dataSectors, 0, []⟩ = some r) : IndexWf r.live := by
  obtain ⟨⟨-, -, hlive⟩, -⟩ :=
    (rules_lawful.chunks hd judge_skip_iff (fun m => judge_reject_iff) hchunks).2 r hr
  have hpast : Past sectors _ := past_recordsIn rules_lawful hd chunks.flatten
  have htidy := (lookup_history cut_lawful hpast.proper hpast.sane).1
  rw [hlive]
  exact ⟨htidy.ordered, htidy.proper, fun s hs => (htidy.all s hs).length_le⟩

/-- **Last writer wins.**  For any log in chunks of whole records: the LSMT and the Hybrid replay accept it exactly if
every record is padding or fits, and the limits on records and on runs are kept, whatever the chunks; then each sector
is mapped as the last record that covers it says, and not at all if none does.  What remains is `finish`: it fails
exactly if two DATA runs of the map have a payload sector in common, and otherwise maps the same sectors to the same
places. -/
theorem replay_last_writer {virtualSize dataBytes : ℕ} {r₀ : Replay} {chunks : List (List UInt8)}
    (h₀ : Replay.start virtualSize dataBytes = some r₀)
    (hchunks : ∀ chunk ∈ chunks, chunk.length % kEncodedSize = 0) {sort : List Hybrid.Extent → List Hybrid.Extent}
    (hsort : Hybrid.SortsByStart sort) :
    (((∃ r, chunks.foldlM (Replay.appendChunk Lsmt.rules) r₀ = some r) ↔
        AcceptedLog Lsmt.padding (Replay.Within (virtualSize / kAlignment) (dataBytes / kAlignment))
          (virtualSize / kAlignment) (recordsIn chunks.flatten)) ∧
      ∀ r, chunks.foldlM (Replay.appendChunk Lsmt.rules) r₀ = some r →
        (∀ x, resolve r.live x =
          lookup place ((recordsIn chunks.flatten).filter fun m => !Lsmt.padding m).reverse x) ∧
        ∀ l, r.finish = some l ↔ l = r.live ∧ SectorMap.Exclusive (resolve r.live)) ∧
    ((∃ r, chunks.foldlM (Replay.appendChunk Hybrid.rules) r₀ = some r) ↔
        AcceptedLog Hybrid.padding (Hybrid.Within (virtualSize / kAlignment) (dataBytes / kAlignment))
          (virtualSize / kAlignment) (recordsIn chunks.flatten)) ∧
      ∀ r, chunks.foldlM (Replay.appendChunk Hybrid.rules) r₀ = some r →
        (∀ x, resolve r.live x =
          lookup place ((recordsIn chunks.flatten).filter fun m => !Hybrid.padding m).reverse x) ∧
        (Hybrid.finish sort r = none ↔
          ∃ m ∈ r.live, ∃ m' ∈ r.live, m ≠ m' ∧ m.zeroed = false ∧ m'.zeroed = false ∧ Hybrid.Overlap m m') ∧
        ∀ l, Hybrid.finish sort r = some l → ∀ x, resolve l x = resolve r.live x := by
  obtain ⟨rfl, -, hd⟩ := Replay.start_bounds h₀
  obtain ⟨hlsmt, hlsmt'⟩ := Lsmt.rules_lawful.chunks hd.le (@Lsmt.judge_skip_iff (virtualSize / kAlignment) _)
    (fun m => Lsmt.judge_reject_iff) hchunks
  obtain ⟨hhyb, hhyb'⟩ := Hybrid.rules_lawful.chunks hd.le (@Hybrid.judge_skip_iff _ (virtualSize / kAlignment))
    (fun m _ => Hybrid.judge_reject_iff m) hchunks
  refine ⟨⟨hlsmt, fun r hr => ⟨(hlsmt' r hr).2, fun l => ?_⟩⟩, hhyb, fun r hr => ⟨(hhyb' r hr).2,
    Hybrid.finish_eq_none_iff hd hchunks hr hsort, fun l hl x => ?_⟩⟩
  · rw [← Replay.finish_iff (Lsmt.live_indexWf hd.le hchunks hr)]
    constructor
    · intro hl
      obtain rfl := Replay.finish_eq_some hl
      exact ⟨rfl, hl⟩
    · rintro ⟨rfl, hl⟩
      exact hl
  · rw [Hybrid.finish_chunks hd hchunks hr hsort] at hl
    split_ifs at hl
    obtain rfl := Option.some.inj hl
    exact Hybrid.resolve_settled _ _ x

/-- A DATA run and a ZERO run over its second sector, in two chunks. -/
theorem replay_last_writer_split :
    ∃ r, [storeSegmentLe ⟨0, 4, 8, false, 0⟩, storeSegmentLe ⟨1, 1, 8, true, 0⟩].foldlM
        (Replay.appendChunk Lsmt.rules) ⟨8, 16, 0, []⟩ = some r ∧
      resolve r.live 0 = some (.data 8) ∧ resolve r.live 1 = some .zero ∧ resolve r.live 2 = some (.data 10) ∧
      resolve r.live 4 = none := by
  have h₀ : Replay.start 4096 8192 = some ⟨8, 16, 0, []⟩ := rfl
  have hchunks : ∀ chunk ∈ [storeSegmentLe ⟨0, 4, 8, false, 0⟩, storeSegmentLe ⟨1, 1, 8, true, 0⟩],
      chunk.length % kEncodedSize = 0 := by decide
  have hr : [storeSegmentLe ⟨0, 4, 8, false, 0⟩, storeSegmentLe ⟨1, 1, 8, true, 0⟩].foldlM
      (Replay.appendChunk Lsmt.rules) ⟨8, 16, 0, []⟩ =
        some ⟨8, 16, 2, [⟨0, 1, 8, false, 0⟩, ⟨1, 1, 8, true, 0⟩, ⟨2, 2, 10, false, 0⟩]⟩ := by
    rfl
  have hlast := ((replay_last_writer h₀ hchunks Hybrid.sortsByStart_byStart).1.2 _ hr).1
  exact ⟨_, hr, (hlast 0).trans (by rfl), (hlast 1).trans (by rfl), (hlast 2).trans (by rfl), (hlast 4).trans (by rfl)⟩

/-- A log none of whose records leaves the device or, as DATA, the payload. -/
def Bounded (log : List UInt8) : Prop := AcceptedLog (fun _ => false) (Replay.Within 8 16) 8 (recordsIn log)

theorem bounded_of_within {log : List UInt8} (hlen : log.length ≤ 64) (h : ∀ m ∈ recordsIn log, Replay.Within 8 16 m) :
    Bounded log := by
  refine ⟨?_, fun m hm => .inr (h m hm), fun k => (runCount_le _ 8).trans (by decide)⟩
  rw [length_recordsIn]
  exact (Nat.div_le_self _ _).trans (hlen.trans (by decide))

/-- **Not only bounds decide.**  Padding leaves the device and is accepted; a ZERO marker in front of the payload is
refused by the Hybrid replay; and two DATA runs within all bounds are refused if they name the same payload. -/
theorem replay_rejects_in_bounds : (¬ Bounded (storeSegmentLe ⟨kInvalidOffset, 1, 8, false, 0⟩) ∧
      ([storeSegmentLe ⟨kInvalidOffset, 1, 8, false, 0⟩].foldlM (Replay.appendChunk Lsmt.rules)
        ⟨8, 16, 0, []⟩).isSome = true) ∧
    (Bounded (storeSegmentLe ⟨0, 1, 5, true, 0⟩) ∧
      [storeSegmentLe ⟨0, 1, 5, true, 0⟩].foldlM (Replay.appendChunk Hybrid.rules) ⟨8, 16, 0, []⟩ = none) ∧
    Bounded (storeSegmentLe ⟨0, 1, 8, false, 0⟩ ++ storeSegmentLe ⟨1, 1, 8, false, 0⟩) ∧
      ([storeSegmentLe ⟨0, 1, 8, false, 0⟩ ++ storeSegmentLe ⟨1, 1, 8, false, 0⟩].foldlM
        (Replay.appendChunk Lsmt.rules) ⟨8, 16, 0, []⟩).bind Replay.finish = none := by
  have hpad : recordsIn (storeSegmentLe ⟨kInvalidOffset, 1, 8, false, 0⟩) = [⟨kInvalidOffset, 1, 8, false, 0⟩] := by
    rfl
  have hmark : recordsIn (storeSegmentLe ⟨0, 1, 5, true, 0⟩) = [⟨0, 1, 5, true, 0⟩] := by rfl
  have htwice : recordsIn (storeSegmentLe ⟨0, 1, 8, false, 0⟩ ++ storeSegmentLe ⟨1, 1, 8, false, 0⟩) =
      [⟨0, 1, 8, false, 0⟩, ⟨1, 1, 8, false, 0⟩] := by rfl
  refine ⟨⟨fun h => ?_, by rfl⟩, ⟨bounded_of_within (by decide) fun m hm => ?_, by rfl⟩,
    bounded_of_within (by decide) fun m hm => ?_, ?_⟩
  · have hfit := (h.fits ⟨kInvalidOffset, 1, 8, false, 0⟩ (hpad ▸ List.mem_singleton_self _)).resolve_left nofun
    exact absurd hfit.stop_le (by decide)
  · rw [hmark] at hm
    obtain rfl := List.mem_singleton.mp hm
    exact ⟨by decide, by decide, by decide, nofun⟩
  · rw [htwice] at hm
    rcases List.mem_cons.mp hm with rfl | hm
    · exact ⟨by decide, by decide, by decide, fun _ => by decide⟩
    · obtain rfl := List.mem_singleton.mp hm
      exact ⟨by decide, by decide, by decide, fun _ => by decide⟩
  · have hr : [storeSegmentLe ⟨0, 1, 8, false, 0⟩ ++ storeSegmentLe ⟨1, 1, 8, false, 0⟩].foldlM
        (Replay.appendChunk Lsmt.rules) ⟨8, 16, 0, []⟩ =
          some ⟨8, 16, 2, [⟨0, 1, 8, false, 0⟩, ⟨1, 1, 8, false, 0⟩]⟩ := by
      rfl
    have hwf := Lsmt.live_indexWf (by decide) (by decide) hr
    rw [hr, Option.bind_some]
    by_contra hsome
    obtain ⟨l, hl⟩ := Option.ne_none_iff_exists'.mp hsome
    obtain rfl := Replay.finish_eq_some hl
    exact absurd ((Replay.finish_iff hwf).mp hl 0 1 8 rfl rfl) (by decide)

end OverlayBD
