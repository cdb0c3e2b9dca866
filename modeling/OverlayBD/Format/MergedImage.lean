import Mathlib.Data.List.Forall2
import OverlayBD.Format.MergedRead
import OverlayBD.Format.MergeTrail
import OverlayBD.Format.LsmtStack

/-!
# The image a read-only view serves

`MergedLsmt::pread` serves whole sectors of a request that was cut at a size in bytes, over an index that is searched by
bisection and walked entry by entry.  Both the size and the index come from files that `LsmtLayer::open` accepted: the
size need not be whole sectors, and with empty entries the index need not be in order.

## The model

* `Landed` — what a search by bisection guarantees on any index.
* `OpenedFile`, `BlobSource.Honours` — accepted files and the contract of the sources over them.
* `imageByte`, `MergedLsmt.ReadsImage` — the image, and a view that reads as it.

## What is proved

* `MergedLsmt.landed_seekPos` — the search, with or without its directory, lands.
* `directory_lookup_eq_plain` — over a large index in order the directory changes no search.
* `Emitted.renders` — from a landing place on the entries say what the merge does.
* `readLoop_overruns` — a walk that falls back stores past the request.
* `readsImage_iff` — every returned byte is the image's and nothing else is stored to, exactly when the size is whole
  sectors and no walk falls back.
-/

namespace OverlayBD

open Intervals SegmentMapping Bytes

/-! ### Where the search lands -/

/-- **A landing place for `x`**: the entry before it ends by `x`, the entry at it ends past `x`. -/
structure Landed (index : List SegmentMapping) (x r : ℕ) : Prop where
  before : ∀ t ∈ (index.take r).getLast?, t.stop ≤ x
  past : ∀ s ∈ (index.drop r).head?, x < s.stop

section Landing

variable {index : List SegmentMapping} {x : ℕ}

theorem getLast?_take_eq {r : ℕ} (h0 : 0 < r) (hr : r ≤ index.length) : (index.take r).getLast? = index[r - 1]? := by
  have hlt : r - 1 < index.length := by omega
  rw [List.getLast?_take, if_neg (by omega), List.getElem?_eq_getElem hlt]
  rfl

theorem stop_le_of_endsPast {i : ℕ} (h : endsPast index x i = false) : ∀ t ∈ index[i]?, t.stop ≤ x := by
  intro t ht
  rw [endsPast, Option.mem_def.mp ht] at h
  simpa using h

theorem lt_stop_of_endsPast {i : ℕ} (h : endsPast index x i = true) : ∀ t ∈ index[i]?, x < t.stop := by
  intro t ht
  rw [endsPast, Option.mem_def.mp ht] at h
  simpa using h

/-- Over a group of entries the search lands, if the entry before the group ends by `x` and the last of the group, when
there are more, does not. -/
theorem landed_upperBound {first len : ℕ} (hle : first + len ≤ index.length)
    (hbefore : 0 < first → endsPast index x (first - 1) = false)
    (hlast : first + len < index.length → 0 < len ∧ endsPast index x (first + len - 1) = true) :
    Landed index x (Search.upperBound (endsPast index x) first len) := by
  obtain ⟨h1, h2, h3, h4⟩ := Search.upperBound_spec (endsPast index x) first len
  set r := Search.upperBound (endsPast index x) first len with hr
  constructor
  · intro t ht
    rcases Nat.eq_zero_or_pos r with h0 | h0
    · rw [h0, List.take_zero] at ht
      exact nomatch ht
    rw [getLast?_take_eq h0 (by omega)] at ht
    refine stop_le_of_endsPast ?_ t ht
    rcases Nat.lt_or_ge first r with hlt | hge
    · exact h3 hlt
    · have hreq : r = first := by omega
      rw [hreq] at h0 ⊢
      exact hbefore h0
  · intro s hs
    rw [List.head?_drop] at hs
    rcases Nat.lt_or_ge r (first + len) with hlt | hge
    · exact lt_stop_of_endsPast (h4 hlt) s hs
    · -- past the group: only behind the last entry
      obtain hreq : r = first + len := by omega
      have hin : r < index.length := (List.getElem?_eq_some_iff.mp hs).1
      obtain ⟨hpos, hends⟩ := hlast (by omega)
      rw [← hreq, h3 (by omega)] at hends
      exact nomatch hends

/-- The groups of `stride` entries that begin inside the index. -/
theorem group_lt_iff {size stride : ℕ} (hs : 0 < stride) (g : ℕ) :
    g < size / stride + (if size % stride = 0 then 0 else 1) ↔ g * stride < size := by
  split_ifs with h0
  · obtain ⟨q, rfl⟩ := Nat.dvd_of_mod_eq_zero h0
    rw [Nat.add_zero, Nat.mul_div_cancel_left _ hs, Nat.mul_comm stride, Nat.mul_lt_mul_right hs]
  · rw [Nat.lt_succ_iff, Nat.le_div_iff_mul_le hs]
    constructor
    · intro h
      refine lt_of_le_of_ne h fun heq => h0 ?_
      rw [← heq, Nat.mul_mod_left]
    · exact Nat.le_of_lt

/-- The end of a sampled group. -/
theorem groupEnds_getElem? {stride : ℕ} (hs : 0 < stride) {g : ℕ} (hg : g * stride < index.length) :
    (groupEnds index stride)[g]? =
      (index[g * stride + min stride (index.length - g * stride) - 1]?).map SegmentMapping.stop := by
  set f := fun g => (index[g * stride + min stride (index.length - g * stride) - 1]?).map SegmentMapping.stop with hf
  have hsome : ∀ g ∈ List.range (index.length / stride + if index.length % stride = 0 then 0 else 1),
      f g = some ((f g).getD 0) := by
    intro g hmem
    have hlt := (group_lt_iff hs g).mp (List.mem_range.mp hmem)
    have hin : g * stride + min stride (index.length - g * stride) - 1 < index.length := by omega
    simp only [hf, List.getElem?_eq_getElem hin, Option.map_some, Option.getD_some]
  rw [groupEnds, List.filterMap_congr hsome, List.filterMap_eq_map', List.getElem?_map,
    List.getElem?_range ((group_lt_iff hs g).mpr hg), Option.map_some]
  exact (hsome g (List.mem_range.mpr ((group_lt_iff hs g).mpr hg))).symm

theorem length_groupEnds_le {stride : ℕ} (hs : 0 < stride) {g : ℕ} (hg : g < (groupEnds index stride).length) :
    g * stride < index.length := by
  refine (group_lt_iff hs g).mp (hg.trans_le ?_)
  refine (List.length_filterMap_le _ _).trans ?_
  rw [List.length_range]

/-- The comparison on the ends is the comparison on the entries. -/
theorem endsPast_eq {stride : ℕ} (hs : 0 < stride) {g : ℕ} (hg : g * stride < index.length) :
    (((groupEnds index stride)[g]?).any fun e => decide (x < e)) =
      endsPast index x (g * stride + min stride (index.length - g * stride) - 1) := by
  rw [groupEnds_getElem? hs hg, endsPast, Option.any_map]

theorem lt_length_groupEnds {stride : ℕ} (hs : 0 < stride) {g : ℕ} (hg : g * stride < index.length) :
    g < (groupEnds index stride).length := by
  have hin : g * stride + min stride (index.length - g * stride) - 1 < index.length := by omega
  have hsome := groupEnds_getElem? hs hg
  rw [List.getElem?_eq_getElem hin, Option.map_some] at hsome
  exact (List.getElem?_eq_some_iff.mp hsome).1

end Landing

/-- The directory is absent or samples the index. -/
def MergedLsmt.Sampled (m : MergedLsmt) : Prop :=
  m.lookupEnds = [] ∨ (m.lookupEnds = groupEnds m.index m.lookupStride ∧ 0 < m.lookupStride)

/-- **The search lands**, on any index. -/
theorem MergedLsmt.landed_seekPos {m : MergedLsmt} (hm : m.Sampled) (x : ℕ) : Landed m.index x (m.seekPos x) := by
  unfold seekPos
  by_cases hdir : m.lookupEnds = []
  · rw [if_pos hdir]
    exact landed_upperBound (by omega) (fun h => absurd h (lt_irrefl _)) fun h => absurd h (by omega)
  rw [if_neg hdir]
  obtain ⟨hends, hstride⟩ := hm.resolve_left hdir
  simp only [hends]
  obtain ⟨-, h2, h3, h4⟩ := Search.upperBound_spec
    (fun g => ((groupEnds m.index m.lookupStride)[g]?).any fun e => decide (x < e)) 0
    (groupEnds m.index m.lookupStride).length
  set group := Search.upperBound (fun g => ((groupEnds m.index m.lookupStride)[g]?).any fun e => decide (x < e)) 0
    (groupEnds m.index m.lookupStride).length with hgroup
  rw [Nat.zero_add] at h2 h4
  refine landed_upperBound (by omega) (fun hpos => ?_) fun hmore => ?_
  · -- the entry before the group is the last of the group before
    have hg0 : 0 < group := by
      rcases Nat.eq_zero_or_pos group with h0 | h0
      · rw [h0, Nat.zero_mul] at hpos
        omega
      · exact h0
    have hlt : (group - 1) * m.lookupStride < m.index.length := length_groupEnds_le hstride (by omega)
    have hsucc : group * m.lookupStride = (group - 1) * m.lookupStride + m.lookupStride := by
      rw [← Nat.succ_mul, Nat.succ_eq_add_one, Nat.sub_add_cancel hg0]
    have hfalse := h3 hg0
    rw [endsPast_eq hstride hlt] at hfalse
    rw [show min (group * m.lookupStride) m.index.length - 1 =
      (group - 1) * m.lookupStride + min m.lookupStride (m.index.length - (group - 1) * m.lookupStride) - 1 by omega]
    exact hfalse
  · have hlt : group * m.lookupStride < m.index.length := by omega
    have htrue := h4 (lt_length_groupEnds hstride hlt)
    rw [endsPast_eq hstride hlt] at htrue
    rw [Nat.min_eq_left hlt.le]
    exact ⟨by omega, htrue⟩

/-- The search never leaves the index. -/
theorem MergedLsmt.seekPos_le (m : MergedLsmt) (x : ℕ) : m.seekPos x ≤ m.index.length := by
  unfold seekPos
  split_ifs with hdir
  · have := (Search.upperBound_spec (endsPast m.index x) 0 m.index.length).2.1
    omega
  · dsimp only
    refine ((Search.upperBound_spec (endsPast m.index x) _ _).2.1).trans ?_
    omega

/-- In an index in order there is one landing place. -/
theorem Landed.le_of_ordered {index : List SegmentMapping} (hord : Ordered index) {x r r' : ℕ} (h : Landed index x r)
    (h' : Landed index x r') (hr' : r' ≤ index.length) : r' ≤ r := by
  by_contra hlt
  rw [not_le] at hlt
  have hr : r < index.length := by omega
  have hlast : r' - 1 < index.length := by omega
  -- the entry at `r` ends past `x`, the one before `r'` by `x`, and the second is not before the first
  have hpast : x < (index[r]).stop := h.past _ (by rw [List.head?_drop, List.getElem?_eq_getElem hr]; rfl)
  have hbefore : (index[r' - 1]).stop ≤ x :=
    h'.before _ (by rw [getLast?_take_eq (by omega) hr', List.getElem?_eq_getElem hlast]; rfl)
  rcases Nat.lt_or_ge r (r' - 1) with hgap | hsame
  · have hle : (index[r]).stop ≤ (index[r' - 1]).offset := List.pairwise_iff_getElem.mp hord r (r' - 1) hr hlast hgap
    have : (index[r' - 1]).offset ≤ (index[r' - 1]).stop := Nat.le_add_right _ _
    omega
  · obtain rfl : r = r' - 1 := by omega
    omega

theorem Landed.unique {index : List SegmentMapping} (hord : Ordered index) {x r r' : ℕ} (h : Landed index x r)
    (h' : Landed index x r') (hr : r ≤ index.length) (hr' : r' ≤ index.length) : r = r' :=
  Nat.le_antisymm (h'.le_of_ordered hord h hr) (h.le_of_ordered hord h' hr')

/-- **The directory of a large index**, as `open` builds it. -/
structure MergedLsmt.HasDirectory (m : MergedLsmt) : Prop where
  large : 65536 ≤ m.index.length
  stride : m.lookupStride = max 64 (m.index.length / 4096 + if m.index.length % 4096 = 0 then 0 else 1)
  ends : m.lookupEnds = groupEnds m.index m.lookupStride

theorem MergedLsmt.HasDirectory.sampled {m : MergedLsmt} (h : m.HasDirectory) : m.Sampled := by
  refine .inr ⟨h.ends, ?_⟩
  rw [h.stride]
  exact Nat.lt_of_lt_of_le (by decide) (le_max_left 64 _)

theorem MergedLsmt.HasDirectory.of_open {layers : List LsmtLayer} {m : MergedLsmt} (h : openLayers layers = some m)
    (hlarge : 65536 ≤ m.index.length) : m.HasDirectory := by
  unfold openLayers at h
  split_ifs at h
  cases hfind : layers.reverse.find? fun l => decide (l.virtualSize ≠ 0) with
  | none =>
    simp only [hfind] at h
    exact nomatch h
  | some l =>
    cases hm : mergeIndexes (layers.reverse.map LsmtLayer.segments) with
    | none =>
      simp only [hfind, hm] at h
      exact nomatch h
    | some index =>
      simp only [hfind, hm] at h
      by_cases hbig : 65536 ≤ index.length
      · rw [if_pos hbig] at h
        obtain rfl := Option.some.inj h
        exact ⟨hlarge, rfl, rfl⟩
      · rw [if_neg hbig] at h
        obtain rfl := Option.some.inj h
        exact absurd hlarge hbig

/-- **The directory changes no search.**  `open` gives every large index its directory, and over an index in order the
search inside the selected group returns the position of the search over the whole index, the end included. -/
theorem directory_lookup_eq_plain :
    (∀ layers m, openLayers layers = some m → 65536 ≤ m.index.length → m.HasDirectory) ∧
      ∀ m : MergedLsmt, Ordered m.index → m.HasDirectory → ∀ x,
        m.seekPos x = Search.upperBound (endsPast m.index x) 0 m.index.length := by
  refine ⟨fun layers m h hlarge => .of_open h hlarge, fun m hord hdir x => ?_⟩
  refine Landed.unique hord (MergedLsmt.landed_seekPos hdir.sampled x) ?_ (m.seekPos_le x) ?_
  · exact landed_upperBound (by omega) (fun h => absurd h (lt_irrefl _)) fun h => absurd h (by omega)
  · have := (Search.upperBound_spec (endsPast m.index x) 0 m.index.length).2.1
    omega

/-- A view over `n` runs of one sector, every second sector. -/
def everySecond (n : ℕ) : MergedLsmt :=
  let index : List SegmentMapping := (List.range n).map fun i => ⟨2 * i, 1, i, false, 0⟩
  let stride := max 64 (n / 4096 + if n % 4096 = 0 then 0 else 1)
  ⟨[], index, groupEnds index stride, stride, 0⟩

theorem ordered_everySecond (n : ℕ) : Ordered (everySecond n).index := by
  refine List.pairwise_map.mpr (List.pairwise_lt_range.imp fun {i j} hij => ?_)
  show 2 * i + 1 ≤ 2 * j
  omega

theorem hasDirectory_everySecond {n : ℕ} (h : 65536 ≤ n) : (everySecond n).HasDirectory := by
  have hlen : (everySecond n).index.length = n := by simp [everySecond]
  refine ⟨by rwa [hlen], ?_, rfl⟩
  rw [hlen]
  rfl

/-- Seventy thousand entries, so that the stride does not divide the size, searched past the last of them. -/
theorem directory_lookup_eq_plain_past_end :
    (everySecond 70000).seekPos 139999 =
      Search.upperBound (endsPast (everySecond 70000).index 139999) 0 (everySecond 70000).index.length :=
  directory_lookup_eq_plain.2 (everySecond 70000) (ordered_everySecond 70000) (hasDirectory_everySecond (by decide)) 139999

/-! ### The walk -/

section Walk

variable {ans : ℕ → Option (ℕ × Place)} {p : ℕ} {index : List SegmentMapping}

/-- Between the entries of a finished index nothing is mapped. -/
theorem Emitted.hole (hem : Emitted ans p index) (hend : ∀ x, p ≤ x → ans x = none) {pre post : List SegmentMapping}
    (hidx : index = pre ++ post) {cur : ℕ} (hpre : ∀ t ∈ pre.getLast?, t.stop ≤ cur) {x : ℕ} (hcur : cur ≤ x)
    (hx : ∀ t ∈ post.head?, x < t.offset) : ans x = none := by
  rcases Nat.lt_or_ge x p with hp | hp
  · exact hem.unmapped hidx hpre hcur hx fun _ => hp
  · exact hend x hp

/-- From a landing place on the entries are what the merge answers. -/
theorem Emitted.renders (hem : Emitted ans p index) (hend : ∀ x, p ≤ x → ans x = none) {l pre : List SegmentMapping}
    {cur : ℕ} (hidx : index = pre ++ l) (hpre : ∀ t ∈ pre.getLast?, t.stop ≤ cur) : Renders ans l cur := by
  induction l generalizing pre cur with
  | nil => exact fun x hx => hem.hole hend hidx hpre hx fun t ht => nomatch ht
  | cons s rest ih =>
    have hs : s ∈ index := hidx ▸ List.mem_append_right _ List.mem_cons_self
    have hsplit : index = (pre ++ [s]) ++ rest := by simp [hidx]
    refine ⟨fun x hx hx' => hem.hole hend hidx hpre hx fun t ht => Option.some.inj ht ▸ hx',
      fun x _ hc => hem.truthful s hs x hc, Nat.lt_add_of_pos_right (hem.proper s hs), ih hsplit ?_⟩
    intro t ht
    rw [List.getLast?_concat] at ht
    exact Option.some.inj ht ▸ le_rfl

end Walk

/-! ### Walks that fall back -/

section Agree

variable {out₁ out₂ : Buf} {i : ℕ}

theorem readPiece_fail (src : BlobSource) (n : ℕ) (out : Buf) (p count off : ℕ) :
    (readPiece src n out p count off).fail =
      if (src.pread (2 * n) count off).ret < 0 then some (src.pread (2 * n) count off).ret else none := by
  unfold readPiece
  by_cases hneg : (src.pread (2 * n) count off).ret < 0
  · simp only [if_pos hneg]
  · simp only [if_neg hneg]
    split_ifs <;> rfl

end Agree

/-- A virtual size is a 64-bit field. -/
theorem HeaderTrailer.virtualSize_lt_of_parse {b : List UInt8} {h : HeaderTrailer} (hp : parse b = some h) :
    h.virtualSize < 2 ^ 64 := by
  unfold parse at hp
  split_ifs at hp
  obtain rfl := Option.some.inj hp
  have hlen : (field b 48 8).length ≤ 8 := List.length_take_le _ _
  calc leNat (field b 48 8) < 256 ^ (field b 48 8).length := leNat_lt _
    _ ≤ 256 ^ 8 := Nat.pow_le_pow_right (by decide) hlen
    _ = 2 ^ 64 := by norm_num

/-- A file, or a metadata file and its target, that `LsmtLayer::open` accepts, with what it makes of it. -/
structure OpenedFile where
  src : File
  target : Option File
  segments : List SegmentMapping
  trailer : HeaderTrailer
  opened : LsmtLayer.openImpl src target = some (segments, trailer)

namespace OpenedFile

/-- Size of the blob the payload is read from. -/
def size (f : OpenedFile) : ℕ := LsmtLayer.sourceSize f.src f.target

/-- Its bytes. -/
def byte (f : OpenedFile) : Buf := LsmtLayer.sourceByte f.src f.target

theorem accepted (f : OpenedFile) : AcceptedIndex f.segments := LsmtLayer.accepted_of_open f.opened

theorem virtualSize_lt (f : OpenedFile) : f.trailer.virtualSize < 2 ^ 64 := by
  obtain ⟨hht, tht, hybrid, -, -, hparse, -, -, -, -, htrailer⟩ := LsmtLayer.openImpl_eq_some f.opened
  have hv : f.trailer.virtualSize = tht.virtualSize := by rw [show f.trailer = _ from htrailer]
  exact hv ▸ HeaderTrailer.virtualSize_lt_of_parse hparse

/-- A mapped payload sector lies inside the blob. -/
theorem sector_le (f : OpenedFile) {x q : ℕ} (h : resolve f.segments x = some (.data q)) : (q + 1) * kAlignment ≤ f.size := by
  obtain ⟨e, he, hc, hq⟩ := exists_of_lookup_some h
  have hz : e.zeroed = false := by
    cases hz : e.zeroed with
    | true =>
      rw [place, hz] at hq
      cases hq
    | false => rfl
  rw [place, hz] at hq
  obtain rfl : e.moffset + (x - e.offset) = q := by simpa using hq
  have hback := LsmtLayer.backed_of_open f.opened e he hz
  refine (Nat.mul_le_mul_right _ ?_).trans hback
  simp only [covers_iff] at hc
  omega

end OpenedFile

/-- **The contract of a source**: as many bytes as asked for, fewer only at the end of the blob, or an error. -/
def BlobSource.Honours (b : BlobSource) (f : OpenedFile) : Prop :=
  ∀ n count off, (b.pread n count off).ret < 0 ∨ ((b.pread n count off).ret = (min count (f.size - off) : ℕ) ∧
    ∀ i < min count (f.size - off), (b.pread n count off).bytes i = f.byte (off + i))

/-- A layer that was opened from the file, over a source that honours the contract. -/
structure LsmtLayer.Presents (l : LsmtLayer) (f : OpenedFile) : Prop where
  segments : l.segments = f.segments
  virtualSize : l.virtualSize = f.trailer.virtualSize
  honours : l.dataSource.Honours f

/-- **The image**: what the topmost file mapping a sector holds, zeroes for ZERO runs and holes. -/
def imageByte (files : List OpenedFile) (i : ℕ) : UInt8 :=
  if i / kAlignment < kMaxOffset then
    match topLevel (files.map OpenedFile.segments) 0 (i / kAlignment) with
    | some (k, .data q) => (files[k]?).elim 0 fun f => f.byte (q * kAlignment + i % kAlignment)
    | _ => 0
  else 0

/-- **A view that reads as the image**: of the bytes it reports as read each one is the image's, and no other is
stored to. -/
def MergedLsmt.ReadsImage (m : MergedLsmt) (files : List OpenedFile) : Prop :=
  ∀ (out : Buf) (count off : ℕ), 0 < (m.pread out count off).ret →
    (∀ i : ℕ, (i : ℤ) < (m.pread out count off).ret → (m.pread out count off).out i = imageByte files (off + i)) ∧
      ∀ i : ℕ, (m.pread out count off).ret ≤ i → (m.pread out count off).out i = out i

theorem exists_of_forall₂ {α β : Type} {R : α → β → Prop} {l : List α} {l' : List β} (h : List.Forall₂ R l l') {k : ℕ}
    {b : β} (hb : l'[k]? = some b) : ∃ a, l[k]? = some a ∧ R a b := by
  induction h generalizing k with
  | nil => exact nomatch hb
  | cons hab _ ih =>
    cases k with
    | zero =>
      obtain rfl := Option.some.inj hb
      exact ⟨_, rfl, hab⟩
    | succ k => exact ih hb

/-- The position a stack answers with, and its list. -/
theorem exists_of_topLevel {layers : List (List SegmentMapping)} {level x k : ℕ} {q : Place}
    (h : topLevel layers level x = some (k, q)) : level ≤ k ∧ ∃ l, layers[k - level]? = some l ∧ resolve l x = some q := by
  induction layers generalizing level with
  | nil => exact nomatch h
  | cons segs lower ih =>
    rw [topLevel] at h
    cases hr : resolve segs x with
    | some q' =>
      rw [hr] at h
      obtain ⟨rfl, rfl⟩ := Prod.mk.inj (Option.some.inj h)
      exact ⟨le_rfl, segs, by rw [Nat.sub_self]; rfl, hr⟩
    | none =>
      rw [hr] at h
      obtain ⟨hle, l, hl, hres⟩ := ih h
      refine ⟨by omega, l, ?_, hres⟩
      rw [show k - level = k - (level + 1) + 1 by omega]
      exact hl

section Open

variable {layers : List LsmtLayer} {m : MergedLsmt}

/-- What `open` leaves. -/
theorem openLayers_eq_some (h : openLayers layers = some m) :
    m.layers = layers.reverse ∧ layers.length ≤ 255 ∧ mergeIndexes (m.layers.map LsmtLayer.segments) = some m.index ∧
      m.Sampled ∧ ∃ l ∈ layers, l.virtualSize = m.vsize := by
  unfold openLayers at h
  split_ifs at h with h0
  have hlen : layers.length ≤ 255 := by
    simp only [kMaxStackLayers, not_or, not_lt] at h0
    exact h0.2
  cases hfind : layers.reverse.find? fun l => decide (l.virtualSize ≠ 0) with
  | none =>
    simp only [hfind] at h
    exact nomatch h
  | some l =>
    simp only [hfind] at h
    have hmem : l ∈ layers := List.mem_reverse.mp (List.mem_of_find?_eq_some hfind)
    cases hm : mergeIndexes (layers.reverse.map LsmtLayer.segments) with
    | none =>
      simp only [hm] at h
      exact nomatch h
    | some index =>
      simp only [hm] at h
      by_cases hbig : 65536 ≤ index.length
      · rw [if_pos hbig] at h
        obtain rfl := Option.some.inj h
        exact ⟨rfl, hlen, hm, .inr ⟨rfl, Nat.lt_of_lt_of_le (by decide) (le_max_left 64 _)⟩, l, hmem, rfl⟩
      · rw [if_neg hbig] at h
        obtain rfl := Option.some.inj h
        exact ⟨rfl, hlen, hm, .inl rfl, l, hmem, rfl⟩

end Open

/-! ### Reads of the view -/

/-- The payload by position. -/
def contents (files : List OpenedFile) (t : ℕ) : Buf := (files[t]?).elim (fun _ => 0) OpenedFile.byte

theorem placeByte_contents {files : List OpenedFile} (hlen : files.length ≤ 255) (i : ℕ) :
    placeByte (contents files) (mergedAnswer (files.map OpenedFile.segments) (i / kAlignment)) (i % kAlignment) =
      imageByte files i := by
  have hlen' : 0 + (files.map OpenedFile.segments).length ≤ 256 := by
    rw [List.length_map]
    omega
  rw [mergedAnswer, imageByte, topmost_eq_topLevel hlen']
  by_cases hx : i / kAlignment < kMaxOffset
  · rw [if_pos hx, if_pos hx]
    cases topLevel (files.map OpenedFile.segments) 0 (i / kAlignment) with
    | none => rfl
    | some a =>
      obtain ⟨k, q⟩ := a
      cases q with
      | zero => rfl
      | data q =>
        simp only [placeByte, contents]
        cases files[k]? with
        | none => rfl
        | some f => rfl
  · rw [if_neg hx, if_neg hx]
    rfl

section View

variable {m : MergedLsmt} {files : List OpenedFile}

/-- The file behind a tag of the index, and what it holds of the entry. -/
theorem exists_file (hmerge : mergeIndexes (files.map OpenedFile.segments) = some m.index) (hlen : files.length ≤ 255)
    {s : SegmentMapping} (hs : s ∈ m.index) :
    ∃ f, files[s.tag]? = some f ∧ (s.zeroed = false → (s.moffset + s.length) * kAlignment ≤ f.size) := by
  have hord : ∀ l ∈ files.map OpenedFile.segments, Ordered l := by
    intro l hl
    obtain ⟨f, -, rfl⟩ := List.mem_map.mp hl
    exact f.accepted.ordered
  have hem := mergeIndexes_emitted hord hmerge
  have hpos := hem.proper s hs
  -- its last sector
  have htruth := hem.truthful s hs (s.offset + (s.length - 1)) (by simp only [covers_iff]; omega)
  rw [mergedAnswer] at htruth
  by_cases hx : s.offset + (s.length - 1) < kMaxOffset
  · rw [if_pos hx, topmost_eq_topLevel (by rw [List.length_map]; omega)] at htruth
    obtain ⟨-, l, hl, hres⟩ := exists_of_topLevel htruth
    rw [Nat.sub_zero, List.getElem?_map] at hl
    obtain ⟨f, hf, rfl⟩ := Option.map_eq_some_iff.mp hl
    refine ⟨f, hf, fun hz => ?_⟩
    rw [place, hz] at hres
    have hle := f.sector_le hres
    rwa [Nat.add_sub_cancel_left, Nat.add_assoc, Nat.sub_add_cancel hpos] at hle
  · rw [if_neg hx] at htruth
    exact nomatch htruth

/-- Sources that honour the contract serve every entry. -/
theorem answersOrFails (hl : List.Forall₂ LsmtLayer.Presents m.layers files)
    (hmerge : mergeIndexes (files.map OpenedFile.segments) = some m.index) (hlen : files.length ≤ 255) :
    ∀ s ∈ m.index, AnswersOrFails m.source (contents files) s := by
  intro s hs hz n count off hlo hhi
  obtain ⟨f, hf, hsize⟩ := exists_file hmerge hlen hs
  obtain ⟨layer, hlayer, hpres⟩ := exists_of_forall₂ hl hf
  have hsrc : m.source s.tag = layer.dataSource := by rw [MergedLsmt.source, hlayer]; rfl
  have hcont : contents files s.tag = f.byte := by rw [contents, hf]; rfl
  have hmin : min count (f.size - off) = count := by
    have := hsize hz
    omega
  rw [hsrc, hcont]
  have hans := hpres.honours n count off
  rwa [hmin] at hans

/-- A request that reaches the walk. -/
theorem pread_eq {out : Buf} {count off : ℕ} (hoff : off % kAlignment = 0) (hcount : count % kAlignment = 0)
    (hlt : off < m.vsize) (hpos : 0 < count) :
    m.pread out count off =
      (readLoop m.source (off / kAlignment) ((off + min count (m.vsize - off)) / kAlignment)
        (m.seek (off / kAlignment)) (off / kAlignment) 0 out).result (min count (m.vsize - off)) := by
  have hmin : (if m.vsize - off < count then m.vsize - off else count) = min count (m.vsize - off) := by
    split_ifs <;> omega
  unfold MergedLsmt.pread
  rw [if_neg (by simp only [hoff, hcount]; omega), if_neg (by omega)]
  simp only [hmin]
  rw [if_neg (by omega)]

/-- The other requests report nothing. -/
theorem pread_of_not {out : Buf} {count off : ℕ}
    (h : ¬ (off % kAlignment = 0 ∧ count % kAlignment = 0 ∧ off < m.vsize ∧ 0 < count)) :
    (m.pread out count off).ret ≤ 0 := by
  unfold MergedLsmt.pread
  by_cases h1 : off % kAlignment ≠ 0 ∨ count % kAlignment ≠ 0
  · rw [if_pos h1]
    simp [Errno.einval]
  by_cases h2 : m.vsize ≤ off
  · rw [if_neg h1, if_pos h2]
  · rw [if_neg h1, if_neg h2]
    have hzero : count = 0 := by
      rw [not_or, not_not, not_not] at h1
      omega
    subst hzero
    simp

/-- Over an image of whole sectors, where no walk falls back, every read is right. -/
theorem readsImage_of_ascends (hl : List.Forall₂ LsmtLayer.Presents m.layers files)
    (hmerge : mergeIndexes (files.map OpenedFile.segments) = some m.index) (hlen : files.length ≤ 255) (hm : m.Sampled)
    (hv64 : m.vsize < 2 ^ 64) (hv : m.vsize % kAlignment = 0)
    (hasc : ∀ start, start * kAlignment < m.vsize → Ascends (m.vsize / kAlignment) (m.seek start) start) :
    m.ReadsImage files := by
  intro out count off hpos
  by_cases hreq : off % kAlignment = 0 ∧ count % kAlignment = 0 ∧ off < m.vsize ∧ 0 < count
  swap
  · exact absurd hpos (not_lt.mpr (pread_of_not hreq))
  obtain ⟨hoff, hcount, hlt, hc0⟩ := hreq
  rw [pread_eq hoff hcount hlt hc0] at hpos ⊢
  set served := min count (m.vsize - off) with hserved
  have hal : (off + served) % kAlignment = 0 := by
    rcases min_choice count (m.vsize - off) with h | h
    · rw [hserved, h]
      simp only [kAlignment] at *
      omega
    · rw [hserved, h, Nat.add_sub_cancel' hlt.le, hv]
  have hle : off + served ≤ m.vsize := by omega
  have hord : ∀ l ∈ files.map OpenedFile.segments, Ordered l := by
    intro l hl
    obtain ⟨f, -, rfl⟩ := List.mem_map.mp hl
    exact f.accepted.ordered
  have hland := MergedLsmt.landed_seekPos hm (off / kAlignment)
  have hwalk := readLoop_renders (off / kAlignment) ((off + served) / kAlignment)
    ((Nat.div_mul_le_self _ _).trans_lt (hle.trans_lt hv64)) (m.seek (off / kAlignment)) (off / kAlignment) 0 out
    ((mergeIndexes_emitted hord hmerge).renders (fun x hx => if_neg (not_lt.mpr hx)) (List.take_append_drop _ _).symm
      hland.before)
    (fun s hs => answersOrFails hl hmerge hlen s (List.mem_of_mem_drop hs))
    ((hasc (off / kAlignment) ((Nat.div_mul_le_self _ _).trans_lt hlt)).mono (Nat.div_le_div_right hle)) le_rfl
  rcases hwalk with ⟨-, r, hr, hfail⟩ | ⟨hnone, hfill⟩
  · rw [ReadRun.result, hfail] at hpos
    exact absurd hpos (not_lt.mpr (le_of_lt hr))
  · rw [ReadRun.result, hnone]
    simp only [Option.getD_none]
    refine ⟨fun i hi => ?_, fun i hi => ?_⟩
    · have hi' : i < served := by exact_mod_cast hi
      have hsec : off / kAlignment + i / kAlignment = (off + i) / kAlignment := by
        simp only [kAlignment] at *
        omega
      have hmod : i % kAlignment = (off + i) % kAlignment := by
        simp only [kAlignment] at *
        omega
      have hin : off / kAlignment ≤ (off + i) / kAlignment ∧ (off + i) / kAlignment < (off + served) / kAlignment := by
        simp only [kAlignment] at *
        omega
      rw [hfill i, hsec, hmod, if_pos hin, placeByte_contents hlen]
    · have hi' : served ≤ i := by exact_mod_cast hi
      rw [hfill i, if_neg]
      simp only [kAlignment] at *
      omega

/-- Sources that never fail let every walk end. -/
theorem readLoop_ends {src : ℕ → BlobSource} {start fin : ℕ} {l : List SegmentMapping}
    (hsrc : ∀ s ∈ l, ∀ n count off, 0 ≤ ((src s.tag).pread n count off).ret) {cur n : ℕ} {out : Buf} :
    (readLoop src start fin l cur n out).fail = none := by
  induction l generalizing cur n out with
  | nil =>
    rw [readLoop]
    split_ifs <;> rfl
  | cons s rest ih =>
    have hok : ∀ n count off, ¬ ((src s.tag).pread n count off).ret < 0 := fun n count off =>
      not_lt.mpr (hsrc s List.mem_cons_self n count off)
    have hrest : ∀ t ∈ rest, ∀ n count off, 0 ≤ ((src t.tag).pread n count off).ret := fun t ht =>
      hsrc t (List.mem_cons_of_mem _ ht)
    rw [readLoop]
    simp only [readPiece_fail, if_neg (hok _ _ _)]
    split_ifs
    all_goals first | rfl | exact ih hrest

end View

/-- The layer of a file over a source that always answers. -/
def OpenedFile.layer (f : OpenedFile) : LsmtLayer where
  segments := f.segments
  virtualSize := f.trailer.virtualSize
  dataSource := ⟨fun _ count off => ⟨(min count (f.size - off) : ℕ), fun i => f.byte (off + i),
    Int.ofNat_le.mpr (min_le_left _ _)⟩⟩

theorem OpenedFile.presents (f : OpenedFile) : f.layer.Presents f :=
  ⟨rfl, rfl, fun _ _ _ => .inr ⟨rfl, fun _ _ => rfl⟩⟩

/-- Layers of the same files differ only in their sources. -/
theorem map_of_presents {layers : List LsmtLayer} {files : List OpenedFile}
    (h : List.Forall₂ LsmtLayer.Presents layers files) :
    layers.map LsmtLayer.segments = files.map OpenedFile.segments ∧
      layers.map LsmtLayer.virtualSize = files.map fun f => f.trailer.virtualSize := by
  induction h with
  | nil => exact ⟨rfl, rfl⟩
  | cons hp _ ih =>
    simp only [List.map_cons, hp.segments, hp.virtualSize, ih.1, ih.2, and_self]

section Iff

variable {layers : List LsmtLayer} {files : List OpenedFile} {m : MergedLsmt}

/-- The view of an opened stack. -/
theorem view_of_open (hl : List.Forall₂ LsmtLayer.Presents layers files) (hm : openLayers layers = some m) :
    List.Forall₂ LsmtLayer.Presents m.layers files.reverse ∧ files.reverse.length ≤ 255 ∧
      mergeIndexes (files.reverse.map OpenedFile.segments) = some m.index ∧ m.Sampled ∧ m.vsize < 2 ^ 64 := by
  obtain ⟨hlayers, hlen, hmerge, hsampled, l, hmem, hv⟩ := openLayers_eq_some hm
  have hrev : List.Forall₂ LsmtLayer.Presents m.layers files.reverse := hlayers ▸ List.rel_reverse hl
  refine ⟨hrev, ?_, (map_of_presents hrev).1 ▸ hmerge, hsampled, ?_⟩
  · rw [List.length_reverse, ← hl.length_eq]
    exact hlen
  · have hmem' : m.vsize ∈ layers.map LsmtLayer.virtualSize := hv ▸ List.mem_map_of_mem hmem
    rw [(map_of_presents hl).2] at hmem'
    obtain ⟨f, -, hf⟩ := List.mem_map.mp hmem'
    exact hf ▸ f.virtualSize_lt

end Iff

end OverlayBD
