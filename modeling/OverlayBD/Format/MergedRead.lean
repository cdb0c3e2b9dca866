import OverlayBD.Format.Merge
import OverlayBD.Lib.Search

/-!
# Reading through a merged index (`MergedLsmt::pread`)

A merged view serves a request by walking its index: holes and ZERO runs become zeroes, a DATA run
becomes a `pread` on the source of the layer its tag names.  A short answer is asked for once more, and
what is still missing is zeroed.  `MergedWritable::pread` runs the same loop over its snapshot, so the
loop is modelled once.

## The model

* `BlobSource` — what a layer's source may answer: any count up to the one asked for, or a negative
  errno, independently at each call.  Calls carry a number, so two equal requests may be answered
  differently.
* `readPiece` — one DATA run: the attempt, the retry, the zero fill.
* `readLoop` — the walk, with a log of the attempts it made (`PieceLog`), which the source only has in
  the form of its calls.
* `MergedLsmt`, `openLayers`, `seek`, `MergedLsmt.pread` — the read-only view with its sampled
  directory.

## What is proved

* `readLoop_log` — the log and the outcome of a walk are those of serving, in order, the DATA runs the
  index has in the window (`dataPieces`, `servePieces`): planning does not depend on the answers.
* `failClosed_servePieces_iff` — no error is lost exactly when no retry that is made reports one.
* `readLoop_renders` — a walk that does not fall back fills the request with what its entries say, or reports an error.
* `readLoop_out` — over sources that hold the mapped payload the walk produces the mapped bytes.
-/

namespace OverlayBD

open Intervals SegmentMapping Bytes Errno

/-! ### Sources -/

/-- The answer of a source to a request for `count` bytes: a count no larger, or a negative errno. -/
structure Reply (count : ℕ) where
  /-- The `ssize_t` returned. -/
  ret : ℤ
  /-- The bytes delivered, meaningful below `ret`. -/
  bytes : Buf
  le : ret ≤ count

/-- A blob source: the `call`-th request of an operation, for `count` bytes at `off`. -/
structure BlobSource where
  /-- `pread(buf, count, off)`. -/
  pread : (call count off : ℕ) → Reply count

/-! ### One DATA run -/

/-- One call made to a source: the count asked for and what came back. -/
structure Attempt where
  asked : ℕ
  ret : ℤ
deriving DecidableEq, Repr

/-- How one DATA run was served. -/
structure PieceLog where
  /-- The calls made, in order. -/
  attempts : List Attempt
  /-- Zeroes were stored in place of mapped payload. -/
  substituted : Bool
deriving DecidableEq, Repr

/-- A walk or a part of it: the error that ended it, the buffer, the log. -/
structure ReadRun where
  fail : Option ℤ
  out : Buf
  log : List PieceLog

/-- Serve the `n`-th DATA run: `count` bytes from `off` of `src` into `out` at `p`. -/
def readPiece (src : BlobSource) (n : ℕ) (out : Buf) (p count off : ℕ) : ReadRun :=
  let a := src.pread (2 * n) count off
  if a.ret < 0 then ⟨some a.ret, out, [⟨[⟨count, a.ret⟩], false⟩]⟩
  else
    let r := a.ret.toNat
    let out := out.put p r a.bytes
    if r < count then
      let b := src.pread (2 * n + 1) (count - r) (off + r)
      -- `std::max<ssize_t>(r2, 0)`: an error counts as nothing read
      let r2 := (max b.ret 0).toNat
      let filled := r2 + r
      let out := out.put (p + r) r2 b.bytes
      if filled < count then
        ⟨none, out.zero (p + filled) (count - filled),
          [⟨[⟨count, a.ret⟩, ⟨count - r, b.ret⟩], true⟩]⟩
      else ⟨none, out, [⟨[⟨count, a.ret⟩, ⟨count - r, b.ret⟩], false⟩]⟩
    else ⟨none, out, [⟨[⟨count, a.ret⟩], false⟩]⟩

/-! ### The walk -/

/-- `static_cast<size_t>(to - from) * kSector` on 64-bit unsigned integers. -/
def pieceBytes (a b : ℕ) : ℕ := (b + 2 ^ 64 - a) % 2 ^ 64 * kAlignment % 2 ^ 64

/-- The loop of `pread` from sector `cur` to `fin`, at the entries still ahead; `start` is the first
sector of the request and `n` the number of DATA runs served so far.

An entry is left as soon as the loop has used it: either it ends by `fin` and the iterator moves on,
or the walk reaches `fin` inside it. -/
def readLoop (src : ℕ → BlobSource) (start fin : ℕ) : List SegmentMapping → ℕ → ℕ → Buf → ReadRun
  | [], cur, _, out =>
    if fin ≤ cur then ⟨none, out, []⟩
    else ⟨none, out.zero ((cur - start) * kAlignment) ((fin - cur) * kAlignment), []⟩
  | s :: rest, cur, n, out =>
    if fin ≤ cur then ⟨none, out, []⟩
    else if fin ≤ s.offset then
      ⟨none, out.zero ((cur - start) * kAlignment) ((fin - cur) * kAlignment), []⟩
    else
      -- the hole before the entry
      let out := if cur < s.offset then
        out.zero ((cur - start) * kAlignment) ((s.offset - cur) * kAlignment) else out
      let segFrom := max s.offset cur
      let segTo := min s.stop fin
      let count := pieceBytes segFrom segTo
      let p := (segFrom - start) * kAlignment
      if s.zeroed then
        let out := out.zero p count
        if s.stop ≤ segTo then readLoop src start fin rest segTo n out else ⟨none, out, []⟩
      else
        let piece := readPiece (src s.tag) n out p count ((s.moffset + (segFrom - s.offset)) * kAlignment)
        match piece.fail with
        | some r => ⟨some r, piece.out, piece.log⟩
        | none =>
          if s.stop ≤ segTo then
            let later := readLoop src start fin rest segTo (n + 1) piece.out
            ⟨later.fail, later.out, piece.log ++ later.log⟩
          else ⟨none, piece.out, piece.log⟩

/-! ### The read-only merged view -/

/-- A layer as the merged views use it. -/
structure LsmtLayer where
  /-- `segments()`. -/
  segments : List SegmentMapping
  /-- `virtual_size()` in bytes. -/
  virtualSize : ℕ
  /-- `data_source()`. -/
  dataSource : BlobSource

theorem neg_eio_le (count : ℕ) : -eio ≤ (count : ℤ) := neg_eio_nonpos.trans (Int.natCast_nonneg count)

/-- A source that never answers; stands behind tags that name no layer. -/
def BlobSource.absent : BlobSource := ⟨fun _ count _ => ⟨-eio, fun _ => 0, neg_eio_le count⟩⟩

/-- `lsmt::kMaxStackLayers`. -/
def kMaxStackLayers : ℕ := 255

/-- `MergedLsmt`. -/
structure MergedLsmt where
  /-- `layers_`, topmost first. -/
  layers : List LsmtLayer
  index : List SegmentMapping
  /-- `lookup_ends_`: the end of every sampled group; empty for a small index. -/
  lookupEnds : List ℕ
  lookupStride : ℕ
  vsize : ℕ

/-- The ends of the groups of `stride` entries. -/
def groupEnds (index : List SegmentMapping) (stride : ℕ) : List ℕ :=
  (List.range (index.length / stride + if index.length % stride = 0 then 0 else 1)).filterMap fun g =>
    (index[g * stride + min stride (index.length - g * stride) - 1]?).map stop

/-- `MergedLsmt::open`; `none` is the exception it throws. -/
def openLayers (layersBottomUp : List LsmtLayer) : Option MergedLsmt :=
  if layersBottomUp = [] ∨ kMaxStackLayers < layersBottomUp.length then none
  else
    let layers := layersBottomUp.reverse
    -- the topmost non-zero virtual size
    match layers.find? fun l => decide (l.virtualSize ≠ 0) with
    | none => none
    | some l =>
      match mergeIndexes (layers.map LsmtLayer.segments) with
      | none => none
      | some index =>
        let size := index.length
        if 65536 ≤ size then
          let stride := max 64 (size / 4096 + if size % 4096 = 0 then 0 else 1)
          some ⟨layers, index, groupEnds index stride, stride, l.virtualSize⟩
        else some ⟨layers, index, [], 0, l.virtualSize⟩

/-- The comparison of the search: the entry at this position ends past `x`. -/
def endsPast (index : List SegmentMapping) (x i : ℕ) : Bool := (index[i]?).any fun s => decide (x < s.stop)

/-- The position `pread` starts from, searched for inside the sampled group that can hold it. -/
def MergedLsmt.seekPos (m : MergedLsmt) (x : ℕ) : ℕ :=
  if m.lookupEnds = [] then Search.upperBound (endsPast m.index x) 0 m.index.length
  else
    let group := Search.upperBound (fun g => (m.lookupEnds[g]?).any fun e => decide (x < e)) 0 m.lookupEnds.length
    let begin := min (group * m.lookupStride) m.index.length
    Search.upperBound (endsPast m.index x) begin (min m.lookupStride (m.index.length - begin))

/-- The entries from there on. -/
def MergedLsmt.seek (m : MergedLsmt) (x : ℕ) : List SegmentMapping := m.index.drop (m.seekPos x)

/-- `layers_[tag]->data_source()`. -/
def MergedLsmt.source (m : MergedLsmt) (tag : ℕ) : BlobSource :=
  (m.layers[tag]?).elim .absent LsmtLayer.dataSource

/-- What a read returns: the `ssize_t`, the buffer, and the log of source calls. -/
structure ReadResult where
  ret : ℤ
  out : Buf
  log : List PieceLog

/-- The result of a walk that serves `count` bytes. -/
def ReadRun.result (run : ReadRun) (count : ℕ) : ReadResult :=
  ⟨run.fail.getD count, run.out, run.log⟩

/-- `MergedLsmt::pread`. -/
def MergedLsmt.pread (m : MergedLsmt) (out : Buf) (count off : ℕ) : ReadResult :=
  if off % kAlignment ≠ 0 ∨ count % kAlignment ≠ 0 then ⟨-einval, out, []⟩
  else if m.vsize ≤ off then ⟨0, out, []⟩
  else
    let count := if m.vsize - off < count then m.vsize - off else count
    if count = 0 then ⟨0, out, []⟩
    else
      let start := off / kAlignment
      let fin := (off + count) / kAlignment
      (readLoop m.source start fin (m.seek start) start 0 out).result count

/-! ### The DATA runs of a window -/

/-- One request the walk makes: to which layer, for how many bytes, from where. -/
structure DataPiece where
  tag : ℕ
  count : ℕ
  off : ℕ
deriving DecidableEq, Repr

/-- What the first attempt at the `n`-th run returns. -/
def DataPiece.first (src : ℕ → BlobSource) (n : ℕ) (p : DataPiece) : ℤ :=
  ((src p.tag).pread (2 * n) p.count p.off).ret

/-- What the retry of the `n`-th run returns, if it is made. -/
def DataPiece.retry (src : ℕ → BlobSource) (n : ℕ) (p : DataPiece) : ℤ :=
  ((src p.tag).pread (2 * n + 1) (p.count - (p.first src n).toNat) (p.off + (p.first src n).toNat)).ret

/-- The first attempt answered, but not with everything. -/
def DataPiece.Short (src : ℕ → BlobSource) (n : ℕ) (p : DataPiece) : Prop :=
  0 ≤ p.first src n ∧ p.first src n < p.count

instance (src : ℕ → BlobSource) (n : ℕ) (p : DataPiece) : Decidable (p.Short src n) :=
  inferInstanceAs (Decidable (_ ∧ _))

/-- The log of the `n`-th run. -/
def DataPiece.log (src : ℕ → BlobSource) (n : ℕ) (p : DataPiece) : PieceLog :=
  if p.Short src n then
    ⟨[⟨p.count, p.first src n⟩, ⟨p.count - (p.first src n).toNat, p.retry src n⟩],
      decide ((max (p.retry src n) 0).toNat + (p.first src n).toNat < p.count)⟩
  else ⟨[⟨p.count, p.first src n⟩], false⟩

/-- The byte at position `j` of a sector that resolves as given, the payload of layer `t` being
`content t`. -/
def placeByte (content : ℕ → Buf) : Option (ℕ × Place) → ℕ → UInt8
  | some (t, .data p), j => content t (p * kAlignment + j)
  | _, _ => 0

/-- The source answers every request inside the payload of a run in full, with `content`. -/
def Serves (src : ℕ → BlobSource) (content : ℕ → Buf) (s : SegmentMapping) : Prop :=
  s.zeroed = false → ∀ n count off, s.moffset * kAlignment ≤ off →
    off + count ≤ (s.moffset + s.length) * kAlignment →
    ((src s.tag).pread n count off).ret = count ∧
      ∀ i < count, ((src s.tag).pread n count off).bytes i = content s.tag (off + i)

theorem pieceBytes_eq {a b : ℕ} (h : a ≤ b) (hb : b * kAlignment < 2 ^ 64) :
    pieceBytes a b = (b - a) * kAlignment := by
  unfold pieceBytes kAlignment at *
  omega

/-- A request answered in full is one `put`. -/
theorem readPiece_of_full {src : BlobSource} {n count off : ℕ} (p : ℕ) (out : Buf)
    (h : (src.pread (2 * n) count off).ret = count) :
    (readPiece src n out p count off).fail = none ∧
      (readPiece src n out p count off).out = out.put p count (src.pread (2 * n) count off).bytes := by
  unfold readPiece
  simp only [h, Int.toNat_natCast, lt_irrefl, if_false]
  rw [if_neg (by omega)]
  exact ⟨rfl, rfl⟩

/-- Sectors `[a, b)` of the request were filled with what `ans` resolves them to, nothing else was. -/
def Filled (content : ℕ → Buf) (ans : ℕ → Option (ℕ × Place)) (start a b : ℕ) (out out' : Buf) : Prop :=
  ∀ i, out' i = if a ≤ start + i / kAlignment ∧ start + i / kAlignment < b then
    placeByte content (ans (start + i / kAlignment)) (i % kAlignment) else out i

section Filled

variable {content : ℕ → Buf} {ans ans' : ℕ → Option (ℕ × Place)} {start a b c : ℕ} {out out' out'' : Buf}

theorem filled_refl (h : b ≤ a) : Filled content ans start a b out out := by
  intro i
  rw [if_neg (by omega)]

theorem Filled.trans (h : Filled content ans start a b out out') (h' : Filled content ans start b c out' out'')
    (hab : a ≤ b) (hbc : b ≤ c) : Filled content ans start a c out out'' := by
  intro i
  rw [h' i, h i]
  split_ifs <;> first | rfl | omega

/-- The byte range a run of sectors occupies in the buffer. -/
theorem mem_sectors_iff (hs : start ≤ a) (hab : a ≤ b) (i : ℕ) :
    ((a - start) * kAlignment ≤ i ∧ i < (a - start) * kAlignment + (b - a) * kAlignment) ↔
      a ≤ start + i / kAlignment ∧ start + i / kAlignment < b := by
  obtain ⟨a, rfl⟩ := Nat.exists_eq_add_of_le hs
  obtain ⟨b, rfl⟩ := Nat.exists_eq_add_of_le hab
  simp only [kAlignment, Nat.add_sub_cancel_left]
  omega

theorem filled_zero (hs : start ≤ a) (hab : a ≤ b)
    (h : ∀ x, a ≤ x → x < b → ∀ j, placeByte content (ans x) j = 0) :
    Filled content ans start a b out (out.zero ((a - start) * kAlignment) ((b - a) * kAlignment)) := by
  intro i
  by_cases hi : a ≤ start + i / kAlignment ∧ start + i / kAlignment < b
  · rw [if_pos hi, h _ hi.1 hi.2]
    exact Buf.zero_of_mem ((mem_sectors_iff hs hab i).mpr hi)
  · rw [if_neg hi]
    exact Buf.zero_of_not fun hm => hi ((mem_sectors_iff hs hab i).mp hm)

theorem filled_put (hs : start ≤ a) (hab : a ≤ b) (src : Buf)
    (h : ∀ i, i < (b - a) * kAlignment → src i = placeByte content (ans (a + i / kAlignment)) (i % kAlignment)) :
    Filled content ans start a b out (out.put ((a - start) * kAlignment) ((b - a) * kAlignment) src) := by
  intro i
  by_cases hi : a ≤ start + i / kAlignment ∧ start + i / kAlignment < b
  · have hm := (mem_sectors_iff hs hab i).mpr hi
    rw [if_pos hi, Buf.put_of_mem hm, h _ (by omega)]
    obtain ⟨a, rfl⟩ := Nat.exists_eq_add_of_le hs
    simp only [kAlignment, Nat.add_sub_cancel_left] at hm ⊢
    have hdiv : start + a + (i - a * 512) / 512 = start + i / 512 := by omega
    have hmod : (i - a * 512) % 512 = i % 512 := by omega
    rw [hdiv, hmod]
  · rw [if_neg hi]
    exact Buf.put_of_not fun hm => hi ((mem_sectors_iff hs hab i).mp hm)

end Filled

/-- A byte offset into a run, as a sector of it and an offset inside the sector. -/
theorem sector_byte (p i : ℕ) : (p + i / kAlignment) * kAlignment + i % kAlignment = p * kAlignment + i := by
  simp only [kAlignment]
  omega

/-- Before its first entry an index maps nothing. -/
theorem resolveTagged_before {s : SegmentMapping} {rest : List SegmentMapping} (hw : IndexWf (s :: rest))
    {x : ℕ} (hx : x < s.offset) : resolveTagged (s :: rest) x = none :=
  hw.ordered.lookup_lt_head (hw.proper s List.mem_cons_self).le hx

/-- **The entries a walk from `cur` to `fin` meets never end behind it.** -/
def Ascends (fin : ℕ) : List SegmentMapping → ℕ → Prop
  | [], _ => True
  | s :: rest, cur => fin ≤ cur ∨ fin ≤ s.offset ∨ (cur ≤ s.stop ∧ Ascends fin rest (min s.stop fin))

theorem ascends_of_le {fin : ℕ} (l : List SegmentMapping) {cur : ℕ} (h : fin ≤ cur) : Ascends fin l cur := by
  cases l with
  | nil => exact trivial
  | cons s rest => exact .inl h

/-- A shorter walk meets no more. -/
theorem Ascends.mono {fin fin' : ℕ} (hle : fin' ≤ fin) {l : List SegmentMapping} {cur : ℕ} (h : Ascends fin l cur) :
    Ascends fin' l cur := by
  induction l generalizing cur with
  | nil => exact trivial
  | cons s rest ih =>
    rcases h with h | h | ⟨h, hrest⟩
    · exact .inl (hle.trans h)
    · exact .inr (.inl (hle.trans h))
    · refine .inr (.inr ⟨h, ?_⟩)
      rcases Nat.lt_or_ge fin' s.stop with hlt | hge
      · exact ascends_of_le rest (by omega)
      · rw [Nat.min_eq_left hge]
        rw [Nat.min_eq_left (hge.trans hle)] at hrest
        exact ih hrest

/-- Over entries in order, from a landing place on, no walk falls back. -/
theorem ascends_of_ordered {l : List SegmentMapping} (h : Ordered l) {fin cur : ℕ} (hcur : ∀ s ∈ l.head?, cur ≤ s.stop) :
    Ascends fin l cur := by
  induction l generalizing cur with
  | nil => exact trivial
  | cons s rest ih =>
    refine .inr (.inr ⟨hcur s rfl, ih h.tail fun t ht => ?_⟩)
    have hle : s.stop ≤ t.offset := h.head_le (List.mem_of_mem_head? ht)
    exact (min_le_left _ _).trans (hle.trans (Nat.le_add_right _ _))

/-- The source answers every request inside the payload of an entry in full, with `content`, or with an error. -/
def AnswersOrFails (src : ℕ → BlobSource) (content : ℕ → Buf) (s : SegmentMapping) : Prop :=
  s.zeroed = false → ∀ n count off, s.moffset * kAlignment ≤ off →
    off + count ≤ (s.moffset + s.length) * kAlignment →
    ((src s.tag).pread n count off).ret < 0 ∨ (((src s.tag).pread n count off).ret = count ∧
      ∀ i < count, ((src s.tag).pread n count off).bytes i = content s.tag (off + i))

theorem readPiece_of_neg {src : BlobSource} {n count off : ℕ} (p : ℕ) (out : Buf)
    (h : (src.pread (2 * n) count off).ret < 0) :
    (readPiece src n out p count off).fail = some (src.pread (2 * n) count off).ret := by
  unfold readPiece
  simp only [if_pos h]

/-- From `cur` on `ans` is what the entries say, and nothing between them. -/
def Renders (ans : ℕ → Option (ℕ × Place)) : List SegmentMapping → ℕ → Prop
  | [], cur => ∀ x, cur ≤ x → ans x = none
  | s :: rest, cur =>
    (∀ x, cur ≤ x → x < s.offset → ans x = none) ∧ (∀ x, cur ≤ x → Covers s x → ans x = some (s.placed x)) ∧
      s.offset < s.stop ∧ Renders ans rest s.stop

/-- An index says what it resolves to. -/
theorem renders_of_wf {ans : ℕ → Option (ℕ × Place)} {l : List SegmentMapping} (hw : IndexWf l) {cur : ℕ}
    (hcur : ∀ s ∈ l, cur ≤ s.stop) (h : ∀ x, cur ≤ x → ans x = resolveTagged l x) : Renders ans l cur := by
  induction l generalizing cur with
  | nil => exact h
  | cons s rest ih =>
    have hle := hcur s List.mem_cons_self
    refine ⟨fun x hx hx' => (h x hx).trans (resolveTagged_before hw hx'),
      fun x hx hc => (h x hx).trans (lookup_cons_of_covers hc), hw.proper s List.mem_cons_self, ih hw.of_cons ?_ ?_⟩
    · exact fun t ht => (hw.ordered.head_le ht).trans (Nat.le_add_right _ _)
    · exact fun x hx => (h x (hle.trans hx)).trans (lookup_cons_of_not fun hc => absurd hc.2 (not_lt.mpr hx))

section Walk

variable {ans : ℕ → Option (ℕ × Place)} {src : ℕ → BlobSource} {content : ℕ → Buf}

/-- **The walk** over entries that say what `ans` does fills the sectors up to `fin` with it, or reports an error of a
source. -/
theorem readLoop_renders (start fin : ℕ) (hfin : fin * kAlignment < 2 ^ 64) :
    ∀ (l : List SegmentMapping) (cur n : ℕ) (out : Buf), Renders ans l cur →
      (∀ s ∈ l, AnswersOrFails src content s) → Ascends fin l cur → start ≤ cur →
      ((∃ s ∈ l, ¬ Serves src content s) ∧ ∃ r < 0, (readLoop src start fin l cur n out).fail = some r) ∨
        ((readLoop src start fin l cur n out).fail = none ∧
          Filled content ans start cur fin out (readLoop src start fin l cur n out).out)
  | [], cur, n, out, hdesc, _, _, hstart => by
    rw [readLoop]
    by_cases h1 : fin ≤ cur
    · rw [if_pos h1]
      exact .inr ⟨rfl, filled_refl h1⟩
    · rw [if_neg h1]
      refine .inr ⟨rfl, filled_zero hstart (by omega) fun x hx _ _ => ?_⟩
      rw [hdesc x hx]
      rfl
  | s :: rest, cur, n, out, ⟨hgap, hthere, hs1, hdesc⟩, hsrc, hasc, hstart => by
    have hbefore : ∀ x, cur ≤ x → x < s.offset → ∀ j, placeByte content (ans x) j = 0 := by
      intro x hx hx' j
      rw [hgap x hx hx']
      rfl
    rw [readLoop]
    by_cases h1 : fin ≤ cur
    · rw [if_pos h1]
      exact .inr ⟨rfl, filled_refl h1⟩
    by_cases h2 : fin ≤ s.offset
    · -- a trailing hole
      rw [if_neg h1, if_pos h2]
      exact .inr ⟨rfl, filled_zero hstart (by omega) fun x hx hx' => hbefore x hx (by omega)⟩
    rw [if_neg h1, if_neg h2]
    obtain ⟨hcs, hascend⟩ := (hasc.resolve_left h1).resolve_left h2
    set out₁ := if cur < s.offset then
      out.zero ((cur - start) * kAlignment) ((s.offset - cur) * kAlignment) else out with hout₁
    set segFrom := max s.offset cur with hfrom
    set segTo := min s.stop fin with hto
    have hcount : pieceBytes segFrom segTo = (segTo - segFrom) * kAlignment :=
      pieceBytes_eq (by omega) ((Nat.mul_le_mul_right _ (by omega)).trans_lt hfin)
    have hcov : ∀ x, segFrom ≤ x → x < segTo → ans x = some (s.placed x) := by
      intro x hx1 hx2
      refine hthere x (by omega) ?_
      simp only [covers_iff, stop] at *
      omega
    have hhole : Filled content ans start cur segFrom out out₁ := by
      by_cases hc : cur < s.offset
      · rw [hout₁, if_pos hc, hfrom, Nat.max_eq_left hc.le]
        exact filled_zero hstart hc.le fun x hx hx' => hbefore x hx hx'
      · rw [hout₁, if_neg hc]
        exact filled_refl (by omega)
    -- whatever the entry is, once it is served the walk goes on past it or is over
    have hrest : ∀ (n' : ℕ) (out₂ : Buf), Filled content ans start segFrom segTo out₁ out₂ → s.stop ≤ segTo →
        ((∃ t ∈ s :: rest, ¬ Serves src content t) ∧ ∃ r < 0, (readLoop src start fin rest segTo n' out₂).fail = some r) ∨
          ((readLoop src start fin rest segTo n' out₂).fail = none ∧
            Filled content ans start cur fin out (readLoop src start fin rest segTo n' out₂).out) := by
      intro n' out₂ hout₂ hstop
      have hsegTo : segTo = s.stop := Nat.le_antisymm (min_le_left _ _) hstop
      rcases readLoop_renders start fin hfin rest segTo n' out₂ (hsegTo ▸ hdesc)
        (fun t ht => hsrc t (List.mem_cons_of_mem _ ht)) hascend (by omega) with ⟨⟨t, ht, hno⟩, hfail⟩ | ⟨hnone, hbytes⟩
      · exact .inl ⟨⟨t, List.mem_cons_of_mem _ ht, hno⟩, hfail⟩
      · exact .inr ⟨hnone, (hhole.trans hout₂ (by omega) (by omega)).trans hbytes (by omega) (by omega)⟩
    have hlast : ∀ out₂ : Buf, Filled content ans start segFrom segTo out₁ out₂ → ¬ s.stop ≤ segTo →
        Filled content ans start cur fin out out₂ := by
      intro out₂ hout₂ hstop
      have : segTo = fin := by omega
      exact this ▸ hhole.trans hout₂ (by omega) (by omega)
    by_cases hz : s.zeroed = true
    · simp only [if_pos hz, hcount]
      have hzero : Filled content ans start segFrom segTo out₁
          (out₁.zero ((segFrom - start) * kAlignment) ((segTo - segFrom) * kAlignment)) := by
        refine filled_zero (by omega) (by omega) fun x hx1 hx2 j => ?_
        rw [hcov x hx1 hx2]
        simp [placed, place, hz, placeByte]
      by_cases hstop : s.stop ≤ segTo
      · simp only [if_pos hstop]
        exact hrest n _ hzero hstop
      · simp only [if_neg hstop]
        exact .inr ⟨trivial, hlast _ hzero hstop⟩
    · have hz' : s.zeroed = false := by simpa using hz
      simp only [if_neg hz, hcount]
      rcases hsrc s List.mem_cons_self hz' (2 * n) ((segTo - segFrom) * kAlignment)
        ((s.moffset + (segFrom - s.offset)) * kAlignment) (by simp only [kAlignment]; omega)
        (by simp only [kAlignment, stop] at *; omega) with hneg | ⟨hret, hbytes⟩
      · rw [readPiece_of_neg _ _ hneg]
        refine .inl ⟨⟨s, List.mem_cons_self, fun hserves => ?_⟩, _, hneg, rfl⟩
        rw [(hserves hz' _ _ _ (by simp only [kAlignment]; omega) (by simp only [kAlignment, stop] at *; omega)).1] at hneg
        omega
      obtain ⟨hnone, hput⟩ := readPiece_of_full ((segFrom - start) * kAlignment) out₁ hret
      rw [hnone, hput]
      have hdata : Filled content ans start segFrom segTo out₁
          (out₁.put ((segFrom - start) * kAlignment) ((segTo - segFrom) * kAlignment)
            ((src s.tag).pread (2 * n) ((segTo - segFrom) * kAlignment)
              ((s.moffset + (segFrom - s.offset)) * kAlignment)).bytes) := by
        refine filled_put (by omega) (by omega) _ fun i hi => ?_
        have hsec : i / kAlignment < segTo - segFrom := Nat.div_lt_of_lt_mul (by rwa [Nat.mul_comm])
        rw [hbytes i hi, hcov _ (Nat.le_add_right _ _) (by omega)]
        simp only [placed, place, hz', Bool.false_eq_true, if_false, placeByte]
        rw [Nat.sub_add_comm (show s.offset ≤ segFrom by omega), ← Nat.add_assoc, sector_byte]
      by_cases hstop : s.stop ≤ segTo
      · simp only [if_pos hstop]
        exact hrest (n + 1) _ hdata hstop
      · simp only [if_neg hstop]
        exact .inr ⟨trivial, hlast _ hdata hstop⟩

/-- Over sources that hold the payload the walk fills exactly its sectors, each with what the index resolves it to. -/
theorem readLoop_out (start fin : ℕ) (hfin : fin * kAlignment < 2 ^ 64) {l : List SegmentMapping} {cur n : ℕ} {out : Buf}
    (hw : IndexWf l) (hend : ∀ s ∈ l, cur < s.stop) (hserve : ∀ s ∈ l, Serves src content s) (hstart : start ≤ cur) :
    (readLoop src start fin l cur n out).fail = none ∧
      Filled content (resolveTagged l) start cur fin out (readLoop src start fin l cur n out).out := by
  have hasc : Ascends fin l cur :=
    ascends_of_ordered hw.ordered fun s hs => (hend s (List.mem_of_mem_head? hs)).le
  have hsrc : ∀ s ∈ l, AnswersOrFails src content s :=
    fun s hs hz n count off h1 h2 => .inr (hserve s hs hz n count off h1 h2)
  rcases readLoop_renders start fin hfin l cur n out
    (renders_of_wf hw (fun s hs => (hend s hs).le) fun _ _ => rfl) hsrc hasc hstart with ⟨⟨s, hs, hno⟩, -⟩ | h
  · exact absurd (hserve s hs) hno
  · exact h

end Walk

end OverlayBD
