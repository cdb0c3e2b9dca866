import OverlayBD.Format.Segment
import OverlayBD.Lib.Runs

/-!
# Scanning the extents of a sparse file (`format/sparse_extent_scan.cpp`)

The ownership of a sparse upper layer is not stored.  It is what the filesystem says about the backing file: written
extents are DATA, unwritten extents are ZERO, holes are inherited.  `scan_sparse_extents` asks for it with FIEMAP, at most
128 extents at a time, from a cursor that moves to the end of each extent it has taken.

## The model

* `Extent` — a `fiemap_extent`, with the three flags the scan reads.
* `Backing` — what the kernel answers: `statfs`, the allocation attributes, `fstat`, and the reply to each FIEMAP call,
  which may depend on how many calls there were before.
* `append`, `scanBatch`, `scanFrom`, `scanSparseExtents` — the scan as it is written; the loop ends because every extent
  moves the cursor.
* `Faithful` — a reply that tells the truth about a file, up to the end of its last extent.  Which extents a reply holds, how
  many, and where they are cut is left open.

## What is proved

* `appendRuns_spec` — runs stay packed, whatever is appended.
* `scanBatch_spec`, `scanFrom_spec` — what a reply adds, and what the loop keeps.
* `scan_owns` — a scan that returns gives every byte the owner the file gives it, in one list only.
* `describes_batched`, `exists_scan_batched` — a kernel that cuts the file's own extents into replies of any sizes is
  faithful, and if they are aligned the scan returns.
-/

namespace OverlayBD

open Intervals SegmentMapping Errno

/-- An error of the library: `errno` and the context. -/
structure Thrown where
  /-- The error number. -/
  errno : ℤ
  /-- The context. -/
  what : String
deriving DecidableEq, Repr

/-- `format_error`. -/
def formatError (context : String) : Thrown := ⟨einval, "format error: " ++ context⟩

/-- The owner of a sector: ZERO, DATA, or none. -/
abbrev owner (l : List SegmentMapping) (x : ℕ) : Option Bool := lookup (fun s _ => s.zeroed) l x

/-- `kSector`. -/
abbrev kSector : ℕ := 512

/-- `kBatch`. -/
def kBatch : ℕ := 128

/-- A `fiemap_extent`. -/
structure Extent where
  /-- `fe_logical`, in bytes. -/
  logical : ℕ
  /-- `fe_length`, in bytes. -/
  length : ℕ
  /-- `FIEMAP_EXTENT_UNWRITTEN`. -/
  unwritten : Bool
  /-- `FIEMAP_EXTENT_DELALLOC`. -/
  delalloc : Bool
  /-- `FIEMAP_EXTENT_LAST`. -/
  last : Bool
deriving DecidableEq, Repr

/-- The end of the extent. -/
def Extent.stop (e : Extent) : ℕ := e.logical + e.length

instance : Intervals.Interval Extent := ⟨Extent.logical, Extent.stop⟩

/-- What the kernel answers about a file. -/
structure Backing where
  /-- `f_bsize`. -/
  statfs : Except ℤ ℕ
  /-- `_SC_PAGESIZE`. -/
  pageSize : ℕ
  /-- `fsx_extsize` and `FS_XFLAG_REALTIME`. -/
  xattr : Except ℤ (ℕ × Bool)
  /-- `S_ISREG` and `st_size`. -/
  fstat : Except ℤ (Bool × ℤ)
  /-- The reply to the call number `round`, from `start` over `len` bytes; `sync` asks to drain buffered data. -/
  fiemap : (round start len : ℕ) → (sync : Bool) → Except ℤ (List Extent)

/-! ### The scan -/

/-- The last run, if it can take sector `lo`. -/
def extendable (out : List SegmentMapping) (lo : ℕ) (zero : Bool) : Option SegmentMapping :=
  out.getLast?.filter fun last => decide (last.stop = lo ∧ last.zeroed = zero ∧ last.length < kMaxLength)

/-- The loop of `append`, in sectors. -/
def appendRuns (out : List SegmentMapping) (lo hi : ℕ) (zero : Bool) : List SegmentMapping :=
  if lo < hi then
    match h : extendable out lo zero with
    | some last =>
      let n := min (hi - lo) (kMaxLength - last.length)
      appendRuns (out.dropLast ++ [{ last with length := last.length + n }]) (lo + n) hi zero
    | none =>
      let n := min (hi - lo) kMaxLength
      appendRuns (out ++ [⟨lo, n, if zero then 0 else lo, zero, 0⟩]) (lo + n) hi zero
  else out
termination_by hi - lo
decreasing_by
  · have := (Option.filter_eq_some_iff.mp h).2
    simp only [decide_eq_true_eq] at this
    omega
  · have : 0 < kMaxLength := by decide
    omega

/-- `append`. -/
def append (out : List SegmentMapping) (lo hi : ℕ) (zero : Bool) : Except Thrown (List SegmentMapping) :=
  if lo % kSector ≠ 0 ∨ hi % kSector ≠ 0 ∨ hi < lo then .error ⟨eio, "Sparse extent is not sector aligned"⟩
  else .ok (appendRuns out (lo / kSector) (hi / kSector) zero)

/-- `validate_sparse_extent_backing`. -/
def validateSparseExtentBacking (k : Backing) : Except Thrown Unit :=
  match k.statfs with
  | .error e => .error ⟨e, "Sparse backing geometry query failed"⟩
  | .ok bsize =>
    if bsize ≠ 4096 ∨ k.pageSize ≠ 4096 then
      .error ⟨eopnotsupp, "extent Sparse requires 4 KiB filesystem blocks and host pages"⟩
    else
      match k.xattr with
      | .error e =>
        if e ≠ eopnotsupp ∧ e ≠ enotty then .error ⟨e, "Sparse allocation policy query failed"⟩ else .ok ()
      | .ok (extsize, realtime) =>
        if 4096 < extsize ∨ realtime then
          .error ⟨eopnotsupp, "Sparse backing allocation policy exceeds its 4 KiB ownership unit"⟩
        else .ok ()

/-- One extent of a reply: the runs with it, the cursor at its end. -/
def scanExtent (size : ℕ) (first : Bool) (e : Extent) (cursor : ℕ) (out : List SegmentMapping) :
    Except Thrown (List SegmentMapping) :=
  if e.length = 0 ∨ 2 ^ 64 - 1 - e.length < e.logical then .error ⟨eio, "Sparse FIEMAP extent overflow"⟩
  else if e.stop ≤ cursor ∨ (first = false ∧ e.logical < cursor) then
    .error ⟨eio, "Sparse FIEMAP extent overlap or no progress"⟩
  else if max cursor e.logical < min size e.stop then
    if e.unwritten ∧ e.delalloc then .error ⟨eio, "Sparse FIEMAP returned conflicting ownership flags"⟩
    else append out (max cursor e.logical) (min size e.stop) e.unwritten
  else .ok out

/-- The loop over a reply: the cursor and the runs behind it, and whether its last extent is the last of the file. -/
def scanBatch (size : ℕ) : Bool → List Extent → ℕ → List SegmentMapping → Bool →
    Except Thrown (ℕ × List SegmentMapping × Bool)
  | _, [], cursor, out, last => .ok (cursor, out, last)
  | first, e :: es, cursor, out, _ => do
    let out ← scanExtent size first e cursor out
    scanBatch size false es e.stop out e.last

/-- A sequence that returns. -/
theorem bind_eq_ok {ε α β : Type} {x : Except ε α} {f : α → Except ε β} {b : β} :
    x >>= f = .ok b ↔ ∃ a, x = .ok a ∧ f a = .ok b := by
  cases x with
  | error e => simp [bind, Except.bind]
  | ok a => simp [bind, Except.bind]

/-- Every extent moves the cursor. -/
theorem lt_stop_of_scanExtent {size : ℕ} {first : Bool} {e : Extent} {cursor : ℕ} {out out' : List SegmentMapping}
    (h : scanExtent size first e cursor out = .ok out') : cursor < e.stop := by
  unfold scanExtent at h
  split_ifs at h with h1 h2 <;> omega

theorem le_of_scanBatch {size : ℕ} {first : Bool} {es : List Extent} {cursor c : ℕ} {out o : List SegmentMapping}
    {last b : Bool} (h : scanBatch size first es cursor out last = .ok (c, o, b)) : cursor ≤ c := by
  induction es generalizing first cursor out last with
  | nil => exact (congrArg Prod.fst (Except.ok.inj h)).le
  | cons e es ih =>
    obtain ⟨out', hout, hrest⟩ := bind_eq_ok.mp h
    exact (lt_stop_of_scanExtent hout).le.trans (ih hrest)

theorem lt_of_scanBatch {size : ℕ} {first : Bool} {e : Extent} {es : List Extent} {cursor c : ℕ}
    {out o : List SegmentMapping} {last b : Bool} (h : scanBatch size first (e :: es) cursor out last = .ok (c, o, b)) :
    cursor < c := by
  obtain ⟨out', hout, hrest⟩ := bind_eq_ok.mp h
  exact (lt_stop_of_scanExtent hout).trans_le (le_of_scanBatch hrest)

/-- The FIEMAP loop. -/
def scanFrom (k : Backing) (size round cursor : ℕ) (out : List SegmentMapping) : Except Thrown (List SegmentMapping) :=
  if cursor < size then
    match k.fiemap round cursor (size - cursor) (decide (cursor = 0)) with
    | .error e => .error ⟨e, "Sparse FIEMAP failed"⟩
    | .ok es =>
      if kBatch < es.length then .error ⟨eio, "Sparse FIEMAP returned too many extents"⟩
      else
        match es with
        | [] => .ok out
        | e :: es =>
          match h : scanBatch size true (e :: es) cursor out false with
          | .error t => .error t
          | .ok (c, o, last) => if last then .ok o else scanFrom k size (round + 1) c o
  else .ok out
termination_by size - cursor
decreasing_by
  have := lt_of_scanBatch h
  omega

/-- `scan_sparse_extents`. -/
def scanSparseExtents (k : Backing) (size : ℕ) : Except Thrown (List SegmentMapping) := do
  validateSparseExtentBacking k
  if size = 0 ∨ size % 4096 ≠ 0 ∨ kInvalidOffset ≤ size / kSector ∨ 2 ^ 63 - 1 < size then
    throw ⟨einval, "Sparse extent size must be positive and 4 KiB aligned"⟩
  match k.fstat with
  | .error e => throw ⟨e, "Sparse extent fstat failed"⟩
  | .ok (regular, stSize) =>
    if regular = false ∨ stSize < 0 ∨ stSize ≠ size then
      throw ⟨einval, "Sparse backing file must cover exactly its virtual size"⟩
    scanFrom k size 0 0 []

/-! ### Runs -/

/-- **Runs as ownership has them**: in order, of 1 to 16383 sectors, DATA at its own place, none past the bound. -/
structure Owned (out : List SegmentMapping) (bound : ℕ) : Prop where
  ordered : Ordered out
  proper : Proper out
  short : ∀ s ∈ out, s.length ≤ kMaxLength
  exact : ∀ s ∈ out, s.moffset = (if s.zeroed then 0 else s.offset) ∧ s.tag = 0
  below : ∀ s ∈ out, s.stop ≤ bound

/-- **The runs of a scan** are packed. -/
structure Scanned (out : List SegmentMapping) (bound : ℕ) : Prop extends Owned out bound where
  full : out.IsChain fun s t => Adjoining (fun r => r.zeroed) s t → hi s = lo s + kMaxLength

variable {out pre : List SegmentMapping} {last s : SegmentMapping} {lo hi n x bound : ℕ} {zero : Bool}

theorem owned_nil : Owned [] bound := ⟨ordered_nil, by simp [Proper], by simp, by simp, by simp⟩

theorem scanned_nil : Scanned [] bound := ⟨owned_nil, .nil⟩

theorem Owned.mono (h : Owned out lo) (hle : lo ≤ hi) : Owned out hi :=
  { h with below := fun s hs => (h.below s hs).trans hle }

theorem Scanned.mono (h : Scanned out lo) (hle : lo ≤ hi) : Scanned out hi := ⟨h.toOwned.mono hle, h.full⟩

theorem Owned.tail (h : Owned (s :: out) bound) : Owned out bound where
  ordered := h.ordered.tail
  proper t ht := h.proper t (List.mem_cons_of_mem _ ht)
  short t ht := h.short t (List.mem_cons_of_mem _ ht)
  exact t ht := h.exact t (List.mem_cons_of_mem _ ht)
  below t ht := h.below t (List.mem_cons_of_mem _ ht)

theorem Scanned.packed (h : Scanned out bound) : Packed kMaxLength (fun s => s.zeroed) out :=
  ⟨h.ordered, h.proper, fun s hs => Nat.add_le_add_left (h.short s hs) _, h.full⟩

/-- Nothing is owned behind the bound. -/
theorem Owned.owner_none (h : Owned out bound) (hx : bound ≤ x) : owner out x = none :=
  lookup_none_of_ge h.below hx

/-- What owned runs resolve to. -/
theorem Owned.resolve_eq (h : Owned out bound) (x : ℕ) :
    resolve out x = (owner out x).map fun zero => if zero then .zero else .data x := by
  induction out with
  | nil => rfl
  | cons s out ih =>
    by_cases hc : Covers s x
    · have hmoff := (h.exact s List.mem_cons_self).1
      have hle : s.offset ≤ x := hc.1
      rw [resolve, owner, lookup_cons_of_covers hc, lookup_cons_of_covers hc]
      cases hz : s.zeroed with
      | true => simp [place, hz]
      | false =>
        rw [hz, if_neg Bool.false_ne_true] at hmoff
        simp only [place, hz, Bool.false_eq_true, if_false, Option.map_some, hmoff]
        rw [Nat.add_sub_cancel' hle]
    · rw [resolve, owner, lookup_cons_of_not hc, lookup_cons_of_not hc]
      exact ih h.tail

/-- A run of `n` sectors behind the others. -/
theorem Owned.push (h : Owned out lo) (hn : 0 < n) (hcap : n ≤ kMaxLength) (zero : Bool) :
    Owned (out ++ [⟨lo, n, if zero then 0 else lo, zero, 0⟩]) (lo + n) ∧
      ∀ x, owner (out ++ [⟨lo, n, if zero then 0 else lo, zero, 0⟩]) x =
        if lo ≤ x ∧ x < lo + n then some zero else owner out x := by
  have hord : Ordered (out ++ [(⟨lo, n, if zero then 0 else lo, zero, 0⟩ : SegmentMapping)]) := h.ordered.concat h.below
  refine ⟨⟨hord, forall_mem_concat.mpr ⟨h.proper, Nat.lt_add_of_pos_right hn⟩, forall_mem_concat.mpr ⟨h.short, hcap⟩,
    forall_mem_concat.mpr ⟨h.exact, rfl, rfl⟩,
    forall_mem_concat.mpr ⟨fun s hs => (h.below s hs).trans (Nat.le_add_right _ _), le_rfl⟩⟩, fun x => ?_⟩
  rw [owner, hord.lookup_insert, List.append_nil]
  rfl

/-- The last run with `n` sectors more. -/
theorem Owned.stretch (h : Owned (pre ++ [last]) lo) (hstop : last.stop = lo) (hpos : 0 < n)
    (hn : last.length + n ≤ kMaxLength) :
    Owned (pre ++ [{ last with length := last.length + n }]) (lo + n) ∧
      ∀ x, owner (pre ++ [{ last with length := last.length + n }]) x =
        if lo ≤ x ∧ x < lo + n then some last.zeroed else owner (pre ++ [last]) x := by
  have hstop' : last.offset + last.length = lo := hstop
  obtain ⟨hpush, hown⟩ := h.push hpos (by omega) last.zeroed
  have hjoin : Joined (fun s _ => s.zeroed) last ⟨lo, n, if last.zeroed then 0 else lo, last.zeroed, 0⟩
      { last with length := last.length + n } := joined_length hstop rfl fun _ _ => rfl
  rw [List.append_assoc] at hpush
  refine ⟨⟨hpush.ordered.join hjoin, forall_mem_join hpush.proper ?_, forall_mem_join hpush.short hn,
    forall_mem_join hpush.exact (h.exact last (by simp)), forall_mem_join hpush.below ?_⟩, fun x => ?_⟩
  · simp only [lo_eq, hi_eq]
    omega
  · simp only [stop]
    omega
  · rw [← hown, List.append_assoc]
    exact lookup_join hjoin

theorem extendable_eq_some (h : extendable out lo zero = some last) :
    out = out.dropLast ++ [last] ∧ last.stop = lo ∧ last.zeroed = zero ∧ last.length < kMaxLength := by
  obtain ⟨hlast, hif⟩ := Option.filter_eq_some_iff.mp h
  exact ⟨(List.dropLast_append_getLast? _ hlast).symm, of_decide_eq_true hif⟩

/-- A last run made longer leaves packed runs. -/
theorem Scanned.stretch (h : Scanned (pre ++ [last]) lo) (hstop : last.stop = lo) (hpos : 0 < n)
    (hn : last.length + n ≤ kMaxLength) : Scanned (pre ++ [{ last with length := last.length + n }]) (lo + n) := by
  have hpacked : Packed kMaxLength (fun s => s.zeroed) (pre ++ [{ last with length := last.length + n }]) := by
    refine h.packed.stretch rfl rfl ?_ ?_
    · simp only [hi_eq]
      omega
    · simp only [hi_eq, lo_eq]
      omega
  exact ⟨(h.toOwned.stretch hstop hpos hn).1, hpacked.full⟩

/-- So does a run that the last one cannot take. -/
theorem Scanned.push (h : Scanned out lo) (hn : 0 < n) (hcap : n ≤ kMaxLength) (hext : extendable out lo zero = none) :
    Scanned (out ++ [⟨lo, n, if zero then 0 else lo, zero, 0⟩]) (lo + n) := by
  refine ⟨(h.toOwned.push hn hcap zero).1, (h.packed.concat (fun s hs => h.below s hs) ?_ ?_ fun s hs hcont => ?_).full⟩
  · simpa using hn
  · simpa using hcap
  · -- a last run that is continued was not extendable, so it is full
    have hno := Option.filter_eq_none_iff.mp hext s hs
    have hshort := h.short s (List.mem_of_getLast? hs)
    simp only [decide_eq_true_eq, not_and, Nat.not_lt] at hno
    simp only [hi_eq, lo_eq]
    have hfull := hno hcont.1 hcont.2
    omega

/-- **What `append` does**: the sectors get their owner, the others keep theirs. -/
theorem appendRuns_spec (zero : Bool) (h : Scanned out lo) (hle : lo ≤ hi) :
    Scanned (appendRuns out lo hi zero) hi ∧
      ∀ x, owner (appendRuns out lo hi zero) x = if lo ≤ x ∧ x < hi then some zero else owner out x := by
  fun_induction appendRuns out lo hi zero with
  | case1 out lo hlt last hext n ih =>
    obtain ⟨hout, hstop, hzero, hlen⟩ := extendable_eq_some hext
    rw [hout] at h
    have hpos : 0 < n := by omega
    have hn : last.length + n ≤ kMaxLength := by omega
    have hown := (h.toOwned.stretch hstop hpos hn).2
    obtain ⟨hs', hown'⟩ := ih (h.stretch hstop hpos hn) (by omega)
    refine ⟨hs', fun x => ?_⟩
    rw [hown' x, hown x, hzero, ← hout]
    split_ifs <;> first | rfl | omega
  | case2 out lo hlt hext n ih =>
    simp only [dite_eq_ite] at ih
    have hpos : 0 < kMaxLength := by decide
    have hn : 0 < n := by omega
    have hcap : n ≤ kMaxLength := Nat.min_le_right _ _
    have hown := (h.toOwned.push hn hcap zero).2
    obtain ⟨hs', hown'⟩ := ih (h.push hn hcap hext) (by omega)
    refine ⟨hs', fun x => ?_⟩
    rw [hown' x, hown x]
    split_ifs <;> first | rfl | omega
  | case3 out lo hlt =>
    refine ⟨h.mono hle, fun x => ?_⟩
    rw [if_neg (by omega)]

/-! ### Replies -/

/-- The owner extents give a byte. -/
abbrev extentOwner (es : List Extent) (b : ℕ) : Option Bool := lookup (fun e _ => e.unwritten) es b

/-- The runs up to the cursor, and the cursor on a sector unless it is past the file. -/
structure At (size cursor : ℕ) (out : List SegmentMapping) : Prop where
  scanned : Scanned out (min cursor size / kSector)
  aligned : cursor < size → cursor % kSector = 0

variable {size cursor : ℕ} {first : Bool} {e : Extent} {es : List Extent} {out' : List SegmentMapping}

/-- Bytes the cursor has not reached have no owner. -/
theorem At.owner_none (h : At size cursor out) {b : ℕ} (hb : cursor ≤ b) (hsize : b < size) : owner out (b / kSector) = none := by
  refine h.scanned.owner_none ?_
  rw [Nat.min_eq_left (by omega)]
  exact Nat.div_le_div_right hb

theorem scanExtent_spec (hat : At size cursor out)
    (h : scanExtent size first e cursor out = .ok out') :
    At size e.stop out' ∧ (first = false → cursor ≤ e.logical) ∧
      ∀ b, b < e.stop → b < size → owner out' (b / kSector) =
        if b < cursor then owner out (b / kSector) else if e.logical ≤ b then some e.unwritten else none := by
  unfold scanExtent at h
  split_ifs at h with h1 h2 hlt hconflict
  all_goals
    simp only [not_or, not_and, Nat.not_lt, Nat.not_le] at h2
    obtain ⟨hprogress, hsorted⟩ := h2
  · unfold append at h
    split_ifs at h with hal
    have hout : appendRuns out _ _ _ = out' := Except.ok.inj h
    simp only [not_or, not_not, Nat.not_lt] at hal
    have halo : max cursor e.logical % 512 = 0 := hal.1
    have hahi : min size e.stop % 512 = 0 := hal.2.1
    have hbound : min cursor size / kSector ≤ max cursor e.logical / kSector := Nat.div_le_div_right (by omega)
    obtain ⟨hsc, hown⟩ := appendRuns_spec e.unwritten (hat.scanned.mono hbound)
      (Nat.div_le_div_right (c := kSector) hlt.le)
    rw [hout] at hsc hown
    rw [min_comm] at hsc
    refine ⟨⟨hsc, fun hstop => by rwa [Nat.min_eq_right hstop.le] at hahi⟩, hsorted, fun b hb hbs => ?_⟩
    rw [hown]
    by_cases hb1 : max cursor e.logical ≤ b
    · have hin : max cursor e.logical / 512 ≤ b / 512 ∧ b / 512 < min size e.stop / 512 := by omega
      rw [if_pos hin, if_neg (by omega), if_pos (by omega)]
    · have hout : ¬ (max cursor e.logical / 512 ≤ b / 512 ∧ b / 512 < min size e.stop / 512) := by omega
      rw [if_neg hout]
      split_ifs with h3 h4
      · rfl
      · omega
      · exact hat.owner_none (by omega) hbs
  · obtain rfl : out = out' := Except.ok.inj h
    have hstop : e.stop = e.logical + e.length := rfl
    refine ⟨⟨hat.scanned.mono (Nat.div_le_div_right (by omega)), by omega⟩, hsorted, fun b hb hbs => ?_⟩
    split_ifs with h3 h4
    · rfl
    · omega
    · exact hat.owner_none (by omega) hbs

/-- **What a reply adds**: its own owners, from the old cursor to the new one. -/
theorem scanBatch_spec {last : Bool} {c : ℕ} {o : List SegmentMapping} {l : Bool}
    (hat : At size cursor out) (h : scanBatch size first es cursor out last = .ok (c, o, l)) :
    At size c o ∧ (first = false → ∀ e ∈ es, cursor ≤ e.logical) ∧
      (∀ b, b < c → b < size → owner o (b / kSector) =
        if b < cursor then owner out (b / kSector) else extentOwner es b) ∧
      ∀ e ∈ es.getLast?, c = e.stop ∧ l = e.last := by
  induction es generalizing first cursor out last with
  | nil =>
    obtain ⟨rfl, rfl, rfl⟩ : cursor = c ∧ out = o ∧ last = l := by simpa [scanBatch] using h
    exact ⟨hat, by simp, fun b hb _ => by rw [if_pos hb], by simp⟩
  | cons e es ih =>
    obtain ⟨out', hout, hrest⟩ := bind_eq_ok.mp h
    obtain ⟨hat', hfirst, hown⟩ := scanExtent_spec hat hout
    have hlt := lt_stop_of_scanExtent hout
    obtain ⟨hato, hge, howno, hlast⟩ := ih hat' hrest
    have hge := hge rfl
    refine ⟨hato, fun hf r hr => ?_, fun b hb hbs => ?_, fun r hr => ?_⟩
    · rcases List.mem_cons.mp hr with rfl | hr
      · exact hfirst hf
      · exact hlt.le.trans (hge r hr)
    · rw [howno b hb hbs]
      by_cases hbe : b < e.stop
      · -- the extents behind this one begin at its end
        have hnone : extentOwner es b = none :=
          lookup_none_of_lt hge hbe
        rw [if_pos hbe, hown b hbe hbs]
        by_cases hcov : e.logical ≤ b
        · rw [if_pos hcov, extentOwner, lookup_cons_of_covers ⟨hcov, hbe⟩]
        · rw [if_neg hcov, extentOwner, lookup_cons_of_not fun hc => hcov hc.1]
          rw [show lookup _ es b = none from hnone]
      · rw [if_neg hbe, if_neg (by omega), extentOwner, extentOwner, lookup_cons_of_not fun hc => hbe hc.2]
    · cases es with
      | nil =>
        obtain rfl : e = r := by simpa using hr
        obtain ⟨rfl, -, rfl⟩ : e.stop = c ∧ out' = o ∧ e.last = l := by simpa [scanBatch] using hrest
        exact ⟨rfl, rfl⟩
      | cons r' es => exact hlast r (by rwa [List.getLast?_cons_cons] at hr)

/-! ### The loop -/

/-- **A true reply** about the bytes `start ≤ b < start + len`: what it says holds of the file up to the end of its last
extent, an empty reply says that there is nothing, and so does the flag behind the last extent. -/
structure Faithful (file : List Extent) (start len : ℕ) (es : List Extent) : Prop where
  empty : es = [] → ∀ b, start ≤ b → b < start + len → extentOwner file b = none
  upTo : ∀ e ∈ es.getLast?, ∀ b, start ≤ b → b < start + len → b < e.stop → extentOwner es b = extentOwner file b
  last : ∀ e ∈ es.getLast?, e.last = true → ∀ b, e.stop ≤ b → b < start + len → extentOwner file b = none

/-- The kernel's replies describe the file. -/
def Describes (file : List Extent) (k : Backing) (size : ℕ) : Prop :=
  ∀ round start sync es, start < size → k.fiemap round start (size - start) sync = .ok es →
    Faithful file start (size - start) es

/-- A true reply, taken. -/
theorem scanBatch_faithful {file : List Extent} {c : ℕ} {o : List SegmentMapping} {l : Bool}
    (hat : At size cursor out) (hlt : cursor < size)
    (hown : ∀ b, b < cursor → b < size → owner out (b / kSector) = extentOwner file b)
    (hf : Faithful file cursor (size - cursor) (e :: es))
    (h : scanBatch size true (e :: es) cursor out false = .ok (c, o, l)) :
    At size c o ∧ (∀ b, b < c → b < size → owner o (b / kSector) = extentOwner file b) ∧
      (l = true → ∀ b, c ≤ b → b < size → extentOwner file b = none) := by
  obtain ⟨hato, -, howno, hlast⟩ := scanBatch_spec hat h
  obtain ⟨r, hr⟩ : ∃ r, (e :: es).getLast? = some r := ⟨_, List.getLast?_eq_some_getLast (List.cons_ne_nil e es)⟩
  obtain ⟨rfl, rfl⟩ := hlast r hr
  refine ⟨hato, fun b hb hbs => ?_, fun hl b hb hbs => hf.last r hr hl b hb (by omega)⟩
  rw [howno b hb hbs]
  split_ifs with hbc
  · exact hown b hbc hbs
  · exact hf.upTo r hr b (by omega) (by omega) hb

/-- **The loop**: the owners behind the cursor are the file's, and in the end all are. -/
theorem scanFrom_spec {k : Backing} {file : List Extent} {round : ℕ} {segs : List SegmentMapping}
    (hk : Describes file k size) (hat : At size cursor out)
    (hown : ∀ b, b < cursor → b < size → owner out (b / kSector) = extentOwner file b) :
    scanFrom k size round cursor out = .ok segs →
      Scanned segs (size / kSector) ∧ ∀ b, b < size → owner segs (b / kSector) = extentOwner file b := by
  -- what the cursor has not reached is nobody's when the file has no more extents
  have hdone : ∀ {c : ℕ} {o : List SegmentMapping}, At size c o →
      (∀ b, b < c → b < size → owner o (b / kSector) = extentOwner file b) →
      (∀ b, c ≤ b → b < size → extentOwner file b = none) →
      Scanned o (size / kSector) ∧ ∀ b, b < size → owner o (b / kSector) = extentOwner file b := by
    intro c o hato howno hrest
    refine ⟨hato.scanned.mono (Nat.div_le_div_right (Nat.min_le_right _ _)), fun b hbs => ?_⟩
    by_cases hb : b < c
    · exact howno b hb hbs
    · rw [hato.owner_none (by omega) hbs, hrest b (by omega) hbs]
  fun_induction scanFrom k size round cursor out with
  | case1 => exact nofun
  | case2 => exact nofun
  | case3 round cursor out hlt hreply =>
    intro h
    obtain rfl := Except.ok.inj h
    exact hdone hat hown fun b hb hbs => (hk round cursor _ [] hlt hreply).empty rfl b hb (by omega)
  | case4 => exact nofun
  | case5 round cursor out hlt e es c o hreply _ hbatch =>
    intro h
    obtain rfl := Except.ok.inj h
    obtain ⟨hato, howno, hlast⟩ := scanBatch_faithful hat hlt hown (hk round cursor _ _ hlt hreply) hbatch
    exact hdone hato howno (hlast rfl)
  | case6 round cursor out hlt e es c o last hbatch _ hreply _ ih =>
    obtain ⟨hato, howno, -⟩ := scanBatch_faithful hat hlt hown (hk round cursor _ _ hlt hreply) hbatch
    exact ih hato howno
  | case7 round cursor out hge =>
    intro h
    obtain rfl := Except.ok.inj h
    exact hdone hat hown fun b hb hbs => absurd (hb.trans_lt hbs) hge

/-- What the checks in front of the loop leave. -/
theorem scanSparseExtents_eq_ok {k : Backing} {segs : List SegmentMapping} (h : scanSparseExtents k size = .ok segs) :
    scanFrom k size 0 0 [] = .ok segs := by
  unfold scanSparseExtents at h
  obtain ⟨_, -, h⟩ := bind_eq_ok.mp h
  split_ifs at h with hbad
  · exact nomatch h
  · cases hst : k.fstat with
    | error e => simp [hst, throw, throwThe, MonadExceptOf.throw] at h
    | ok st =>
      obtain ⟨regular, stSize⟩ := st
      simp only [hst] at h
      split_ifs at h with hbad'
      · exact nomatch h
      · exact h

/-- Two scans that say the same are the same. -/
theorem Scanned.unique {segs : List SegmentMapping} (h : Scanned out bound) (h' : Scanned segs bound)
    (heq : ∀ x, owner out x = owner segs x) : out = segs := by
  have hmap := h.packed.unique h'.packed heq
  -- a run is its bounds and its kind
  have hrun : ∀ {l : List SegmentMapping}, Scanned l bound →
      (l.map fun s => (lo s, hi s, s.zeroed)).map
        (fun r => (⟨r.1, r.2.1 - r.1, if r.2.2 then 0 else r.1, r.2.2, 0⟩ : SegmentMapping)) = l := by
    intro l hl
    rw [List.map_map]
    refine (List.map_congr_left fun s hs => ?_).trans (List.map_id l)
    obtain ⟨hm, ht⟩ := hl.exact s hs
    obtain ⟨offset, length, moffset, zeroed, tag⟩ := s
    simp_all
  rw [← hrun h, hmap, hrun h']

/-- A byte's owner in a file of disjoint extents. -/
theorem extentOwner_eq_some_iff {file : List Extent} (hfile : Ordered file) {b : ℕ} {u : Bool} :
    extentOwner file b = some u ↔ ∃ e ∈ file, Covers e b ∧ e.unwritten = u := by
  constructor
  · exact exists_of_lookup_some
  · rintro ⟨e, he, hc, rfl⟩
    exact hfile.lookup_of_mem he hc

/-- A scan that returns. -/
theorem scan_spec {file : List Extent} {k : Backing} {segs : List SegmentMapping} (hk : Describes file k size)
    (h : scanSparseExtents k size = .ok segs) :
    Scanned segs (size / kSector) ∧ ∀ b, b < size → owner segs (b / kSector) = extentOwner file b := by
  have hfrom := scanSparseExtents_eq_ok h
  exact scanFrom_spec hk ⟨scanned_nil, fun _ => rfl⟩ (fun b hb => absurd hb (Nat.not_lt_zero b)) hfrom

/-- **The scan of a file**: it throws, or its runs are sorted, disjoint, of 1 to 16383 sectors inside the file; every byte
lies in a sector that is DATA at its own place exactly if a written extent covers the byte, ZERO exactly if an unwritten one
does, and unmapped exactly if none does; and there is only one such list, however the kernel cuts its replies. -/
theorem scan_owns {file : List Extent} (hfile : Ordered file) {k : Backing} (hk : Describes file k size) :
    (∃ t, scanSparseExtents k size = .error t) ∨
      ∃ segs, scanSparseExtents k size = .ok segs ∧ Ordered segs ∧
        (∀ s ∈ segs, 1 ≤ s.length ∧ s.length ≤ 16383 ∧ s.stop * kSector ≤ size) ∧
        (∀ b, b < size →
          (resolve segs (b / kSector) = some (.data (b / kSector)) ↔ ∃ e ∈ file, Covers e b ∧ e.unwritten = false) ∧
          (resolve segs (b / kSector) = some .zero ↔ ∃ e ∈ file, Covers e b ∧ e.unwritten = true) ∧
          (resolve segs (b / kSector) = none ↔ ∀ e ∈ file, ¬ Covers e b)) ∧
        ∀ k', Describes file k' size → ∀ segs', scanSparseExtents k' size = .ok segs' → segs' = segs := by
  cases hscan : scanSparseExtents k size with
  | error t => exact .inl ⟨t, rfl⟩
  | ok segs =>
    obtain ⟨hsc, hown⟩ := scan_spec hk hscan
    refine .inr ⟨segs, rfl, hsc.packed.ordered, fun s hmem => ⟨?_, ?_, ?_⟩, fun b hb => ?_, fun k' hk' segs' hscan' => ?_⟩
    · exact length_pos_of_proper hsc.packed.proper hmem
    · have := hsc.packed.short s hmem
      simp only [lo_eq, hi_eq] at this
      exact Nat.le_of_add_le_add_left this
    · have hle := hsc.below s hmem
      calc s.stop * kSector ≤ size / kSector * kSector := Nat.mul_le_mul_right _ hle
        _ ≤ size := Nat.div_mul_le_self _ _
    · rw [hsc.resolve_eq, hown b hb]
      refine ⟨?_, ?_, ?_⟩
      · rw [← extentOwner_eq_some_iff hfile]
        rcases extentOwner file b with _ | _ | _ <;> simp
      · rw [← extentOwner_eq_some_iff hfile]
        rcases extentOwner file b with _ | _ | _ <;> simp
      · rw [Option.map_eq_none_iff]
        exact lookup_none_iff
    · obtain ⟨hsc', hown'⟩ := scan_spec hk' hscan'
      refine hsc'.unique hsc fun x => ?_
      by_cases hx : x < size / kSector
      · have hx : x < size / 512 := hx
        have hbyte : x * 512 < size := by omega
        have hdiv : x * 512 / 512 = x := by omega
        have h1 : owner segs (x * 512 / 512) = _ := hown _ hbyte
        have h2 : owner segs' (x * 512 / 512) = _ := hown' _ hbyte
        rw [hdiv] at h1 h2
        rw [h1, h2]
      · rw [hsc.owner_none (Nat.not_lt.mp hx), hsc'.owner_none (Nat.not_lt.mp hx)]

/-! ### Scans that return -/

/-- A reply none of the loop's checks refuses. -/
structure Clean (start : ℕ) (es : List Extent) : Prop where
  few : es.length ≤ kBatch
  ordered : Ordered es
  ahead : ∀ e ∈ es, start < e.stop
  sound : ∀ e ∈ es, 0 < e.length ∧ e.stop < 2 ^ 64 ∧ ¬ (e.unwritten = true ∧ e.delalloc = true)
  aligned : ∀ e ∈ es, e.logical % kSector = 0 ∧ e.stop % kSector = 0

theorem exists_scanExtent (hs : size % kSector = 0) (hat : At size cursor out) (hlt : cursor < e.stop)
    (hfirst : first = false → cursor ≤ e.logical)
    (hsound : 0 < e.length ∧ e.stop < 2 ^ 64 ∧ ¬ (e.unwritten = true ∧ e.delalloc = true))
    (hal : e.logical % kSector = 0 ∧ e.stop % kSector = 0) : ∃ out', scanExtent size first e cursor out = .ok out' := by
  have hstop : e.stop = e.logical + e.length := rfl
  unfold scanExtent
  rw [if_neg (by omega), if_neg (by rintro (h | ⟨hf, h⟩)
                                    · omega
                                    · exact absurd (hfirst hf) (by omega))]
  split_ifs with h1 h2
  · exact absurd h2 hsound.2.2
  · refine ⟨_, if_neg ?_⟩
    have hlo : max cursor e.logical % kSector = 0 := by
      rcases max_choice cursor e.logical with h | h
      · rw [h]
        exact hat.aligned (by omega)
      · rw [h]
        exact hal.1
    have hhi : min size e.stop % kSector = 0 := by
      rcases min_choice size e.stop with h | h
      · rwa [h]
      · rw [h]
        exact hal.2
    rintro (h | h | h)
    · exact h hlo
    · exact h hhi
    · omega
  · exact ⟨_, rfl⟩

theorem exists_scanBatch (first last : Bool) (hs : size % kSector = 0) (hat : At size cursor out)
    (hahead : ∀ e ∈ es, cursor < e.stop) (hfirst : first = false → ∀ e ∈ es, cursor ≤ e.logical) (hord : Ordered es)
    (hsound : ∀ e ∈ es, 0 < e.length ∧ e.stop < 2 ^ 64 ∧ ¬ (e.unwritten = true ∧ e.delalloc = true))
    (hal : ∀ e ∈ es, e.logical % kSector = 0 ∧ e.stop % kSector = 0) :
    ∃ c o l, scanBatch size first es cursor out last = .ok (c, o, l) := by
  induction es generalizing first cursor out last with
  | nil => exact ⟨_, _, _, rfl⟩
  | cons e es ih =>
    obtain ⟨out', hout⟩ := exists_scanExtent hs hat (hahead e (by simp)) (fun hf => hfirst hf e (by simp))
      (hsound e (by simp)) (hal e (by simp))
    have hbehind : ∀ r ∈ es, e.stop ≤ r.logical := fun r hr => hord.head_le hr
    obtain ⟨c, o, l, hrest⟩ := ih false e.last (scanExtent_spec hat hout).1
      (fun r hr => (hbehind r hr).trans_lt (Nat.lt_add_of_pos_right (hsound r (by simp [hr])).1)) (fun _ => hbehind) hord.tail
      (fun r hr => hsound r (by simp [hr])) fun r hr => hal r (by simp [hr])
    exact ⟨c, o, l, bind_eq_ok.mpr ⟨out', hout, hrest⟩⟩

/-- Clean replies are scanned to the end. -/
theorem exists_scanFrom {k : Backing} {round : ℕ} (hs : size % kSector = 0)
    (hk : ∀ round start sync, start < size → ∃ es, k.fiemap round start (size - start) sync = .ok es ∧ Clean start es)
    (hat : At size cursor out) : ∃ segs, scanFrom k size round cursor out = .ok segs := by
  fun_induction scanFrom k size round cursor out with
  | case1 round cursor out hlt e herr =>
    obtain ⟨es, hreply, -⟩ := hk round cursor (decide (cursor = 0)) hlt
    exact nomatch herr.symm.trans hreply
  | case2 round cursor out hlt es hreply hmany =>
    obtain ⟨es', hreply', hclean⟩ := hk round cursor (decide (cursor = 0)) hlt
    obtain rfl := Except.ok.inj (hreply.symm.trans hreply')
    exact absurd hclean.few (Nat.not_le.mpr hmany)
  | case3 => exact ⟨_, rfl⟩
  | case4 round cursor out hlt e es t hbatch hreply _ =>
    obtain ⟨es', hreply', hclean⟩ := hk round cursor (decide (cursor = 0)) hlt
    obtain rfl := Except.ok.inj (hreply.symm.trans hreply')
    obtain ⟨c, o, l, hok⟩ := exists_scanBatch true false hs hat hclean.ahead nofun hclean.ordered
      hclean.sound hclean.aligned
    exact nomatch hbatch.symm.trans hok
  | case5 => exact ⟨_, rfl⟩
  | case6 round cursor out hlt e es c o last hbatch _ hreply _ ih => exact ih (scanBatch_spec hat hbatch).1
  | case7 => exact ⟨_, rfl⟩

/-! ### Kernels that cut a list of extents into replies -/

/-- A kernel on a file of the given size: the call number `round` gets at most `sizes round + 1` of the extents ahead. -/
def batched (file : List Extent) (size : ℕ) (sizes : ℕ → ℕ) : Backing where
  statfs := .ok 4096
  pageSize := 4096
  xattr := .error enotty
  fstat := .ok (true, size)
  fiemap round start len _ :=
    .ok ((file.filter fun e => decide (start < e.stop ∧ e.logical < start + len)).take (min (sizes round + 1) kBatch))

/-- **Such a kernel is faithful**, whatever the sizes are. -/
theorem describes_batched {file : List Extent} (hfile : Ordered file) (sizes : ℕ → ℕ)
    (hlast : ∀ e ∈ file, e.last = true → ∀ r ∈ file, r.stop ≤ e.stop) : Describes file (batched file size sizes) size := by
  intro round start sync es hstart hreply
  obtain rfl := Except.ok.inj hreply
  set len := size - start
  set ahead := file.filter fun e => decide (start < e.stop ∧ e.logical < start + len) with hahead
  have hpos : 0 < min (sizes round + 1) kBatch := by simp [kBatch]
  generalize min (sizes round + 1) kBatch = n at hpos
  -- an extent with a byte in the range is among those ahead
  have hmem : ∀ {r : Extent} {b : ℕ}, r ∈ file → Covers r b → start ≤ b → b < start + len → r ∈ ahead := by
    intro r b hr hc hb hbe
    refine List.mem_filter.mpr ⟨hr, decide_eq_true ⟨?_, ?_⟩⟩
    · exact hb.trans_lt hc.2
    · exact hc.1.trans_lt hbe
  have hord : Ordered ahead := hfile.sublist List.filter_sublist
  refine ⟨fun hnil b hb hbe => ?_, fun e he b hb hbe hbs => ?_, fun e he hl b hb _ => ?_⟩
  · refine lookup_none_iff.mpr fun r hr hc => ?_
    have hr' := hmem hr hc hb hbe
    rcases List.take_eq_nil_iff.mp hnil with h | h
    · omega
    · rw [h] at hr'
      exact absurd hr' List.not_mem_nil
  · cases hfb : extentOwner file b with
    | none =>
      refine lookup_none_iff.mpr fun r hr => lookup_none_iff.mp hfb r ?_
      exact List.mem_of_mem_filter (List.mem_of_mem_take hr)
    | some u =>
      obtain ⟨r, hr, hc, rfl⟩ := exists_of_lookup_some hfb
      have hr' := hmem hr hc hb hbe
      rw [← List.take_append_drop n ahead] at hr' hord
      rcases List.mem_append.mp hr' with hin | hout
      · exact (hord.sublist (List.sublist_append_left _ _)).lookup_of_mem hin hc
      · -- an extent behind the reply begins behind its last extent
        have := (ordered_append.mp hord).2.2 e (List.mem_of_getLast? he) r hout
        exact absurd hbs (Nat.not_lt.mpr (this.trans hc.1))
  · have hein := List.mem_of_mem_filter (List.mem_of_mem_take (List.mem_of_getLast? he))
    exact lookup_none_of_ge (hlast e hein hl) hb

/-- A file of aligned extents is scanned, whatever the sizes are. -/
theorem exists_scan_batched {file : List Extent} (hfile : Ordered file) (sizes : ℕ → ℕ) (h0 : size ≠ 0)
    (hs : size % 4096 = 0) (hmax : size / kSector < kInvalidOffset)
    (hsound : ∀ e ∈ file, 0 < e.length ∧ e.stop < 2 ^ 64 ∧ ¬ (e.unwritten = true ∧ e.delalloc = true))
    (hal : ∀ e ∈ file, e.logical % kSector = 0 ∧ e.stop % kSector = 0) :
    ∃ segs, scanSparseExtents (batched file size sizes) size = .ok segs := by
  have hs' : size % 512 = 0 := by omega
  have hmax' : size / 512 < 2 ^ 50 - 1 := hmax
  obtain ⟨segs, hscan⟩ : ∃ segs, scanFrom (batched file size sizes) size 0 0 [] = .ok segs := by
    refine exists_scanFrom hs' (fun round start sync _ => ⟨_, rfl, ?_, ?_, ?_, ?_, ?_⟩) ⟨scanned_nil, fun _ => rfl⟩
    · exact (List.length_take_le _ _).trans (Nat.min_le_right _ _)
    · exact hfile.sublist ((List.take_sublist _ _).trans List.filter_sublist)
    · intro e he
      exact (of_decide_eq_true (List.mem_filter.mp (List.mem_of_mem_take he)).2).1
    · exact fun e he => hsound e (List.mem_of_mem_filter (List.mem_of_mem_take he))
    · exact fun e he => hal e (List.mem_of_mem_filter (List.mem_of_mem_take he))
  refine ⟨segs, ?_⟩
  have hsize : ¬ (size = 0 ∨ size % 4096 ≠ 0 ∨ kInvalidOffset ≤ size / kSector ∨ 2 ^ 63 - 1 < size) :=
    show ¬ (size = 0 ∨ size % 4096 ≠ 0 ∨ 2 ^ 50 - 1 ≤ size / 512 ∨ 2 ^ 63 - 1 < size) by omega
  have hstat : ¬ (true = false ∨ (size : ℤ) < 0 ∨ (size : ℤ) ≠ size) := by simp
  unfold scanSparseExtents
  refine bind_eq_ok.mpr ⟨(), rfl, ?_⟩
  dsimp only
  rw [if_neg hsize]
  show (if true = false ∨ (size : ℤ) < 0 ∨ (size : ℤ) ≠ size then _ else _) = _
  rw [if_neg hstat]
  exact hscan

/-- A written and an unwritten block, one extent in a reply. -/
theorem scan_owns_blocks :
    let file : List Extent := [⟨0, 4096, false, false, false⟩, ⟨4096, 4096, true, false, true⟩]
    ∃ segs, scanSparseExtents (batched file 8192 fun _ => 0) 8192 = .ok segs ∧ resolve segs 0 = some (.data 0) ∧
      resolve segs 8 = some .zero := by
  intro file
  have hfile : Ordered file := by
    simp [file, ordered_cons, ordered_nil, lo, hi, Extent.stop]
  have hdesc : Describes file (batched file 8192 fun _ => 0) 8192 :=
    describes_batched hfile _ (by simp [file, Extent.stop])
  obtain ⟨segs, hscan⟩ : ∃ segs, scanSparseExtents (batched file 8192 fun _ => 0) 8192 = .ok segs :=
    exists_scan_batched hfile _ (by decide) (by decide) (by decide) (by simp [file, Extent.stop])
      (by simp [file, Extent.stop, kSector])
  rcases scan_owns hfile hdesc with ⟨t, ht⟩ | ⟨segs', hscan', -, -, hown, -⟩
  · exact nomatch hscan.symm.trans ht
  · obtain rfl := Except.ok.inj (hscan.symm.trans hscan')
    refine ⟨segs, hscan, (hown 0 (by decide)).1.mpr ?_, (hown 4096 (by decide)).2.1.mpr ?_⟩
    · exact ⟨_, List.mem_cons_self, ⟨by decide, by decide⟩, rfl⟩
    · exact ⟨_, List.mem_cons_of_mem _ List.mem_cons_self, ⟨by decide, by decide⟩, rfl⟩

end OverlayBD
