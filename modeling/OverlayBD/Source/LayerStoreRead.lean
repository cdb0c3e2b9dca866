import OverlayBD.Lib.Bytes

/-!
# Reading through the layer store (`LayerStore::pread`)

A `LayerStore` serves a remote blob through a sparse local copy, one extent at a time.  Each extent of a
request is answered from the cache of verified extents, from the staging file if its record says present
and the CRC agrees, or by fetching it; a corrupt local extent is demoted and fetched.  Once the layer is
complete the whole request is one read of the committed file.

## The model

* `Store` — the sizes; `Request` — a request already clamped to the blob.
* `Transfer`, `readFdLoop` — one `pread_exactly` on a local file and what the store makes of it.
* `ExtentView` — everything the environment decides about one extent while a request passes it: the state
  sampled, the record, the cache, the local read, the fetch.  Views are arbitrary, so presence patterns,
  local failures, CRC mismatches and remote failures are all covered, as is any concurrent change between
  two extents.
* `serveExtent`, `extentLoop`, `pread` — the source's loop.

## What is proved

* `extentLoop_spec` — the loop delivers everything if no extent fails; a failure at the first extent is
  reported; a failure at a later one ends in a short count.
* `pread_honoursContract_iff` — the returned value honours the blob contract exactly when the failure, if any, comes
  before anything was delivered.
* `pread_delivers_blob` — a corrupt local copy never reaches the reader.
-/

namespace OverlayBD.LayerStore

open Bytes

/-- A positive error number. -/
abbrev ErrorCode := { e : ℤ // 0 < e }

/-- The fixed parameters of a store. -/
structure Store where
  /-- `size_`, the blob's size. -/
  size : ℕ
  /-- `cfg_.extent_size`, refused by `open` when zero. -/
  extentSize : ℕ
  extentSize_pos : 0 < extentSize
  /-- `crc32_of`. -/
  crc32Of : List UInt8 → UInt32

/-- `kVerifiedCacheBytes`. -/
def kVerifiedCacheBytes : ℕ := 256 * 1024

/-- `State`. -/
inductive State where
  | filling
  | complete
  | bypass
deriving DecidableEq, Repr

/-- The outcome of one `pread_exactly` for `count` bytes. -/
structure Transfer (count : ℕ) where
  error : Option ErrorCode
  transferred : ℕ
  bytes : Buf
  le : transferred ≤ count

/-- `read_fd_loop`: an error counts only if nothing came before it. -/
def readFdLoop {count : ℕ} (t : Transfer count) : ℤ :=
  match t.error with
  | some e => if t.transferred = 0 then -e else t.transferred
  | none => t.transferred

/-- What the environment shows a request about one extent of `elen` bytes. -/
structure ExtentView (elen : ℕ) where
  /-- `state()` when the extent is reached. -/
  state : State
  /-- The extent's record: its CRC if the present flag is set. -/
  record : Option UInt32
  /-- What `find_verified` returns. -/
  cached : Option Buf
  /-- The read of the staging file. -/
  staging : Transfer elen
  /-- The result of `join_or_fetch` for the `OnDemand` class. -/
  fetch : Except ErrorCode Buf

/-- Length of extent `eid`. -/
def Store.extentLen (st : Store) (eid : ℕ) : ℕ :=
  min (eid * st.extentSize + st.extentSize) st.size - eid * st.extentSize

/-- The environment of a request: a view of every extent. -/
structure Env (st : Store) where
  extent : (eid : ℕ) → ExtentView (st.extentLen eid)

/-- A request inside the blob. -/
structure Request (st : Store) where
  offset : ℕ
  count : ℕ
  le : offset + count ≤ st.size

variable {st : Store}

/-- Serve the part of extent `eid` from `within` on, `need` bytes of it: the bytes, or the negative
result to report. -/
def serveExtent {eid : ℕ} (view : ExtentView (st.extentLen eid)) (within need : ℕ) : Except ℤ Buf :=
  let elen := st.extentLen eid
  let remote : Except ℤ Buf :=
    match view.fetch with
    | .error e => .error (-e)
    | .ok data => .ok fun i => data (within + i)
  match view.state, view.record with
  | .filling, some expected =>
    match (if (within ≠ 0 ∨ need ≠ elen) ∧ elen ≤ kVerifiedCacheBytes then view.cached else none) with
    | some data => .ok fun i => data (within + i)
    | none =>
      let r := readFdLoop view.staging
      if r < 0 then .error r
      else if r = elen ∧ st.crc32Of (view.staging.bytes.slice 0 elen) = expected then
        .ok fun i => view.staging.bytes (within + i)
      else remote  -- corrupt or torn: demoted to a hole and fetched
  | _, _ => remote

/-- The extent loop, `done` bytes delivered so far. -/
def extentLoop (env : Env st) (req : Request st) (out : Buf) (done : ℕ) : ℤ × Buf :=
  if _h : done < req.count then
    let pos := req.offset + done
    let eid := pos / st.extentSize
    let ebase := eid * st.extentSize
    let eend := min (ebase + st.extentSize) st.size
    let within := pos - ebase
    let need := min eend (req.offset + req.count) - pos
    match serveExtent (env.extent eid) within need with
    | .error r => (if 0 < done then done else r, out)
    | .ok bytes => extentLoop env req (out.put done need bytes) (done + need)
  else (done, out)
termination_by req.count - done
decreasing_by
  have h1 := Nat.lt_div_mul_add st.extentSize_pos (a := req.offset + done)
  have h2 := req.le
  omega

/-- The part of a request that lies inside the blob. -/
def clamp (st : Store) (count offset : ℕ) (h : offset < st.size) : Request st :=
  ⟨offset, min count (st.size - offset), by omega⟩

/-- `LayerStore::pread`: `state` is the state sampled on entry and `commit` the read of the committed
file, used only when that state is `Complete`. -/
def pread (st : Store) (state : State) (env : Env st) (commit : (count : ℕ) → Transfer count) (out : Buf)
    (count offset : ℕ) : ℤ × Buf :=
  if h : offset < st.size then
    let req := clamp st count offset h
    if req.count = 0 then (0, out)
    else if state = .complete then
      let t := commit req.count
      (readFdLoop t, out.put 0 t.transferred t.bytes)
    else extentLoop env req out 0
  else (0, out)

/-! ### When an extent fails -/

section Fails

variable {eid : ℕ} (view : ExtentView (st.extentLen eid)) (within need : ℕ)

/-- The staging file is consulted: filling, and the record says present. -/
def ExtentView.Local : Prop := view.state = .filling ∧ view.record ≠ none

/-- A partial read of the extent finds its verified bytes in memory. -/
def ExtentView.Cached : Prop :=
  (within ≠ 0 ∨ need ≠ st.extentLen eid) ∧ st.extentLen eid ≤ kVerifiedCacheBytes ∧ view.cached ≠ none

/-- The local copy reads back whole and with the recorded CRC. -/
def ExtentView.Intact : Prop :=
  readFdLoop view.staging = st.extentLen eid ∧
    view.record = some (st.crc32Of (view.staging.bytes.slice 0 (st.extentLen eid)))

/-- The extent makes the request fail: its local copy cannot be read at all, or there is no usable local
copy and the fetch fails. -/
def ExtentView.Fails : Prop :=
  (view.Local ∧ ¬ view.Cached within need ∧ readFdLoop view.staging < 0) ∨
    (¬ (view.Local ∧ (view.Cached within need ∨ readFdLoop view.staging < 0 ∨ view.Intact)) ∧
      ∃ e, view.fetch = .error e)

variable {view within need}

/-- `serveExtent` reports an error exactly on a failing extent, and then a negative one. -/
theorem serveExtent_spec :
    (view.Fails within need → ∃ r < 0, serveExtent view within need = .error r) ∧
      (¬ view.Fails within need → ∃ bytes, serveExtent view within need = .ok bytes) := by
  have hremote : (∃ e, view.fetch = .error e) ∨ ∃ data, view.fetch = .ok data := by
    cases view.fetch with
    | error e => exact Or.inl ⟨e, rfl⟩
    | ok data => exact Or.inr ⟨data, rfl⟩
  unfold serveExtent
  by_cases hl : view.Local
  · obtain ⟨expected, hrec⟩ := Option.ne_none_iff_exists'.mp hl.2
    simp only [hl.1, hrec]
    by_cases hc : view.Cached within need
    · -- the cache answers
      obtain ⟨data, hd⟩ := Option.ne_none_iff_exists'.mp hc.2.2
      have hif : (if (within ≠ 0 ∨ need ≠ st.extentLen eid) ∧ st.extentLen eid ≤ kVerifiedCacheBytes then
          view.cached else none) = some data := by rw [if_pos ⟨hc.1, hc.2.1⟩, hd]
      have hok : ¬ view.Fails within need := by
        rintro (⟨-, hn, -⟩ | ⟨hn, -⟩)
        · exact hn hc
        · exact hn ⟨hl, Or.inl hc⟩
      simp only [hif]
      exact ⟨fun h => absurd h hok, fun _ => ⟨_, rfl⟩⟩
    · have hif : (if (within ≠ 0 ∨ need ≠ st.extentLen eid) ∧ st.extentLen eid ≤ kVerifiedCacheBytes then
          view.cached else none) = none := by
        by_cases hp : (within ≠ 0 ∨ need ≠ st.extentLen eid) ∧ st.extentLen eid ≤ kVerifiedCacheBytes
        · rw [if_pos hp]
          by_contra hne
          exact hc ⟨hp.1, hp.2, hne⟩
        · rw [if_neg hp]
      simp only [hif]
      by_cases hneg : readFdLoop view.staging < 0
      · rw [if_pos hneg]
        exact ⟨fun _ => ⟨_, hneg, rfl⟩, fun h => absurd (Or.inl ⟨hl, hc, hneg⟩) h⟩
      · rw [if_neg hneg]
        by_cases hi : view.Intact
        · have hok : ¬ view.Fails within need := by
            rintro (⟨-, -, h⟩ | ⟨hn, -⟩)
            · exact hneg h
            · exact hn ⟨hl, Or.inr (Or.inr hi)⟩
          have hcrc : st.crc32Of (view.staging.bytes.slice 0 (st.extentLen eid)) = expected := by
            have := hi.2
            rw [hrec] at this
            exact (Option.some.inj this).symm
          rw [if_pos ⟨hi.1, hcrc⟩]
          exact ⟨fun h => absurd h hok, fun _ => ⟨_, rfl⟩⟩
        · have hif' : ¬ (readFdLoop view.staging = st.extentLen eid ∧
              st.crc32Of (view.staging.bytes.slice 0 (st.extentLen eid)) = expected) := by
            rintro ⟨h1, h2⟩
            exact hi ⟨h1, by rw [hrec, h2]⟩
          have hnl : ¬ (view.Local ∧ (view.Cached within need ∨ readFdLoop view.staging < 0 ∨ view.Intact)) := by
            rintro ⟨-, h | h | h⟩
            · exact hc h
            · exact hneg h
            · exact hi h
          rw [if_neg hif']
          rcases hremote with ⟨e, he⟩ | ⟨data, hd⟩
          · rw [he]
            exact ⟨fun _ => ⟨_, by have := e.2; omega, rfl⟩, fun h => absurd (Or.inr ⟨hnl, e, he⟩) h⟩
          · have hok : ¬ view.Fails within need := by
              rintro (⟨-, -, h⟩ | ⟨-, e, he⟩)
              · exact hneg h
              · rw [hd] at he
                cases he
            rw [hd]
            exact ⟨fun h => absurd h hok, fun _ => ⟨_, rfl⟩⟩
  · have hnl : ¬ (view.Local ∧ (view.Cached within need ∨ readFdLoop view.staging < 0 ∨ view.Intact)) :=
      fun h => hl h.1
    have hmatch : ∀ (f : UInt32 → Except ℤ Buf) (remote : Except ℤ Buf),
        (match view.state, view.record with
          | .filling, some expected => f expected
          | _, _ => remote) = remote := by
      intro f remote
      cases hs : view.state <;> cases hr : view.record <;> simp_all [ExtentView.Local]
    rw [hmatch]
    rcases hremote with ⟨e, he⟩ | ⟨data, hd⟩
    · rw [he]
      exact ⟨fun _ => ⟨_, by have := e.2; omega, rfl⟩, fun h => absurd (Or.inr ⟨hnl, e, he⟩) h⟩
    · have hok : ¬ view.Fails within need := by
        rintro (⟨h, -⟩ | ⟨-, e, he⟩)
        · exact hl h
        · rw [hd] at he
          cases he
      rw [hd]
      exact ⟨fun h => absurd h hok, fun _ => ⟨_, rfl⟩⟩

end Fails

/-! ### The loop -/

/-- The first byte of the request that lies in extent `eid`. -/
def Request.pos (req : Request st) (eid : ℕ) : ℕ := max req.offset (eid * st.extentSize)

/-- Extent `eid`, as the request meets it, fails. -/
def FailsAt (env : Env st) (req : Request st) (eid : ℕ) : Prop :=
  (env.extent eid).Fails (req.pos eid - eid * st.extentSize)
    (min (min (eid * st.extentSize + st.extentSize) st.size) (req.offset + req.count) - req.pos eid)

/-- Extent `eid` holds a byte of the request at or after position `req.offset + done`. -/
def Ahead (req : Request st) (done eid : ℕ) : Prop :=
  (req.offset + done) / st.extentSize ≤ eid ∧ eid * st.extentSize < req.offset + req.count

/-- The loop stands at the start of what the request wants of the extent it is in. -/
def Aligned (req : Request st) (done : ℕ) : Prop :=
  req.pos ((req.offset + done) / st.extentSize) = req.offset + done

section Loop

variable {env : Env st} {req : Request st} {done : ℕ}

theorem ahead_self (h : done < req.count) : Ahead req done ((req.offset + done) / st.extentSize) := by
  refine ⟨le_rfl, ?_⟩
  have := Nat.div_mul_le_self (req.offset + done) st.extentSize
  omega

/-- One failing iteration ends the loop with what was delivered, or the error if nothing was. -/
theorem extentLoop_of_fails (out : Buf) (h : done < req.count) (ha : Aligned req done)
    (hf : FailsAt env req ((req.offset + done) / st.extentSize)) :
    ∃ r < 0, (extentLoop env req out done).1 = if 0 < done then (done : ℤ) else r := by
  unfold FailsAt at hf
  rw [ha] at hf
  obtain ⟨r, hr, heq⟩ := serveExtent_spec.1 hf
  refine ⟨r, hr, ?_⟩
  rw [extentLoop, dif_pos h]
  simp only [heq]

/-- An iteration that does not fail moves on, to the next extent or to the end of the request. -/
theorem extentLoop_of_ok (out : Buf) (h : done < req.count) (ha : Aligned req done)
    (hf : ¬ FailsAt env req ((req.offset + done) / st.extentSize)) :
    ∃ out' done', extentLoop env req out done = extentLoop env req out' done' ∧ done < done' ∧
      done' ≤ req.count ∧
      (∀ eid, (req.offset + done) / st.extentSize < eid → eid * st.extentSize < req.offset + req.count →
        done' < req.count) ∧
      (done' < req.count → Aligned req done' ∧
        (req.offset + done') / st.extentSize = (req.offset + done) / st.extentSize + 1) := by
  unfold FailsAt at hf
  rw [ha] at hf
  obtain ⟨bytes, heq⟩ := serveExtent_spec.2 hf
  have hstep : ∃ out', extentLoop env req out done = extentLoop env req out' (done +
      (min (min ((req.offset + done) / st.extentSize * st.extentSize + st.extentSize) st.size)
        (req.offset + req.count) - (req.offset + done))) := by
    rw [extentLoop, dif_pos h]
    simp only [heq]
    exact ⟨_, rfl⟩
  obtain ⟨out', hstep⟩ := hstep
  have h1 : (req.offset + done) / st.extentSize * st.extentSize ≤ req.offset + done :=
    Nat.div_mul_le_self _ _
  have h2 : req.offset + done < (req.offset + done) / st.extentSize * st.extentSize + st.extentSize :=
    Nat.lt_div_mul_add st.extentSize_pos
  have h3 := req.le
  clear hf heq
  generalize (req.offset + done) / st.extentSize = eid at *
  refine ⟨out', _, hstep, by omega, by omega, fun later hl hin => ?_, fun hlt => ?_⟩
  · have : (eid + 1) * st.extentSize ≤ later * st.extentSize := Nat.mul_le_mul_right _ hl
    rw [Nat.add_mul, Nat.one_mul] at this
    omega
  · -- short of the end of the request, the extent was used to its end
    have hend : req.offset + (done + (min (min (eid * st.extentSize + st.extentSize) st.size)
        (req.offset + req.count) - (req.offset + done))) = (eid + 1) * st.extentSize := by
      rw [Nat.add_mul, Nat.one_mul]
      omega
    rw [Aligned, Request.pos, hend, Nat.mul_div_cancel _ st.extentSize_pos]
    exact ⟨by omega, rfl⟩

/-- **If nothing ahead fails, the loop delivers the whole request.** -/
theorem extentLoop_of_clean (env : Env st) (n : ℕ) : ∀ (done : ℕ) (out : Buf), req.count - done ≤ n → done ≤ req.count →
    (done < req.count → Aligned req done) → (∀ eid, Ahead req done eid → ¬ FailsAt env req eid) →
    (extentLoop env req out done).1 = req.count := by
  induction n with
  | zero =>
    intro done out hn hle _ _
    obtain rfl : done = req.count := by omega
    rw [extentLoop, dif_neg (lt_irrefl _)]
  | succ n ih =>
    intro done out hn hle ha hclean
    rcases Nat.lt_or_ge done req.count with h | h
    · obtain ⟨out', done', heq, hlt, hle', -, hnext⟩ :=
        extentLoop_of_ok out h (ha h) (hclean _ (ahead_self h))
      rw [heq]
      refine ih done' out' (by omega) hle' (fun h' => (hnext h').1) fun eid hahead => hclean eid ?_
      refine ⟨?_, hahead.2⟩
      exact (Nat.div_le_div_right (by omega)).trans hahead.1
    · obtain rfl : done = req.count := by omega
      rw [extentLoop, dif_neg (lt_irrefl _)]

/-- **If something was delivered and something ahead fails, the loop ends short.** -/
theorem extentLoop_of_late_failure (env : Env st) (n : ℕ) : ∀ (done : ℕ) (out : Buf), req.count - done ≤ n →
    done < req.count → 0 < done → Aligned req done → (∃ eid, Ahead req done eid ∧ FailsAt env req eid) →
    0 < (extentLoop env req out done).1 ∧ (extentLoop env req out done).1 < req.count := by
  induction n with
  | zero =>
    intro done out hn hlt
    omega
  | succ n ih =>
    intro done out hn hlt hpos ha hfail
    by_cases hf : FailsAt env req ((req.offset + done) / st.extentSize)
    · obtain ⟨r, -, heq⟩ := extentLoop_of_fails out hlt ha hf
      rw [heq, if_pos hpos]
      omega
    · obtain ⟨eid, hahead, hfe⟩ := hfail
      obtain ⟨out', done', heq, hgt, -, hreach, hnext⟩ := extentLoop_of_ok out hlt ha hf
      -- the failing extent is not this one, so the request reaches past it
      have hne : (req.offset + done) / st.extentSize + 1 ≤ eid := by
        rcases Nat.lt_or_ge ((req.offset + done) / st.extentSize) eid with h | h
        · exact h
        · have : eid = (req.offset + done) / st.extentSize := le_antisymm h hahead.1
          exact absurd (this ▸ hfe) hf
      have hmore : done' < req.count := hreach eid hne hahead.2
      rw [heq]
      obtain ⟨ha', hdiv⟩ := hnext hmore
      exact ih done' out' (by omega) hmore (by omega) ha' ⟨eid, ⟨by rw [hdiv]; exact hne, hahead.2⟩, hfe⟩

/-- The whole loop: exactly the request, a short count, or an error, according to where the first failing
extent lies. -/
theorem extentLoop_spec (env : Env st) (req : Request st) (out : Buf) (hpos : 0 < req.count) :
    ((extentLoop env req out 0).1 < 0 ∨ (extentLoop env req out 0).1 = req.count) ↔
      (∀ eid, Ahead req 0 eid → ¬ FailsAt env req eid) ∨ FailsAt env req (req.offset / st.extentSize) := by
  have ha : Aligned req 0 := by
    have := Nat.div_mul_le_self req.offset st.extentSize
    simp only [Aligned, Request.pos, Nat.add_zero]
    omega
  by_cases hf : FailsAt env req (req.offset / st.extentSize)
  · obtain ⟨r, hr, heq⟩ := extentLoop_of_fails out hpos ha hf
    rw [heq, if_neg (lt_irrefl 0)]
    exact iff_of_true (Or.inl hr) (Or.inr hf)
  · by_cases hclean : ∀ eid, Ahead req 0 eid → ¬ FailsAt env req eid
    · have heq := extentLoop_of_clean env req.count 0 out (by omega) (by omega) (fun _ => ha) hclean
      exact iff_of_true (Or.inr heq) (Or.inl hclean)
    · obtain ⟨eid, hfail⟩ := not_forall.mp hclean
      obtain ⟨hahead, hfe⟩ := Classical.not_imp.mp hfail
      rw [not_not] at hfe
      obtain ⟨out', done', heq, hgt, -, hreach, hnext⟩ := extentLoop_of_ok out hpos ha hf
      have hne : req.offset / st.extentSize < eid := by
        refine lt_of_le_of_ne hahead.1 fun h => hf ?_
        rw [h]
        exact hfe
      have hmore := hreach eid hne hahead.2
      obtain ⟨ha', hdiv⟩ := hnext hmore
      have hshort := extentLoop_of_late_failure env req.count done' out' (by omega) hmore (by omega) ha'
        ⟨eid, ⟨by rw [hdiv]; exact hne, hahead.2⟩, hfe⟩
      rw [heq]
      refine iff_of_false ?_ ?_
      · rintro (h | h) <;> omega
      · rintro (h | h)
        · exact h eid hahead hfe
        · exact hf h

end Loop

/-! ### The bytes delivered -/

/-- What an extent owes a reader of `blob`: fetched and cached bytes are the blob's, and so is a local copy with the
recorded CRC.  A local copy without it may be anything. -/
structure ExtentView.Honest (blob : Buf) {eid : ℕ} (view : ExtentView (st.extentLen eid)) : Prop where
  fetch : ∀ data, view.fetch = .ok data → ∀ i < st.extentLen eid, data i = blob (eid * st.extentSize + i)
  cached : ∀ data, view.cached = some data → ∀ i < st.extentLen eid, data i = blob (eid * st.extentSize + i)
  staged : view.Intact → ∀ i < st.extentLen eid, view.staging.bytes i = blob (eid * st.extentSize + i)

variable {blob : Buf}

/-- Whichever way an extent is served, its bytes are the blob's. -/
theorem serveExtent_honest {eid within need : ℕ} {view : ExtentView (st.extentLen eid)} {bytes : Buf}
    (hv : view.Honest blob) (h : serveExtent view within need = .ok bytes) {i : ℕ} (hi : within + i < st.extentLen eid) :
    bytes i = blob (eid * st.extentSize + (within + i)) := by
  have hremote : (match view.fetch with
      | .error e => .error (-e : ℤ)
      | .ok data => .ok fun i => data (within + i)) = Except.ok bytes →
      bytes i = blob (eid * st.extentSize + (within + i)) := by
    intro hb
    cases hf : view.fetch with
    | error e => simp [hf] at hb
    | ok data =>
      simp only [hf, Except.ok.injEq] at hb
      rw [← hb]
      exact hv.fetch data hf _ hi
  unfold serveExtent at h
  dsimp only at h
  split at h
  next expected _ hrec =>
    split at h
    next data hcached =>
      cases h
      exact hv.cached data (by split_ifs at hcached; exact hcached) _ hi
    next =>
      split_ifs at h with hneg hok
      · cases h
        exact hv.staged ⟨hok.1, by rw [hrec, hok.2]⟩ _ hi
      · exact hremote h
  next => exact hremote h

/-- The loop extends what was delivered, one extent at a time. -/
theorem extentLoop_honest {env : Env st} (henv : ∀ eid, (env.extent eid).Honest blob) (req : Request st) (out : Buf)
    (done : ℕ) (hd : ∀ i < done, out i = blob (req.offset + i)) :
    ∀ i : ℕ, i < (extentLoop env req out done).1 → (extentLoop env req out done).2 i = blob (req.offset + i) := by
  fun_induction extentLoop env req out done with
  | case1 out done h pos eid ebase eend within need r hr =>
    intro i hi
    have hneg : r < 0 := by
      by_cases hf : (env.extent eid).Fails within need
      · obtain ⟨r', hlt, heq⟩ := serveExtent_spec.1 hf
        cases hr.symm.trans heq
        exact hlt
      · obtain ⟨bytes, heq⟩ := serveExtent_spec.2 hf
        cases hr.symm.trans heq
    dsimp only at hi
    exact hd i (by split_ifs at hi <;> omega)
  | case2 out done h pos eid ebase eend within need bytes hok ih =>
    refine ih fun i hi => ?_
    have hle : ebase ≤ pos := Nat.div_mul_le_self pos st.extentSize
    by_cases hin : done ≤ i ∧ i < done + need
    · rw [Buf.put_of_mem hin, serveExtent_honest (henv eid) hok]
      · congr 1
        omega
      · unfold Store.extentLen
        omega
    · rw [Buf.put_of_not hin]
      exact hd i (by omega)
  | case3 out done h =>
    dsimp only
    exact fun i hi => hd i (by omega)

/-! ### The blob contract -/

/-- The contract of a blob read: an error, or everything asked for that the blob has. -/
def HonoursContract (size count offset : ℕ) (ret : ℤ) : Prop :=
  ret < 0 ∨ ret = (min count (size - offset) : ℕ)

/-- No failure of the environment comes after something was delivered.  In the complete state the only
read is that of the committed file; otherwise the extents of the request are met in order. -/
def NoLateFailure (st : Store) (state : State) (env : Env st) (commit : (count : ℕ) → Transfer count)
    (count offset : ℕ) : Prop :=
  ∀ h : offset < st.size, 0 < count →
    if state = .complete then
      (commit (min count (st.size - offset))).transferred = min count (st.size - offset) ∨
        ((commit (min count (st.size - offset))).error ≠ none ∧
          (commit (min count (st.size - offset))).transferred = 0)
    else
      (∀ eid, Ahead (clamp st count offset h) 0 eid → ¬ FailsAt env (clamp st count offset h) eid) ∨
        FailsAt env (clamp st count offset h) (offset / st.extentSize)

/-- One read of the committed file honours the contract unless it stops part way. -/
theorem readFdLoop_exact_iff {n : ℕ} (t : Transfer n) :
    (readFdLoop t < 0 ∨ readFdLoop t = n) ↔
      t.transferred = n ∨ (t.error ≠ none ∧ t.transferred = 0) := by
  have hle := t.le
  unfold readFdLoop
  cases he : t.error with
  | none =>
    simp only [ne_eq, not_true_eq_false, false_and, or_false]
    omega
  | some e =>
    have hpos := e.2
    rcases Nat.eq_zero_or_pos t.transferred with h0 | h0
    · exact iff_of_true (Or.inl (by simp only [if_pos h0]; omega)) (Or.inr ⟨by simp, h0⟩)
    · simp only [if_neg h0.ne']
      omega

/-- **`LayerStore::pread` honours the blob contract exactly when nothing fails after something was
delivered**: for every blob and extent size, request, presence pattern and behaviour of the local files
and of the remote. -/
theorem pread_honoursContract_iff (st : Store) (state : State) (env : Env st)
    (commit : (count : ℕ) → Transfer count) (out : Buf) (count offset : ℕ) :
    HonoursContract st.size count offset (pread st state env commit out count offset).1 ↔
      NoLateFailure st state env commit count offset := by
  unfold HonoursContract NoLateFailure pread
  rcases Nat.lt_or_ge offset st.size with h | h
  · rw [dif_pos h]
    rcases Nat.eq_zero_or_pos count with rfl | hc
    · rw [if_pos (by simp [clamp])]
      exact iff_of_true (Or.inr (by simp)) (by simp)
    · have hpos : 0 < (clamp st count offset h).count := by
        simp only [clamp]
        omega
      simp only [if_neg hpos.ne']
      by_cases hs : state = .complete
      · simp only [if_pos hs]
        exact (readFdLoop_exact_iff _).trans ⟨fun hh _ _ => hh, fun hh => hh h hc⟩
      · simp only [if_neg hs]
        exact (extentLoop_spec env (clamp st count offset h) out hpos).trans
          ⟨fun hh _ _ => hh, fun hh => hh h hc⟩
  · rw [dif_neg (by omega)]
    exact iff_of_true (Or.inr (by simp [Nat.sub_eq_zero_of_le h])) fun h' => by omega

/-- **Only the blob's bytes are delivered**, whatever the staging file holds: every byte of the count that `pread`
returns is the blob's, if the remote, the cache, the committed file and every local copy with the recorded CRC hold
the blob. -/
theorem pread_delivers_blob (st : Store) {blob : Buf} (state : State) {env : Env st}
    (henv : ∀ eid, (env.extent eid).Honest blob) {commit : (count : ℕ) → Transfer count} (out : Buf) (count offset : ℕ)
    (hcommit : ∀ n, ∀ i < (commit n).transferred, (commit n).bytes i = blob (offset + i)) :
    ∀ i : ℕ, i < (pread st state env commit out count offset).1 →
      (pread st state env commit out count offset).2 i = blob (offset + i) := by
  unfold pread
  dsimp only
  split_ifs with h h0 hs
  · intro i hi
    omega
  · intro i hi
    have hlt : i < (commit (clamp st count offset h).count).transferred := by
      rw [readFdLoop] at hi
      split at hi
      next e _ =>
        have hpos := e.2
        split_ifs at hi <;> omega
      next => omega
    dsimp only
    rw [Buf.put_of_mem (by omega), Nat.sub_zero]
    exact hcommit _ i hlt
  · exact extentLoop_honest henv (clamp st count offset h) out 0 fun i hi => absurd hi (Nat.not_lt_zero i)
  · intro i hi
    omega

/-- Two extents of four bytes, nothing local. -/
def twoExtents : Store := ⟨8, 4, by decide, fun _ => 0⟩

/-- The first extent is fetched, the fetch of the second fails with `EIO`. -/
def secondFetchFails : Env twoExtents where
  extent := fun eid =>
    { state := .filling
      record := none
      cached := none
      staging := ⟨none, 0, fun _ => 0, Nat.zero_le _⟩
      fetch := if eid = 0 then .ok fun _ => 1 else .error ⟨5, Errno.eio_pos⟩ }

/-- A request over both extents returns four, strictly inside the blob. -/
theorem pread_short_inside_blob :
    (pread twoExtents .filling secondFetchFails (fun _ => ⟨none, 0, fun _ => 0, Nat.zero_le _⟩)
        (fun _ => 0) 8 0).1 = 4 ∧
      ¬ HonoursContract twoExtents.size 8 0
        (pread twoExtents .filling secondFetchFails (fun _ => ⟨none, 0, fun _ => 0, Nat.zero_le _⟩)
          (fun _ => 0) 8 0).1 := by
  have hret : (pread twoExtents .filling secondFetchFails (fun _ => ⟨none, 0, fun _ => 0, Nat.zero_le _⟩)
      (fun _ => 0) 8 0).1 = 4 := by
    rw [pread, dif_pos (by decide), if_neg (by decide), if_neg (by decide)]
    -- the first extent is delivered, the second ends the loop
    rw [extentLoop, dif_pos (by decide)]
    change (extentLoop secondFetchFails (clamp twoExtents 8 0 (by decide)) _ 4).1 = 4
    rw [extentLoop, dif_pos (by decide)]
    rfl
  rw [hret]
  refine ⟨rfl, ?_⟩
  rintro (h | h)
  · exact absurd h (by decide)
  · exact absurd h (by decide)

/-- Both extents are recorded and corrupt on disk. -/
def corruptStaging : Env twoExtents where
  extent := fun _ =>
    { state := .filling
      record := some 1
      cached := none
      staging := ⟨none, _, fun _ => 9, le_rfl⟩
      fetch := .ok fun _ => 1 }

/-- The blob's bytes are fetched. -/
theorem pread_delivers_blob_corrupt :
    (pread twoExtents .filling corruptStaging (fun _ => ⟨none, 0, fun _ => 0, Nat.zero_le _⟩) (fun _ => 0) 8 0).2 7
      = 1 := by
  have henv : ∀ eid, (corruptStaging.extent eid).Honest (fun _ => 1) := by
    intro eid
    refine ⟨fun data h i _ => ?_, fun data h => ?_, fun h => ?_⟩
    · cases h
      rfl
    · cases h
    · exact absurd h.2 (show (some 1 : Option UInt32) ≠ some 0 by decide)
  exact pread_delivers_blob twoExtents .filling henv _ 8 0 (fun n i h => absurd h (Nat.not_lt_zero i)) 7 (by decide +kernel)

end OverlayBD.LayerStore
