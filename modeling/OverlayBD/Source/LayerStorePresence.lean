import OverlayBD.Lib.Transition
import OverlayBD.Source.LayerStoreRead

/-!
# Presence accounting of the layer store

`records_` says which extents are present and `present_` how many; the two are separate atomics, updated by
readers that demote a corrupt extent and by the writer thread that publishes, clears and, after a failed
digest check, restarts.  This module interleaves their atomic operations and lock-protected sections.

## The model

* `Config` — the number of extents and of readers, arbitrary, together below `2^64`.
* `Reader`, `Writer` — where each thread stands between its atomic operations.
* `PState` — the flags, the counter (a 64-bit unsigned integer), the queue and the threads; `wrapped` is set
  by a decrement of zero.
* `PStep` — one atomic operation of one thread.

## What is proved

* `Accounted` — the joint invariant: the counter and the publication still to be counted balance the flags
  and the demotions still to be counted; while a restart clears the flags the counter only has to stay ahead.
* `present_eq_count_of_orderly` — in every run in which no restart zeroes the counter under a reader's
  pending decrement, and no decrement overtakes the publication it undoes, the counter never wraps and equals
  the number of present extents whenever no demotion or job is in progress.
* `present_wraps_after_restart` — the first of these two orders, run to its end.
-/

namespace OverlayBD.LayerStore

open Transition

/-- Sizes of a run. -/
structure Config where
  /-- `extent_count_`. -/
  extents : ℕ
  /-- Concurrent readers. -/
  readers : ℕ
  fits : extents + readers + 1 < 2 ^ 64

/-- A reader inside `pread`, around the demotion of an extent. -/
inductive Reader (n : ℕ) where
  | idle
  /-- Sampled the state as filling; the record is loaded next. -/
  | sampled
  /-- Saw the record present; its local read and CRC check are under way. -/
  | checked (eid : Fin n)
  /-- Exchanged a present record for zero; `present_.fetch_sub(1)` comes next. -/
  | cleared (eid : Fin n)
  /-- `enqueue_clear` comes next. -/
  | demoted (eid : Fin n)
deriving DecidableEq

/-- The writer thread. -/
inductive Writer (n : ℕ) where
  | idle
  /-- `process_job` of a write, its file writes under way. -/
  | writing (eid : Fin n)
  /-- Exchanged an absent record for a present one; `present_.fetch_add(1)` comes next. -/
  | published
  /-- `process_job` of a clear, its sidecar write under way. -/
  | clearing (eid : Fin n)
  /-- Exchanged a present record for zero; `present_.fetch_sub(1)` comes next. -/
  | clearedJob
  /-- `complete_layer`. -/
  | completing
  /-- `restart_fresh`, the records below `k` stored zero. -/
  | restarting (k : ℕ)
  /-- `present_.store(0)` done; the queue is cleared next. -/
  | zeroed
  /-- The replacement pair is built next. -/
  | rebuilding
deriving DecidableEq

/-- A queued job. -/
inductive Job (n : ℕ) where
  | write (eid : Fin n)
  | clear (eid : Fin n)
deriving DecidableEq

/-- The shared state and the threads. -/
structure PState (c : Config) where
  /-- The present flag of every record. -/
  records : Fin c.extents → Bool
  /-- `present_`. -/
  present : ℕ
  state : State
  queue : List (Job c.extents)
  readers : Fin c.readers → Reader c.extents
  writer : Writer c.extents
  /-- A decrement found the counter at zero. -/
  wrapped : Bool

/-- One atomic operation, or one section under a lock. -/
inductive PAct (c : Config) where
  | readerSample (i : Fin c.readers)
  | readerLoad (i : Fin c.readers) (eid : Fin c.extents)
  | readerServed (i : Fin c.readers)
  | readerExchange (i : Fin c.readers)
  | readerSub (i : Fin c.readers)
  | readerEnqueueClear (i : Fin c.readers)
  | enqueueWrite (eid : Fin c.extents)
  | writerPop
  | writerFail (fatal : Bool)
  | writerExchange
  | writerAdd
  | writerSub
  | verified
  | verifyBypass
  | restartBegin
  | restartClear
  | restartZero
  | restartQueue
  | restartPair (ok : Bool)

/-- `fetch_sub(1)` on a 64-bit counter. -/
def fetchSub (p : ℕ) : ℕ := (p + 2 ^ 64 - 1) % 2 ^ 64

/-- `fetch_add(1)` on a 64-bit counter. -/
def fetchAdd (p : ℕ) : ℕ := (p + 1) % 2 ^ 64

/-- `enter_bypass`: only a filling store changes state. -/
def enterBypass : State → State
  | .filling => .bypass
  | s => s

variable {c : Config}

/-- The interleaved system. -/
inductive PStep : PState c → PAct c → PState c → Prop
  /-- `state() == State::Filling`. -/
  | readerSample {s : PState c} {i : Fin c.readers} (hr : s.readers i = .idle) (hf : s.state = .filling) :
      PStep s (.readerSample i) { s with readers := Function.update s.readers i .sampled }
  /-- `records_[eid].load()`; an absent extent is a miss and needs no local read. -/
  | readerLoad {s : PState c} {i : Fin c.readers} {eid : Fin c.extents} (hr : s.readers i = .sampled) :
      PStep s (.readerLoad i eid)
        { s with
          readers := Function.update s.readers i (if s.records eid = true then .checked eid else .idle) }
  /-- The local read verified, or failed without a CRC verdict. -/
  | readerServed {s : PState c} {i : Fin c.readers} {eid : Fin c.extents} (hr : s.readers i = .checked eid) :
      PStep s (.readerServed i) { s with readers := Function.update s.readers i .idle }
  /-- `records_[eid].exchange(0)` after a CRC mismatch. -/
  | readerExchange {s : PState c} {i : Fin c.readers} {eid : Fin c.extents} (hr : s.readers i = .checked eid) :
      PStep s (.readerExchange i)
        { s with
          records := Function.update s.records eid false
          readers := Function.update s.readers i
            (if s.records eid = true then .cleared eid else .demoted eid) }
  /-- `present_.fetch_sub(1)` of a reader. -/
  | readerSub {s : PState c} {i : Fin c.readers} {eid : Fin c.extents} (hr : s.readers i = .cleared eid) :
      PStep s (.readerSub i)
        { s with
          present := fetchSub s.present
          wrapped := s.wrapped || decide (s.present = 0)
          readers := Function.update s.readers i (.demoted eid) }
  /-- `enqueue_clear`. -/
  | readerEnqueueClear {s : PState c} {i : Fin c.readers} {eid : Fin c.extents}
      (hr : s.readers i = .demoted eid) :
      PStep s (.readerEnqueueClear i)
        { s with
          queue := if s.state = .filling then s.queue ++ [.clear eid] else s.queue
          readers := Function.update s.readers i .idle }
  /-- `enqueue_write` by a reader, a populate or the fill. -/
  | enqueueWrite {s : PState c} {eid : Fin c.extents} (hf : s.state = .filling) :
      PStep s (.enqueueWrite eid) { s with queue := s.queue ++ [.write eid] }
  /-- The writer takes a write job; outside filling it is dropped. -/
  | popWrite {s : PState c} {eid : Fin c.extents} {q : List (Job c.extents)} (hw : s.writer = .idle)
      (hq : s.queue = .write eid :: q) :
      PStep s .writerPop
        { s with queue := q, writer := if s.state = .filling then .writing eid else .idle }
  /-- The writer takes a clear job. -/
  | popClear {s : PState c} {eid : Fin c.extents} {q : List (Job c.extents)} (hw : s.writer = .idle)
      (hq : s.queue = .clear eid :: q) :
      PStep s .writerPop
        { s with queue := q, writer := if s.state = .filling then .clearing eid else .idle }
  /-- A file write of a write job fails; `ENOSPC` and `EIO` end in bypass. -/
  | failWrite {s : PState c} {eid : Fin c.extents} {fatal : Bool} (hw : s.writer = .writing eid) :
      PStep s (.writerFail fatal)
        { s with state := if fatal then enterBypass s.state else s.state, writer := .idle }
  /-- The sidecar write of a clear job fails. -/
  | failClear {s : PState c} {eid : Fin c.extents} {fatal : Bool} (hw : s.writer = .clearing eid) :
      PStep s (.writerFail fatal)
        { s with state := if fatal then enterBypass s.state else s.state, writer := .idle }
  /-- `records_[eid].exchange(packed)`. -/
  | exchangeWrite {s : PState c} {eid : Fin c.extents} (hw : s.writer = .writing eid) :
      PStep s .writerExchange
        { s with
          records := Function.update s.records eid true
          writer := if s.records eid = true then .idle else .published }
  /-- `records_[eid].exchange(0)` of a clear job. -/
  | exchangeClear {s : PState c} {eid : Fin c.extents} (hw : s.writer = .clearing eid) :
      PStep s .writerExchange
        { s with
          records := Function.update s.records eid false
          writer := if s.records eid = true then .clearedJob else .idle }
  /-- `present_.fetch_add(1)`; the last extent starts `complete_layer`. -/
  | writerAdd {s : PState c} (hw : s.writer = .published) :
      PStep s .writerAdd
        { s with
          present := fetchAdd s.present
          writer := if fetchAdd s.present = c.extents then .completing else .idle }
  /-- `present_.fetch_sub(1)` of a clear job. -/
  | writerSub {s : PState c} (hw : s.writer = .clearedJob) :
      PStep s .writerSub
        { s with
          present := fetchSub s.present
          wrapped := s.wrapped || decide (s.present = 0)
          writer := .idle }
  /-- The digest agrees and the rename succeeds. -/
  | verified {s : PState c} (hw : s.writer = .completing) :
      PStep s .verified { s with state := .complete, writer := .idle }
  /-- The rename fails, verification is unavailable, or the attempts are used up. -/
  | verifyBypass {s : PState c} (hw : s.writer = .completing) :
      PStep s .verifyBypass { s with state := enterBypass s.state, writer := .idle }
  /-- The digest differs and attempts are left: `restart_fresh` begins. -/
  | restartBegin {s : PState c} (hw : s.writer = .completing) :
      PStep s .restartBegin { s with writer := .restarting 0 }
  /-- `rec.store(0)` on the next record. -/
  | restartClear {s : PState c} {k : ℕ} (hk : k < c.extents) (hw : s.writer = .restarting k) :
      PStep s .restartClear
        { s with
          records := Function.update s.records ⟨k, hk⟩ false
          writer := .restarting (k + 1) }
  /-- `present_.store(0)` after the last record. -/
  | restartZero {s : PState c} (hw : s.writer = .restarting c.extents) :
      PStep s .restartZero { s with present := 0, writer := .zeroed }
  /-- `queue_.clear()` under the queue lock. -/
  | restartQueue {s : PState c} (hw : s.writer = .zeroed) :
      PStep s .restartQueue { s with queue := [], writer := .rebuilding }
  /-- The replacement pair is published, or cannot be created. -/
  | restartPair {s : PState c} {ok : Bool} (hw : s.writer = .rebuilding) :
      PStep s (.restartPair ok)
        { s with state := if ok then s.state else enterBypass s.state, writer := .idle }

/-! ### The balance -/

/-- The reader owes the counter a decrement. -/
def Reader.owes {n : ℕ} : Reader n → Bool
  | .cleared _ => true
  | _ => false

/-- The number of extents present. -/
def PState.count (s : PState c) : ℕ := tally id s.records

/-- Readers that owe a decrement. -/
def PState.pending (s : PState c) : ℕ := tally Reader.owes s.readers

/-- The increment the writer owes. -/
def Writer.owesAdd {n : ℕ} : Writer n → ℕ
  | .published => 1
  | _ => 0

/-- The decrement the writer owes. -/
def Writer.owesSub {n : ℕ} : Writer n → ℕ
  | .clearedJob => 1
  | _ => 0

/-- No demotion and no job in progress. -/
def PState.Quiescent (s : PState c) : Prop := s.writer = .idle ∧ ∀ i, (s.readers i).owes = false

/-- As a pair is opened: every thread idle, or the writer at the completion check of a full pair, and the
counter the number of flags. -/
structure PState.Opened (s : PState c) : Prop where
  readers : ∀ i, s.readers i = .idle
  writer : s.writer = .idle ∨ s.writer = .completing
  present : s.present = s.count
  wrapped : s.wrapped = false

/-- The two orders of atomic operations that lose count do not happen: `restart_fresh` does not zero the
counter while a reader owes a decrement, and a reader does not take its decrement between the exchange and
the increment of a publication that nothing else balances. -/
def Orderly (s : PState c) : PAct c → Prop
  | .restartZero => ∀ i, (s.readers i).owes = false
  | .readerSub i => ¬ (s.writer = .published ∧ (∀ e, s.records e = false) ∧
      ∀ j, j ≠ i → (s.readers j).owes = false)
  | _ => True

/-- **The joint invariant.**  Outside a restart the debts balance; while a restart clears the flags, the
counter stays ahead of what is still owed. -/
structure Accounted (s : PState c) : Prop where
  nowrap : s.wrapped = false
  balance : (∀ k, s.writer ≠ .restarting k) →
    s.present + s.writer.owesAdd = s.count + s.pending + s.writer.owesSub
  ahead : ∀ k, s.writer = .restarting k → s.count + s.pending ≤ s.present ∧
    s.present ≤ c.extents + c.readers ∧ ∀ e : Fin c.extents, e.val < k → s.records e = false

section Lemmas

variable {s : PState c}

theorem PState.count_le (s : PState c) : s.count ≤ c.extents := by
  have h := tally_le_card id s.records
  rwa [Fintype.card_fin] at h

theorem PState.pending_le (s : PState c) : s.pending ≤ c.readers := by
  have h := tally_le_card Reader.owes s.readers
  rwa [Fintype.card_fin] at h

theorem fetchSub_eq {p : ℕ} (h : 0 < p) (hlt : p < 2 ^ 64) : fetchSub p = p - 1 := by
  unfold fetchSub
  omega

theorem fetchAdd_eq {p : ℕ} (hlt : p + 1 < 2 ^ 64) : fetchAdd p = p + 1 := by
  unfold fetchAdd
  omega

theorem Accounted.present_le (h : Accounted s) : s.present ≤ c.extents + c.readers + 1 := by
  have h1 := s.count_le
  have h2 := s.pending_le
  have h3 : s.writer.owesSub ≤ 1 := by
    cases s.writer <;> simp [Writer.owesSub]
  by_cases hr : ∃ k, s.writer = .restarting k
  · obtain ⟨k, hk⟩ := hr
    have := (h.ahead k hk).2.1
    omega
  · have := h.balance (not_exists.mp hr)
    omega

/-- A demotion or a publication moves one flag. -/
theorem count_update (eid : Fin c.extents) (b : Bool) :
    tally id (Function.update s.records eid b) + (s.records eid).toNat = s.count + b.toNat :=
  tally_update id s.records eid b

theorem pending_update (i : Fin c.readers) (r : Reader c.extents) :
    tally Reader.owes (Function.update s.readers i r) + ((s.readers i).owes).toNat =
      s.pending + r.owes.toNat :=
  tally_update Reader.owes s.readers i r

/-- A step that moves neither flags nor counter nor debts. -/
theorem Accounted.frame {s' : PState c} (h : Accounted s) (hw : s'.writer = s.writer)
    (hp : s'.present = s.present) (hr : s'.records = s.records) (hd : s'.pending = s.pending)
    (hn : s'.wrapped = s.wrapped) : Accounted s' := by
  have hc : s'.count = s.count := by rw [PState.count, hr, PState.count]
  refine ⟨by rw [hn, h.nowrap], fun hne => ?_, fun k hk => ?_⟩
  · rw [hw, hp, hc, hd]
    exact h.balance fun k => by rw [← hw]; exact hne k
  · rw [hp, hc, hd, hr]
    exact h.ahead k (by rw [← hw, hk])

/-- Outside a restart the balance is all there is to show. -/
theorem Accounted.of_balance (hn : s.wrapped = false) (hw : ∀ k, s.writer ≠ .restarting k)
    (hb : s.present + s.writer.owesAdd = s.count + s.pending + s.writer.owesSub) : Accounted s :=
  ⟨hn, fun _ => hb, fun k hk => absurd hk (hw k)⟩

/-- The balance when the writer owes nothing. -/
theorem Accounted.settled (h : Accounted s) (hw : ∀ k, s.writer ≠ .restarting k)
    (ha : s.writer.owesAdd = 0) (hs : s.writer.owesSub = 0) : s.present = s.count + s.pending := by
  have := h.balance hw
  omega

/-- The writer stands where it owes nothing. -/
def Writer.Settled {n : ℕ} (w : Writer n) : Prop :=
  (∀ k, w ≠ .restarting k) ∧ w.owesAdd = 0 ∧ w.owesSub = 0

/-- A step of the writer between two places where it owes nothing. -/
theorem Accounted.relabel {s' : PState c} (h : Accounted s) (hw : s.writer.Settled)
    (hw' : s'.writer.Settled) (hp : s'.present = s.present) (hr : s'.records = s.records)
    (hd : s'.readers = s.readers) (hn : s'.wrapped = s.wrapped) : Accounted s' := by
  have hb := h.settled hw.1 hw.2.1 hw.2.2
  refine Accounted.of_balance (by rw [hn, h.nowrap]) hw'.1 ?_
  rw [hw'.2.1, hw'.2.2, hp, hb, PState.count, PState.pending, PState.count, PState.pending, hr, hd]

/-- A decrement that is owed and orderly finds the counter above zero. -/
theorem Accounted.pos_of_readerSub (h : Accounted s) {i : Fin c.readers} (hr : (s.readers i).owes = true)
    (hok : Orderly s (.readerSub i)) : 0 < s.present := by
  have hupd := pending_update (s := s) i .idle
  have hidle : (Reader.idle : Reader c.extents).owes = false := rfl
  rw [hr, hidle, Bool.toNat_true, Bool.toNat_false] at hupd
  by_cases hre : ∃ k, s.writer = .restarting k
  · obtain ⟨k, hk⟩ := hre
    have := (h.ahead k hk).1
    omega
  · have hb := h.balance (not_exists.mp hre)
    by_cases hpub : s.writer = .published
    · -- the publication in flight must not be all that balances this decrement
      have hadd : s.writer.owesAdd = 1 := by rw [hpub]; rfl
      have hne : ¬ (s.count = 0 ∧ s.pending = 1) := by
        rintro ⟨hc, hp⟩
        refine hok ⟨hpub, fun e => (tally_eq_zero_iff id s.records).mp hc e, fun j hj => ?_⟩
        have hrest : tally Reader.owes (Function.update s.readers i .idle) = 0 := by omega
        have hj' := (tally_eq_zero_iff _ _).mp hrest j
        rwa [Function.update_of_ne hj] at hj'
      omega
    · have hadd : s.writer.owesAdd = 0 := by
        cases hwr : s.writer <;> simp_all [Writer.owesAdd]
      omega

end Lemmas

/-- **The step lemma**: every orderly step keeps the accounts. -/
theorem Accounted.step {s s' : PState c} {a : PAct c} (h : Accounted s) (hok : Orderly s a)
    (hs : PStep s a s') : Accounted s' := by
  have hfits := c.fits
  have hple := h.present_le
  cases hs with
  | @readerSample i hr hf =>
    have hd := pending_update (s := s) i .sampled
    rw [hr] at hd
    exact h.frame rfl rfl rfl hd rfl
  | @readerLoad i eid hr =>
    have hd := pending_update (s := s) i (if s.records eid = true then .checked eid else .idle)
    have ho : (if s.records eid = true then Reader.checked eid else .idle).owes = false := by
      split_ifs <;> rfl
    rw [hr, ho] at hd
    exact h.frame rfl rfl rfl hd rfl
  | @readerServed i eid hr =>
    have hd := pending_update (s := s) i .idle
    rw [hr] at hd
    exact h.frame rfl rfl rfl hd rfl
  | @readerEnqueueClear i eid hr =>
    have hd := pending_update (s := s) i .idle
    rw [hr] at hd
    exact h.frame rfl rfl rfl hd rfl
  | @enqueueWrite eid hf => exact h.frame rfl rfl rfl rfl rfl
  | @readerExchange i eid hr =>
    -- a present flag becomes a pending decrement; an absent one changes nothing
    have hc := count_update (s := s) eid false
    have hd := pending_update (s := s) i (if s.records eid = true then .cleared eid else .demoted eid)
    have howes : (s.readers i).owes = false := by rw [hr]; rfl
    have hmove : (if s.records eid = true then Reader.cleared eid else .demoted eid).owes =
        s.records eid := by
      cases s.records eid <;> rfl
    rw [howes, hmove] at hd
    refine ⟨h.nowrap, fun hne => ?_, fun k hk => ?_⟩
    · have hb := h.balance hne
      simp only [PState.count, PState.pending, Bool.toNat_false] at *
      omega
    · obtain ⟨hle, hbound, hzero⟩ := h.ahead k hk
      refine ⟨?_, hbound, fun e he => ?_⟩
      · simp only [PState.count, PState.pending, Bool.toNat_false] at *
        omega
      · rcases eq_or_ne e eid with rfl | hne
        · exact Function.update_self _ _ _
        · exact (Function.update_of_ne hne _ _).trans (hzero e he)
  | @readerSub i eid hr =>
    have howes : (s.readers i).owes = true := by rw [hr]; rfl
    have hpos := h.pos_of_readerSub howes hok
    have hd := pending_update (s := s) i (.demoted eid)
    have hdem : (Reader.demoted eid).owes = false := rfl
    rw [howes, hdem, Bool.toNat_true, Bool.toNat_false] at hd
    have hsub := fetchSub_eq hpos (by omega)
    refine ⟨by simp [h.nowrap, hpos.ne'], fun hne => ?_, fun k hk => ?_⟩
    · have hb := h.balance hne
      simp only [PState.count, PState.pending, hsub] at *
      omega
    · obtain ⟨hle, hbound, hzero⟩ := h.ahead k hk
      refine ⟨?_, ?_, hzero⟩
      · simp only [PState.count, PState.pending, hsub] at *
        omega
      · simp only [hsub]
        omega
  | @popWrite eid q hw hq =>
    refine h.relabel (by simp [hw, Writer.Settled, Writer.owesAdd, Writer.owesSub]) ?_ rfl rfl rfl rfl
    split_ifs <;> simp [Writer.Settled, Writer.owesAdd, Writer.owesSub]
  | @popClear eid q hw hq =>
    refine h.relabel (by simp [hw, Writer.Settled, Writer.owesAdd, Writer.owesSub]) ?_ rfl rfl rfl rfl
    split_ifs <;> simp [Writer.Settled, Writer.owesAdd, Writer.owesSub]
  | @failWrite eid fatal hw =>
    exact h.relabel (by simp [hw, Writer.Settled, Writer.owesAdd, Writer.owesSub])
      (by simp [Writer.Settled, Writer.owesAdd, Writer.owesSub]) rfl rfl rfl rfl
  | @failClear eid fatal hw =>
    exact h.relabel (by simp [hw, Writer.Settled, Writer.owesAdd, Writer.owesSub])
      (by simp [Writer.Settled, Writer.owesAdd, Writer.owesSub]) rfl rfl rfl rfl
  | @exchangeWrite eid hw =>
    have hb := h.settled (by rw [hw]; simp) (by rw [hw]; rfl) (by rw [hw]; rfl)
    have hc := count_update (s := s) eid true
    refine Accounted.of_balance h.nowrap ?_ ?_
    · intro k
      split_ifs <;> simp
    · cases hold : s.records eid
      · rw [hold] at hc
        simp only [PState.count, PState.pending, Bool.toNat_false, Bool.toNat_true, Bool.false_eq_true,
          if_false, Writer.owesAdd, Writer.owesSub] at *
        omega
      · rw [hold] at hc
        simp only [PState.count, PState.pending, Bool.toNat_true, if_true, Writer.owesAdd,
          Writer.owesSub] at *
        omega
  | @exchangeClear eid hw =>
    have hb := h.settled (by rw [hw]; simp) (by rw [hw]; rfl) (by rw [hw]; rfl)
    have hc := count_update (s := s) eid false
    refine Accounted.of_balance h.nowrap ?_ ?_
    · intro k
      split_ifs <;> simp
    · cases hold : s.records eid
      · rw [hold] at hc
        simp only [PState.count, PState.pending, Bool.toNat_false, Bool.false_eq_true, if_false,
          Writer.owesAdd, Writer.owesSub] at *
        omega
      · rw [hold] at hc
        simp only [PState.count, PState.pending, Bool.toNat_false, Bool.toNat_true, if_true,
          Writer.owesAdd, Writer.owesSub] at *
        omega
  | writerAdd hw =>
    have hb := h.balance (by rw [hw]; simp)
    rw [hw] at hb
    have hadd := fetchAdd_eq (p := s.present) (by
      have h1 := s.count_le
      have h2 := s.pending_le
      simp only [Writer.owesAdd, Writer.owesSub] at hb
      omega)
    refine Accounted.of_balance h.nowrap ?_ ?_
    · intro k
      split_ifs <;> simp
    · simp only [hadd, PState.count, PState.pending, Writer.owesAdd, Writer.owesSub] at *
      split_ifs <;> omega
  | writerSub hw =>
    have hb := h.balance (by rw [hw]; simp)
    rw [hw] at hb
    have hpos : 0 < s.present := by
      simp only [Writer.owesAdd, Writer.owesSub] at hb
      omega
    have hsub := fetchSub_eq hpos (by omega)
    refine Accounted.of_balance (by simp [h.nowrap, hpos.ne']) (by simp) ?_
    simp only [hsub, PState.count, PState.pending, Writer.owesAdd, Writer.owesSub] at *
    omega
  | verified hw =>
    exact h.relabel (by simp [hw, Writer.Settled, Writer.owesAdd, Writer.owesSub])
      (by simp [Writer.Settled, Writer.owesAdd, Writer.owesSub]) rfl rfl rfl rfl
  | verifyBypass hw =>
    exact h.relabel (by simp [hw, Writer.Settled, Writer.owesAdd, Writer.owesSub])
      (by simp [Writer.Settled, Writer.owesAdd, Writer.owesSub]) rfl rfl rfl rfl
  | restartBegin hw =>
    have hb := h.settled (by rw [hw]; simp) (by rw [hw]; rfl) (by rw [hw]; rfl)
    have h1 := s.count_le
    have h2 := s.pending_le
    refine ⟨h.nowrap, fun hne => absurd rfl (hne 0), fun k hk => ?_⟩
    obtain rfl : 0 = k := by simpa using hk
    exact ⟨hb.ge, by simp only; omega, fun e he => absurd he (Nat.not_lt_zero _)⟩
  | @restartClear k hk hw =>
    obtain ⟨hle, hbound, hzero⟩ := h.ahead k hw
    have hc := count_update (s := s) ⟨k, hk⟩ false
    refine ⟨h.nowrap, fun hne => absurd rfl (hne (k + 1)), fun k' hk' => ?_⟩
    obtain rfl : k + 1 = k' := by simpa using hk'
    refine ⟨?_, hbound, fun e he => ?_⟩
    · simp only [PState.count, PState.pending, Bool.toNat_false] at *
      omega
    · rcases eq_or_ne e ⟨k, hk⟩ with rfl | hne
      · exact Function.update_self _ _ _
      · have hval : e.val ≠ k := fun hv => hne (Fin.ext hv)
        exact (Function.update_of_ne hne _ _).trans (hzero e (by omega))
  | restartZero hw =>
    -- every flag is down and no reader owes anything, so zero is the balance
    obtain ⟨-, -, hzero⟩ := h.ahead c.extents hw
    have hc : s.count = 0 := (tally_eq_zero_iff id s.records).mpr fun e => hzero e e.isLt
    have hd : s.pending = 0 := (tally_eq_zero_iff Reader.owes s.readers).mpr hok
    refine Accounted.of_balance h.nowrap (by simp) ?_
    simp only [PState.count, PState.pending, Writer.owesAdd, Writer.owesSub] at *
    omega
  | restartQueue hw =>
    exact h.relabel (by simp [hw, Writer.Settled, Writer.owesAdd, Writer.owesSub])
      (by simp [Writer.Settled, Writer.owesAdd, Writer.owesSub]) rfl rfl rfl rfl
  | @restartPair ok hw =>
    exact h.relabel (by simp [hw, Writer.Settled, Writer.owesAdd, Writer.owesSub])
      (by simp [Writer.Settled, Writer.owesAdd, Writer.owesSub]) rfl rfl rfl rfl

theorem PState.Opened.accounted {s : PState c} (h : s.Opened) : Accounted s := by
  have hd : s.pending = 0 := by
    refine (tally_eq_zero_iff _ _).mpr fun i => ?_
    rw [h.readers i]
    rfl
  have hp := h.present
  rcases h.writer with hw | hw
  · exact Accounted.of_balance h.wrapped (by rw [hw]; simp) (by rw [hw, hd]; exact hp)
  · exact Accounted.of_balance h.wrapped (by rw [hw]; simp) (by rw [hw, hd]; exact hp)

/-- **Presence accounting.**  In every run of any number of readers, the writer and the fill whose steps
are orderly, the counter never wraps, and in every state reached with no demotion or job in progress it is
the number of extents present. -/
theorem present_eq_count_of_orderly {s₀ s : PState c} (h₀ : s₀.Opened)
    (hrun : Reaches PStep Orderly s₀ s) :
    s.wrapped = false ∧ (s.Quiescent → s.present = s.count) := by
  have h : Accounted s := hrun.invariant h₀.accounted fun _ _ _ hi hok hs => hi.step hok hs
  refine ⟨h.nowrap, ?_⟩
  rintro ⟨hw, hq⟩
  have hb := h.settled (by rw [hw]; simp) (by rw [hw]; rfl) (by rw [hw]; rfl)
  have hd : s.pending = 0 := (tally_eq_zero_iff _ _).mpr hq
  omega

/-- One extent, one reader. -/
def tinyConfig : Config := ⟨1, 1, by decide⟩

/-- A freshly created pair of that size. -/
def freshState : PState tinyConfig where
  records := fun _ => false
  present := 0
  state := .filling
  queue := []
  readers := fun _ => .idle
  writer := .idle
  wrapped := false

theorem freshState_opened : freshState.Opened := ⟨fun _ => rfl, Or.inl rfl, by decide, rfl⟩

/-- The one extent and the one reader. -/
def theExtent : Fin tinyConfig.extents := ⟨0, by decide⟩

def theReader : Fin tinyConfig.readers := ⟨0, by decide⟩

/-- The extent is fetched, published and counted, without a demotion in between. -/
theorem present_eq_count_after_publish :
    ∃ s, Reaches PStep Orderly freshState s ∧ s.writer = .completing ∧
      (s.wrapped = false ∧ (s.Quiescent → s.present = s.count)) := by
  have h₁ : Reaches PStep Orderly freshState _ :=
    Reaches.refl.tail (@PStep.enqueueWrite _ freshState theExtent rfl) trivial
  have h₂ := h₁.tail (a := PAct.writerPop) (PStep.popWrite rfl rfl) trivial
  have h₃ := h₂.tail (a := PAct.writerExchange) (PStep.exchangeWrite rfl) trivial
  have h₄ := h₃.tail (a := PAct.writerAdd) (PStep.writerAdd rfl) trivial
  exact ⟨_, h₄, rfl, present_eq_count_of_orderly freshState_opened h₄⟩

/-- The staging file is damaged after the last extent was published.  A reader sees the CRC mismatch and
clears the record; before it decrements the counter, the failed digest check restarts the store and zeroes
it.  The decrement then wraps, and the store comes to rest with no extent present and `2^64 - 1` counted. -/
theorem present_wraps_after_restart :
    ∃ s, Reaches PStep always freshState s ∧ s.Quiescent ∧ s.count = 0 ∧ s.present = 2 ^ 64 - 1 ∧
      s.wrapped = true := by
  -- the extent is published and a reader finds it present
  have h₁ : Reaches PStep always freshState _ :=
    Reaches.refl.tail (@PStep.enqueueWrite _ freshState theExtent rfl) trivial
  have h₂ := h₁.tail (a := PAct.writerPop) (PStep.popWrite rfl rfl) trivial
  have h₃ := h₂.tail (a := PAct.writerExchange) (PStep.exchangeWrite rfl) trivial
  have h₄ := h₃.tail (a := PAct.writerAdd) (PStep.writerAdd rfl) trivial
  have h₅ := h₄.tail (a := PAct.readerSample theReader) (PStep.readerSample rfl rfl) trivial
  have h₆ := h₅.tail (a := PAct.readerLoad theReader theExtent) (PStep.readerLoad rfl) trivial
  -- the reader clears the record, the restart zeroes the counter, the reader decrements it
  have h₇ := h₆.tail (a := PAct.restartBegin) (PStep.restartBegin rfl) trivial
  have h₈ := h₇.tail (a := PAct.readerExchange theReader) (@PStep.readerExchange _ _ _ theExtent rfl) trivial
  have h₉ := h₈.tail (a := PAct.restartClear) (PStep.restartClear (by decide) rfl) trivial
  have h₁₀ := h₉.tail (a := PAct.restartZero) (PStep.restartZero rfl) trivial
  have h₁₁ := h₁₀.tail (a := PAct.readerSub theReader) (@PStep.readerSub _ _ _ theExtent rfl) trivial
  -- everyone finishes
  have h₁₂ := h₁₁.tail (a := PAct.readerEnqueueClear theReader) (@PStep.readerEnqueueClear _ _ _ theExtent rfl) trivial
  have h₁₃ := h₁₂.tail (a := PAct.restartQueue) (PStep.restartQueue rfl) trivial
  have h₁₄ := h₁₃.tail (a := PAct.restartPair true) (PStep.restartPair rfl) trivial
  exact ⟨_, h₁₄, ⟨rfl, by decide⟩, by decide, by decide, by decide⟩

end OverlayBD.LayerStore
