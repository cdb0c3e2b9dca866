import OverlayBD.Source.LayerStoreGeneration

/-!
# Null results of a populate (`source/layer_store.cpp`)

A prefetch that has waited for its admission looks at the record again and, if another class made the extent present
meanwhile, returns no bytes and no error.  `populate` does not look at the bytes: it reads the record a third time and queues
the extent if it is absent.  Between the two looks a reader may demote the extent, the writer may clear it, or a failed digest
check may restart the layer; `enqueue_write` then gets a null pointer.

## The model

The interleaved system of `LayerStoreGeneration`: `skip` is the answer without bytes, `wanted` the last look, `enqueueNull` the
read through the null pointer.

* `Clears` — a step that takes a present record away, and whose record it takes.
* `Undisturbed` — such a step does not meet a populate between its two looks at that record.

## What is proved

* `NullSafe.step` — what an undisturbed step keeps.
* `enqueue_has_data` — in a run of undisturbed steps every queued extent comes with a buffer of its length.
* `populate_enqueues_null` — two runs that are not, a restart and a demotion.
-/

namespace OverlayBD.LayerStore

open Transition

variable {r : ℕ} {R : Remote} {s s' : GState r}

/-- The step clears the record of a present extent: a demotion by a reader, a clear job of the writer, a restart. -/
inductive Clears (s : GState r) (eid : ℕ) (s' : GState r) : Prop
  | demote (hp : s.records eid ≠ none) (h : s' = { s with records := Function.update s.records eid none })
  | clear (hp : s.records eid ≠ none) (hw : s.scribe = .clearing eid)
      (h : s' = { s with
        scribe := .idle
        sidecar := Function.update s.sidecar eid none
        records := Function.update s.records eid none })
  | restart (hp : s.records eid ≠ none) (hw : s.scribe = .restarting eid)
      (h : s' = { s with scribe := .restarting (eid + 1), records := Function.update s.records eid none })

/-- No populate that was told "already present" for an extent has yet to look at the record that is cleared. -/
def Undisturbed (s s' : GState r) : Prop :=
  ∀ eid, Clears s eid s' → ∀ i generation, s.clients i ≠ .holding eid generation none

/-! ### What undisturbed steps keep -/

/-- A client with a null result will not queue it. -/
def Client.NullSafe (s : GState r) : Client → Prop
  | .holding eid _ none => s.state ≠ .filling ∨ s.records eid ≠ none
  | .enqueuing _ _ none => False
  | _ => True

/-- **Nobody queues a null result.** -/
structure NullSafe (s : GState r) : Prop where
  clients : ∀ i, (s.clients i).NullSafe s
  crashed : s.crashed = false

/-- The clients stay where they are, and what a null result rests on stays. -/
theorem NullSafe.frame (h : NullSafe s) (hc : s'.clients = s.clients) (hx : s'.crashed = s.crashed)
    (hst : s.state ≠ .filling → s'.state ≠ .filling)
    (hrec : ∀ i eid generation, s.clients i = .holding eid generation none → s.records eid ≠ none → s'.records eid ≠ none) :
    NullSafe s' := by
  refine ⟨fun i => ?_, hx.trans h.crashed⟩
  have hi := h.clients i
  rw [hc]
  cases hci : s.clients i with
  | holding eid generation data =>
    cases data with
    | none =>
      rw [hci] at hi
      exact hi.imp hst (hrec i eid generation hci)
    | some d => trivial
  | enqueuing eid generation data =>
    cases data with
    | none =>
      rw [hci] at hi
      exact hi.elim
    | some d => trivial
  | _ => trivial

/-- One client moves. -/
theorem NullSafe.setClient (h : NullSafe s) {i : Fin r} {c : Client} (hc : c.NullSafe s) : NullSafe (s.setClient i c) := by
  refine ⟨fun j => ?_, h.crashed⟩
  change Client.NullSafe s (Function.update s.clients i c j)
  rcases eq_or_ne j i with rfl | hj
  · rw [Function.update_self]
    exact hc
  · rw [Function.update_of_ne hj]
    exact h.clients j

/-- A step that changes neither the clients nor the records nor the state. -/
theorem NullSafe.same (h : NullSafe s) (hc : s'.clients = s.clients) (hx : s'.crashed = s.crashed)
    (hst : s'.state = s.state) (hr : s'.records = s.records) : NullSafe s' :=
  h.frame hc hx (fun hs => hst ▸ hs) fun _ _ _ _ hp => hr ▸ hp

/-- A record is cleared. -/
theorem NullSafe.cleared (h : NullSafe s) {eid : ℕ} (hc : s'.clients = s.clients) (hx : s'.crashed = s.crashed)
    (hst : s'.state = s.state) (hr : s'.records = Function.update s.records eid none)
    (hu : s.records eid ≠ none → ∀ i generation, s.clients i ≠ .holding eid generation none) : NullSafe s' := by
  refine h.frame hc hx (fun hs => hst ▸ hs) fun i e generation hi hp => ?_
  rw [hr]
  rcases eq_or_ne e eid with rfl | he
  · exact absurd hi (hu hp i generation)
  · rwa [Function.update_of_ne he]

theorem NullSafe.enqueueWrite (h : NullSafe s) {job : WriteJob} {generation : ℕ} {room : Bool} :
    NullSafe (s.enqueueWrite job generation room) := by
  unfold GState.enqueueWrite
  split_ifs
  · exact h.same rfl rfl rfl rfl
  · exact h

theorem nullSafe_holding_of_isSome {eid generation : ℕ} {data : Option Fetched} :
    Client.NullSafe s (if data.isSome then .holding eid generation data else .idle) := by
  cases data <;> trivial

theorem bypass_ne_filling {b : Bool} (h : s.state ≠ .filling) : (if b then State.bypass else s.state) ≠ .filling := by
  split_ifs
  · exact nofun
  · exact h

/-- **The step lemma.** -/
theorem NullSafe.step (h : NullSafe s) (hs : GStep R s s') (hu : Undisturbed s s') : NullSafe s' := by
  cases hs with
  | @start i eid hc he hn =>
    have h' := h.setClient (i := i) (c := .starter s.flights.length eid s.generation) trivial
    exact h'.same rfl rfl rfl rfl
  | join hc hf => exact h.setClient trivial
  | skip hc hs => exact h.setClient hs
  | issue hc => exact h.setClient trivial
  | returned hc => exact h.setClient trivial
  | failed hc => exact h.setClient trivial
  | publish hc => exact (h.setClient nullSafe_holding_of_isSome).same rfl rfl rfl rfl
  | wake hc hf hd => exact h.setClient nullSafe_holding_of_isSome
  | @wanted i eid generation data hc hs ha =>
    have hi := h.clients i
    rw [hc] at hi
    cases data with
    | none => exact absurd hi (not_or.mpr ⟨not_not.mpr hs, not_not.mpr ha⟩)
    | some d => exact h.setClient trivial
  | unwanted hc hs => exact h.setClient trivial
  | @enqueue i eid generation data room hc =>
    have h' := h.setClient (i := i) (c := .idle) trivial
    exact h'.enqueueWrite
  | @enqueueNull i eid generation hc =>
    have hi := h.clients i
    rw [hc] at hi
    exact hi.elim
  | @demote eid => exact h.cleared rfl rfl rfl rfl fun hp => hu eid (.demote hp rfl)
  | @clear eid hw => exact h.cleared rfl rfl rfl rfl fun hp => hu eid (.clear hp hw rfl)
  | @restartClear k hw hk => exact h.cleared rfl rfl rfl rfl fun hp => hu k (.restart hp hw rfl)
  | @fillEnqueue first stop generation next data room hf hn =>
    have h' : NullSafe { s with filler := .slicing first stop generation (next + 1) data } := h.same rfl rfl rfl rfl
    exact h'.enqueueWrite
  | storeFail hw hn => exact h.frame rfl rfl bypass_ne_filling fun _ _ _ _ hp => hp
  | recordFail hw => exact h.frame rfl rfl bypass_ne_filling fun _ _ _ _ hp => hp
  | clearFail hw => exact h.frame rfl rfl bypass_ne_filling fun _ _ _ _ hp => hp
  | @mark job full hw =>
    refine h.frame rfl rfl id fun _ e _ _ hp => ?_
    rcases eq_or_ne e job.eid with rfl | he
    · simp
    · simpa [Function.update_of_ne he] using hp
  | verified hw => exact h.frame rfl rfl (fun _ => nofun) fun _ _ _ _ hp => hp
  | abandon hw => exact h.frame rfl rfl (fun _ => nofun) fun _ _ _ _ hp => hp
  | restartFail hw => exact h.frame rfl rfl (fun _ => nofun) fun _ _ _ _ hp => hp
  | _ => exact h.same rfl rfl rfl rfl

theorem GState.Opened.nullSafe (h : s.Opened) (hx : s.crashed = false) : NullSafe s := by
  refine ⟨fun i => ?_, hx⟩
  rw [h.clients i]
  trivial

/-- **A queued extent has its bytes.**  In every run of readers, populates, the fill and the writer, restarts included, in which
no record is cleared between the two looks of a populate at it: whoever stands in front of `enqueue_write` has a buffer of the
extent's length, the fill's window lies inside its buffer, and the process is alive. -/
theorem enqueue_has_data (R : Remote) {s₀ s : GState r} (h₀ : s₀.Opened) (hx : s₀.crashed = false)
    (hrun : Relation.ReflTransGen (fun s s' => GNext R s s' ∧ Undisturbed s s') s₀ s) :
    (∀ i eid generation data, s.clients i = .enqueuing eid generation data →
      ∃ d, data = some d ∧ d.len = R.extentLen eid) ∧
    (∀ first stop generation next data, s.filler = .slicing first stop generation next data → next < stop →
      next * R.extentSize - first * R.extentSize + R.extentLen next ≤ data.len) ∧
    s.crashed = false := by
  have hi : Isolated R s := invariant hrun (h₀.isolated R) fun _ _ hi hs => hi.step hs.1.2
  have hn : NullSafe s := invariant hrun (h₀.nullSafe hx) fun _ _ hi hs => hi.step hs.1.2 hs.2
  refine ⟨fun i eid generation data hc => ?_, fun first stop generation next data hf hnext => ?_, hn.crashed⟩
  · have hsafe := hn.clients i
    have hok := hi.clients i
    rw [hc] at hsafe hok
    cases data with
    | none => exact hsafe.elim
    | some d =>
      obtain ⟨⟨issued, returned, rfl⟩, -⟩ := hok d rfl
      exact ⟨_, rfl, rfl⟩
  · have hok := hi.filler
    rw [hf] at hok
    obtain ⟨hstop, hle, ⟨issued, returned, rfl⟩, -⟩ := hok
    exact (R.window_le hle hnext hstop).2

/-- A store of the one extent, freshly created, with a populate and a reader. -/
def populateStore : GState 2 := { freshStore with clients := fun _ => .idle }

theorem populateStore_opened : populateStore.Opened := ⟨fun _ => rfl, rfl, rfl, rfl, .inl rfl, rfl⟩

/-- The populate fetches the extent itself. -/
theorem enqueue_has_data_fetched : ∃ s, Relation.ReflTransGen (fun s s' => GNext tinyRemote s s' ∧ Undisturbed s s') populateStore s ∧
    ∃ d, s.clients 0 = .enqueuing 0 0 (some d) ∧ d.len = 4 := by
  have hquiet : ∀ {s s' : GState 2}, s.records = (fun _ => none) → Undisturbed s s' := by
    intro s s' hr eid hc
    cases hc with
    | demote hp => exact absurd (congrFun hr eid) hp
    | clear hp => exact absurd (congrFun hr eid) hp
    | restart hp => exact absurd (congrFun hr eid) hp
  have h₁ : Relation.ReflTransGen (fun s s' => GNext tinyRemote s s' ∧ Undisturbed s s') populateStore _ :=
    .single ⟨⟨rfl, .start (i := 0) (R := tinyRemote) (s := populateStore) rfl (show 0 < tinyRemote.extentCount by decide) rfl⟩,
      hquiet rfl⟩
  have h₂ := h₁.tail ⟨⟨rfl, .issue (i := 0) rfl⟩, hquiet rfl⟩
  have h₃ := h₂.tail ⟨⟨rfl, .returned (i := 0) rfl⟩, hquiet rfl⟩
  have h₄ := h₃.tail ⟨⟨rfl, .publish (i := 0) rfl⟩, hquiet rfl⟩
  have h₅ := h₄.tail ⟨⟨rfl, .wanted (i := 0) rfl rfl rfl⟩, hquiet rfl⟩
  obtain ⟨hdata, -, -⟩ := enqueue_has_data tinyRemote populateStore_opened rfl h₅
  obtain ⟨d, hd, hlen⟩ := hdata 0 0 0 _ rfl
  exact ⟨_, h₅, d, hd ▸ rfl, hlen⟩

/-- **A null pointer is queued.**  The populate, client 0, finds the extent absent and waits for its admission.  The reader,
client 1, fetches the extent, and the writer makes it present; the populate is admitted and is told so.  Now the record is
cleared, once because the digest of the layer does not agree and it is restarted, once because the bytes on disk do not agree
with their CRC: the populate finds the extent absent and queues it without bytes. -/
theorem populate_enqueues_null :
    (populateStore.clients 0 = .idle ∧ populateStore.state = .filling ∧ populateStore.records 0 = none) ∧
    (∃ s s' : GState 2, Relation.ReflTransGen (GNext tinyRemote) populateStore s ∧ s.generation = 1 ∧
      s.clients 0 = .enqueuing 0 0 none ∧ GNext tinyRemote s s' ∧ s'.crashed = true) ∧
    ∃ s s' : GState 2, Relation.ReflTransGen (GNext tinyRemote) populateStore s ∧ s.generation = 0 ∧
      s.clients 0 = .enqueuing 0 0 none ∧ GNext tinyRemote s s' ∧ s'.crashed = true := by
  have h₁ : Relation.ReflTransGen (GNext tinyRemote) populateStore _ :=
    .single ⟨rfl, .start (i := 1) (R := tinyRemote) (s := populateStore) rfl (show 0 < tinyRemote.extentCount by decide) rfl⟩
  have h₂ := h₁.tail ⟨rfl, .issue (i := 1) rfl⟩
  have h₃ := h₂.tail ⟨rfl, .returned (i := 1) rfl⟩
  have h₄ := h₃.tail ⟨rfl, .publish (i := 1) rfl⟩
  have h₅ := h₄.tail ⟨rfl, .wanted (i := 1) rfl rfl rfl⟩
  have h₆ := h₅.tail ⟨rfl, @GStep.enqueue 2 tinyRemote _ 1 _ _ _ true rfl⟩
  have h₇ := h₆.tail ⟨rfl, .popWrite rfl rfl⟩
  have h₈ := h₇.tail ⟨rfl, .store rfl⟩
  have h₉ := h₈.tail ⟨rfl, .record rfl⟩
  have h₁₀ := h₉.tail ⟨rfl, @GStep.mark 2 tinyRemote _ _ true rfl⟩
  have h₁₁ := h₁₀.tail ⟨rfl, @GStep.skip 2 tinyRemote _ 0 0 rfl (.inr nofun)⟩
  refine ⟨⟨rfl, rfl, rfl⟩, ?_, ?_⟩
  · have hr₁ := h₁₁.tail ⟨rfl, .restart rfl⟩
    have hr₂ := hr₁.tail ⟨rfl, .restartClear rfl (by decide)⟩
    have hr₃ := hr₂.tail ⟨rfl, .wanted (i := 0) rfl rfl rfl⟩
    exact ⟨_, _, hr₃, rfl, rfl, ⟨rfl, .enqueueNull (i := 0) rfl⟩, rfl⟩
  · have hd₁ := h₁₁.tail ⟨rfl, @GStep.demote 2 tinyRemote _ 0⟩
    have hd₂ := hd₁.tail ⟨rfl, .wanted (i := 0) rfl rfl rfl⟩
    exact ⟨_, _, hd₂, rfl, rfl, ⟨rfl, .enqueueNull (i := 0) rfl⟩, rfl⟩

end OverlayBD.LayerStore
