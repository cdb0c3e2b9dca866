import OverlayBD.Lib.Intervals
import Mathlib.Data.List.Chain

/-!
# Packed runs

A finite map from positions to kinds is written down as a list of runs, each at most `cap` positions long.  Among the
lists that say the same there is one that fills every run it could still fill.  Lists of this form are determined by what
they say, whatever history built them.

## The model

* `Packed cap k l` — ordered, proper runs of at most `cap` positions, where a run is full whenever the next one continues
  it with the same kind.

## What is proved

* `Packed.concat`, `Packed.stretch` — the two ways a packed list grows at its end.
* `Packed.unique` — packed lists that say the same are the same, up to what the kind does not tell.
-/

namespace Intervals

variable {α γ κ : Type*} [Interval α] [Interval γ]

/-- The second run continues the first with the same kind. -/
def Adjoining (k : α → κ) (s t : α) : Prop := hi s = lo t ∧ k s = k t

/-- **Packed runs**: a run that is continued is full. -/
structure Packed (cap : ℕ) (k : α → κ) (l : List α) : Prop where
  ordered : Ordered l
  proper : Proper l
  short : ∀ s ∈ l, hi s ≤ lo s + cap
  full : l.IsChain fun s t => Adjoining k s t → hi s = lo s + cap

variable {cap : ℕ} {k : α → κ} {k' : γ → κ} {l : List α} {l' : List γ} {s t : α} {s' : γ}

theorem Packed.tail (h : Packed cap k (s :: l)) : Packed cap k l where
  ordered := h.ordered.tail
  proper t ht := h.proper t (List.mem_cons_of_mem _ ht)
  short t ht := h.short t (List.mem_cons_of_mem _ ht)
  full := h.full.tail

theorem Packed.init (h : Packed cap k (l ++ [s])) : Packed cap k l where
  ordered := h.ordered.sublist (List.sublist_append_left _ _)
  proper t ht := h.proper t (List.mem_append_left _ ht)
  short t ht := h.short t (List.mem_append_left _ ht)
  full := (List.isChain_append.mp h.full).1

/-! ### Growing at the end -/

/-- A run behind all others that continues none, or only a full one. -/
theorem Packed.concat (h : Packed cap k l) (hlo : ∀ t ∈ l, hi t ≤ lo s) (hs : lo s < hi s) (hcap : hi s ≤ lo s + cap)
    (hfull : ∀ t ∈ l.getLast?, Adjoining k t s → hi t = lo t + cap) : Packed cap k (l ++ [s]) where
  ordered := h.ordered.concat hlo
  proper := forall_mem_concat.mpr ⟨h.proper, hs⟩
  short := forall_mem_concat.mpr ⟨h.short, hcap⟩
  full := List.isChain_append.mpr ⟨h.full, .singleton s, by simpa using hfull⟩

/-- The last run made longer. -/
theorem Packed.stretch (h : Packed cap k (l ++ [s])) (hlo : lo t = lo s) (hk : k t = k s) (hlt : hi s ≤ hi t)
    (hcap : hi t ≤ lo t + cap) : Packed cap k (l ++ [t]) := by
  have hlast := (List.isChain_append.mp h.full).2.2
  refine h.init.concat (fun r hr => ?_) ?_ hcap fun r hr hcont => ?_
  · rw [hlo]
    exact (ordered_append.mp h.ordered).2.2 r hr s (List.mem_singleton_self s)
  · rw [hlo]
    exact (h.proper s (by simp)).trans_le hlt
  · exact hlast r hr s rfl ⟨hcont.1.trans hlo, hcont.2.trans hk⟩

/-! ### Packed lists are determined by what they say -/

/-- What the head says of its own first position. -/
theorem lookup_lo (hs : lo s < hi s) : lookup (fun r _ => k r) (s :: l) (lo s) = some (k s) :=
  lookup_cons_of_covers ⟨le_rfl, hs⟩

/-- A packed list whose head ends before `x`, of the head's kind up to `x`, has a full head. -/
theorem Packed.head_full (h : Packed cap k (s :: l)) (hx : lookup (fun r _ => k r) l (hi s) = some (k s)) :
    hi s = lo s + cap := by
  cases l with
  | nil => simp at hx
  | cons t l =>
    have hst := h.ordered.head_le (t := t) List.mem_cons_self
    rcases hst.eq_or_lt with heq | hlt
    · refine (List.isChain_cons_cons.mp h.full).1 ⟨heq, ?_⟩
      rw [heq, lookup_lo (h.proper t (by simp))] at hx
      exact (Option.some.inj hx).symm
    · rw [h.tail.ordered.lookup_lt_head (h.tail.proper _ List.mem_cons_self).le hlt] at hx
      exact nomatch hx

/-- The ends of two heads that begin together cannot differ. -/
theorem Packed.head_le (h : Packed cap k (s :: l)) (h' : Packed cap k' (s' :: l')) (hlo : lo s = lo s') (hk : k s = k' s')
    (heq : ∀ x, lookup (fun r _ => k r) (s :: l) x = lookup (fun r _ => k' r) (s' :: l') x) : hi s' ≤ hi s := by
  by_contra hlt
  have hps := h.proper s List.mem_cons_self
  have hsame := heq (hi s)
  rw [lookup_cons_of_not (fun hc => absurd hc.2 (by omega)), lookup_cons_of_covers ⟨by omega, by omega⟩, ← hk] at hsame
  have hfull := h.head_full hsame
  have hshort := h'.short s' List.mem_cons_self
  omega

/-- **Packed lists that say the same are the same.** -/
theorem Packed.unique (h : Packed cap k l) (h' : Packed cap k' l')
    (heq : ∀ x, lookup (fun r _ => k r) l x = lookup (fun r _ => k' r) l' x) :
    l.map (fun r => (lo r, hi r, k r)) = l'.map fun r => (lo r, hi r, k' r) := by
  induction l generalizing l' with
  | nil =>
    cases l' with
    | nil => rfl
    | cons s' l' =>
      have := heq (lo s')
      rw [lookup_lo (h'.proper s' List.mem_cons_self)] at this
      exact nomatch this
  | cons s l ih =>
    cases l' with
    | nil =>
      have := heq (lo s)
      rw [lookup_lo (h.proper s List.mem_cons_self)] at this
      exact nomatch this
    | cons s' l' =>
      have hps := h.proper s List.mem_cons_self
      have hps' := h'.proper s' List.mem_cons_self
      have hlo : lo s = lo s' := by
        rcases lt_trichotomy (lo s) (lo s') with hlt | heq' | hlt
        · have := heq (lo s)
          rw [lookup_lo hps, h'.ordered.lookup_lt_head hps'.le hlt] at this
          exact nomatch this
        · exact heq'
        · have := heq (lo s')
          rw [lookup_lo hps', h.ordered.lookup_lt_head hps.le hlt] at this
          exact nomatch this
      have hk : k s = k' s' := by
        have := heq (lo s)
        rw [lookup_lo hps, hlo, lookup_lo hps'] at this
        exact Option.some.inj this
      have hhi : hi s = hi s' :=
        le_antisymm (h'.head_le h hlo.symm hk.symm fun x => (heq x).symm) (h.head_le h' hlo hk heq)
      have htail : ∀ x, lookup (fun r _ => k r) l x = lookup (fun r _ => k' r) l' x := by
        intro x
        by_cases hx : x < hi s
        · rw [lookup_none_of_lt (fun r hr => h.ordered.head_le hr) hx,
            lookup_none_of_lt (fun r hr => h'.ordered.head_le hr) (hhi ▸ hx)]
        · have := heq x
          rwa [lookup_cons_of_not (fun hc => hx hc.2), lookup_cons_of_not (fun hc => hx (hhi ▸ hc.2))] at this
      rw [List.map_cons, List.map_cons, ih h.tail h'.tail htail, hlo, hhi, hk]

end Intervals
