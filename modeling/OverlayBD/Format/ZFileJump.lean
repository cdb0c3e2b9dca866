import Mathlib.Algebra.BigOperators.Group.List.Basic
import OverlayBD.Format.ZFile

/-!
# What the jump table holds

* `exists_two_pow` — the bit test accepts powers of two only, so the mask of `operator[]` is a remainder.
* `Built` — the invariant of `build`: bases at the group boundaries, deltas inside a group.
* `build_spec` — a table that was built answers every block number up to the count with the sum of the sizes before
  it, and no other.
* `build_ok_iff` — it is built exactly if every block is longer than its checksum and the sizes inside a group, its
  last one left out, stay below `65535`.
* `jump_table_prefix_sum` — both, in the terms of the sizes.
-/

namespace OverlayBD.ZFile

open Bytes Errno

/-! ### Powers of two -/

/-- **The bit test.** -/
theorem exists_two_pow : ∀ {n : ℕ}, n ≠ 0 → n &&& (n - 1) = 0 → ∃ k, n = 2 ^ k := by
  intro n
  induction n using Nat.strong_induction_on with
  | _ n ih =>
    intro h0 h
    rcases Nat.even_or_odd' n with ⟨m, rfl | rfl⟩
    · have hm : m ≠ 0 := by omega
      have hhalf : m &&& (m - 1) = 0 := by
        have hdiv : (2 * m &&& (2 * m - 1)) / 2 = m &&& (m - 1) := by
          rw [Nat.and_div_two, Nat.mul_div_cancel_left _ (by decide)]
          congr 1
          omega
        rw [← hdiv, h]
      obtain ⟨k, hk⟩ := ih m (by omega) hm hhalf
      exact ⟨k + 1, by rw [hk, Nat.pow_succ, Nat.mul_comm]⟩
    · have hdiv : ((2 * m + 1) &&& (2 * m + 1 - 1)) / 2 = m := by
        rw [Nat.and_div_two, Nat.add_sub_cancel, Nat.mul_div_cancel_left _ (by decide),
          show (2 * m + 1) / 2 = m by omega, Nat.and_self]
      rw [h] at hdiv
      exact ⟨0, by omega⟩

/-- The group size of an accepted block size. -/
theorem groupSize_two_pow {bs : ℕ} (h : JumpTable.ValidBlockSize bs) : ∃ k, (kUinttypeMax + 1) / bs = 2 ^ k := by
  obtain ⟨h0, hle, hand⟩ := h
  obtain ⟨k, rfl⟩ := exists_two_pow h0 hand
  have hk : k ≤ 16 := by
    by_contra hk
    have := Nat.pow_le_pow_right Nat.two_pos (show 17 ≤ k by omega)
    omega
  exact ⟨16 - k, Nat.pow_div hk Nat.two_pos⟩

namespace JumpTable

theorem groupSize_pos {bs : ℕ} (h : ValidBlockSize bs) : 0 < (kUinttypeMax + 1) / bs := by
  obtain ⟨k, hk⟩ := groupSize_two_pow h
  rw [hk]
  exact Nat.two_pow_pos k

/-! ### The table -/

/-- Offset of block `idx`: the sizes before it, behind `start`. -/
def offsetOf (start : ℕ) (sizes : List ℕ) (idx : ℕ) : ℕ := start + (sizes.take idx).sum

@[simp] theorem offsetOf_zero (start : ℕ) (sizes : List ℕ) : offsetOf start sizes 0 = start := by
  simp [offsetOf]

theorem offsetOf_succ (start : ℕ) (sizes : List ℕ) (i : ℕ) :
    offsetOf start sizes (i + 1) = offsetOf start sizes i + sizes.getD i 0 := by
  unfold offsetOf
  rcases Nat.lt_or_ge i sizes.length with h | h
  · rw [List.sum_take_succ _ _ h, List.getD_eq_getElem _ _ h, Nat.add_assoc]
  · rw [List.take_of_length_le h, List.take_of_length_le (h.trans (Nat.le_succ i)), List.getD_eq_default _ _ h,
      Nat.add_zero]

theorem offsetOf_mono (start : ℕ) (sizes : List ℕ) {i j : ℕ} (h : i ≤ j) :
    offsetOf start sizes i ≤ offsetOf start sizes j :=
  monotone_nat_of_le_succ (fun k => (offsetOf_succ start sizes k).symm ▸ Nat.le_add_right _ _) h

/-- The first block of the group of `idx`. -/
def groupStart (group idx : ℕ) : ℕ := idx / group * group

theorem groupStart_le (group idx : ℕ) : groupStart group idx ≤ idx := Nat.div_mul_le_self idx group

theorem groupStart_of_mod_eq_zero {group idx : ℕ} (h : idx % group = 0) : groupStart group idx = idx :=
  Nat.div_mul_cancel (Nat.dvd_of_mod_eq_zero h)

/-- The blocks before the last one of a group lie in the group of their successor. -/
theorem groupStart_succ {group i : ℕ} (h : (i + 1) % group ≠ 0) : groupStart group (i + 1) = groupStart group i := by
  unfold groupStart
  rw [Nat.succ_div_of_not_dvd fun hd => h (Nat.mod_eq_zero_of_dvd hd)]

/-- **The table of a list of sizes**: a base for every group that has begun, a delta for every block. -/
structure Built (start : ℕ) (sizes : List ℕ) (t : JumpTable) : Prop where
  parts_length : t.partialOffset.length = sizes.length / t.groupSize + 1
  parts : ∀ j, j ≤ sizes.length / t.groupSize →
    t.partialOffset[j]? = some (offsetOf start sizes (j * t.groupSize))
  deltas_length : t.deltas.length = sizes.length + 1
  deltas : ∀ k, k ≤ sizes.length →
    t.deltas[k]? = some (offsetOf start sizes k - offsetOf start sizes (groupStart t.groupSize k))

/-- The size of block `sizes.length` changes no earlier offset. -/
theorem offsetOf_append (start : ℕ) (sizes : List ℕ) (e : ℕ) {k : ℕ} (h : k ≤ sizes.length) :
    offsetOf start (sizes ++ [e]) k = offsetOf start sizes k := by
  unfold offsetOf
  rw [List.take_append_of_le_length h]

theorem offsetOf_append_length (start : ℕ) (sizes : List ℕ) (e : ℕ) :
    offsetOf start (sizes ++ [e]) (sizes.length + 1) = offsetOf start sizes sizes.length + e := by
  unfold offsetOf
  rw [List.take_of_length_le (by simp), List.take_length, List.sum_append, List.sum_singleton, Nat.add_assoc]

/-- The entry pushed for a new block. -/
theorem getElem?_append_new {l : List ℕ} {n v k w : ℕ} (hl : l.length = n) (hk : k ≤ n)
    (hold : k < n → l[k]? = some w) (hnew : k = n → v = w) : (l ++ [v])[k]? = some w := by
  rcases Nat.lt_or_eq_of_le hk with hlt | heq
  · rw [List.getElem?_append_left (hl ▸ hlt), hold hlt]
  · rw [heq, ← hl, List.getElem?_concat_length, hnew heq]

section Build

variable {group start : ℕ} {sizes parts deltas : List ℕ}

/-- **A block that opens a group.** -/
theorem Built.push_base (h : Built start sizes ⟨group, parts, deltas⟩) (e : ℕ)
    (hi : (sizes.length + 1) % group = 0) :
    Built start (sizes ++ [e])
      ⟨group, parts ++ [offsetOf start sizes sizes.length + e], deltas ++ [0]⟩ := by
  have hdiv : (sizes.length + 1) / group = sizes.length / group + 1 :=
    Nat.succ_div_of_dvd (Nat.dvd_of_mod_eq_zero hi)
  have hlast : (sizes.length / group + 1) * group = sizes.length + 1 := by
    rw [← hdiv, Nat.div_mul_cancel (Nat.dvd_of_mod_eq_zero hi)]
  refine ⟨?_, fun j hj => ?_, ?_, fun k hk => ?_⟩
  · have := h.parts_length
    simp_all
  · simp only [List.length_append, List.length_singleton] at hj
    refine getElem?_append_new h.parts_length (hdiv ▸ hj) (fun hlt => ?_) fun heq => ?_
    · have hj' : j ≤ sizes.length / group := Nat.lt_succ_iff.mp hlt
      rw [h.parts j hj', offsetOf_append]
      exact (Nat.mul_le_mul_right group hj').trans (Nat.div_mul_le_self _ _)
    · show _ = offsetOf start (sizes ++ [e]) (j * group)
      rw [heq, hlast, offsetOf_append_length]
  · have := h.deltas_length
    simp_all
  · simp only [List.length_append, List.length_singleton] at hk
    refine getElem?_append_new h.deltas_length hk (fun hlt => ?_) fun heq => ?_
    · rw [h.deltas k (by omega), offsetOf_append _ _ _ (by omega),
        offsetOf_append _ _ _ ((groupStart_le _ _).trans (by omega))]
    · show 0 = offsetOf start (sizes ++ [e]) k - offsetOf start (sizes ++ [e]) (groupStart group k)
      rw [heq, groupStart_of_mod_eq_zero hi, Nat.sub_self]

/-- **A block inside its group.** -/
theorem Built.push_delta (h : Built start sizes ⟨group, parts, deltas⟩) (e : ℕ)
    (hi : (sizes.length + 1) % group ≠ 0) :
    Built start (sizes ++ [e])
      ⟨group, parts, deltas ++ [offsetOf start sizes sizes.length
        - offsetOf start sizes (groupStart group sizes.length) + e]⟩ := by
  have hdiv : (sizes.length + 1) / group = sizes.length / group :=
    Nat.succ_div_of_not_dvd fun hd => hi (Nat.mod_eq_zero_of_dvd hd)
  refine ⟨?_, fun j hj => ?_, ?_, fun k hk => ?_⟩
  · have := h.parts_length
    simp_all
  · simp only [List.length_append, List.length_singleton, hdiv] at hj
    rw [h.parts j hj, offsetOf_append]
    exact (Nat.mul_le_mul_right group hj).trans (Nat.div_mul_le_self _ _)
  · have := h.deltas_length
    simp_all
  · simp only [List.length_append, List.length_singleton] at hk
    refine getElem?_append_new h.deltas_length hk (fun hlt => ?_) fun heq => ?_
    · rw [h.deltas k (by omega), offsetOf_append _ _ _ (by omega),
        offsetOf_append _ _ _ ((groupStart_le _ _).trans (by omega))]
    · have hle := offsetOf_mono start sizes (groupStart_le group sizes.length)
      show _ = offsetOf start (sizes ++ [e]) k - offsetOf start (sizes ++ [e]) (groupStart group k)
      rw [heq, groupStart_succ hi, offsetOf_append_length, offsetOf_append _ _ _ (groupStart_le _ _)]
      omega

end Build

/-- Block `i` is longer than its checksum, and unless it is the last of its group the sizes of the group up to it stay
below the largest delta. -/
structure Fits (group minBlksize : ℕ) (sizes : List ℕ) (i : ℕ) : Prop where
  size : minBlksize < sizes.getD i 0
  delta : (i + 1) % group ≠ 0 →
    offsetOf 0 sizes (i + 1) - offsetOf 0 sizes (groupStart group (i + 1)) < kUinttypeMax

theorem offsetOf_eq_add (start : ℕ) (sizes : List ℕ) (i : ℕ) : offsetOf start sizes i = start + offsetOf 0 sizes i := by
  simp [offsetOf]

/-- What the loop tests for the next entry. -/
theorem fits_next_iff (group minBlksize start : ℕ) (sizes : List ℕ) (e : ℕ) (rest : List ℕ) :
    Fits group minBlksize (sizes ++ e :: rest) sizes.length ↔
      minBlksize < e ∧ ((sizes.length + 1) % group ≠ 0 →
        offsetOf start sizes sizes.length - offsetOf start sizes (groupStart group sizes.length) + e
          < kUinttypeMax) := by
  have hsize : (sizes ++ e :: rest).getD sizes.length 0 = e := by simp
  have hnext : offsetOf 0 (sizes ++ e :: rest) (sizes.length + 1) = offsetOf 0 sizes sizes.length + e := by
    simp [offsetOf, List.take_append, List.take_of_length_le (Nat.le_succ _)]
  have hprev : ∀ k, k ≤ sizes.length → offsetOf 0 (sizes ++ e :: rest) k = offsetOf 0 sizes k := by
    intro k hk
    unfold offsetOf
    rw [List.take_append_of_le_length hk]
  have hle := offsetOf_mono 0 sizes (groupStart_le group sizes.length)
  have hsub : offsetOf start sizes sizes.length - offsetOf start sizes (groupStart group sizes.length)
      = offsetOf 0 sizes sizes.length - offsetOf 0 sizes (groupStart group sizes.length) := by
    rw [offsetOf_eq_add start, offsetOf_eq_add start]
    omega
  constructor
  · rintro ⟨hmin, hdelta⟩
    refine ⟨hsize ▸ hmin, fun hi => ?_⟩
    have := hdelta hi
    rw [groupStart_succ hi, hnext, hprev _ (groupStart_le _ _)] at this
    omega
  · rintro ⟨hmin, hdelta⟩
    refine ⟨hsize.symm ▸ hmin, fun hi => ?_⟩
    have := hdelta hi
    rw [groupStart_succ hi, hnext, hprev _ (groupStart_le _ _)]
    omega

/-- What comes of the entries `rest` behind `sizes`: the table of them all, or one that does not fit. -/
def Outcome (group minBlksize start : ℕ) (sizes rest : List ℕ) : Except ℤ JumpTable → Prop
  | .ok t => t.groupSize = group ∧ Built start (sizes ++ rest) t ∧
      ∀ i, sizes.length ≤ i → i < (sizes ++ rest).length → Fits group minBlksize (sizes ++ rest) i
  | .error _ => ∃ i, i < (sizes ++ rest).length ∧ ¬ Fits group minBlksize (sizes ++ rest) i

theorem Outcome.cons {group minBlksize start : ℕ} {sizes rest : List ℕ} {e : ℕ} {r : Except ℤ JumpTable}
    (hfits : Fits group minBlksize (sizes ++ e :: rest) sizes.length)
    (h : Outcome group minBlksize start (sizes ++ [e]) rest r) :
    Outcome group minBlksize start sizes (e :: rest) r := by
  have happ : sizes ++ [e] ++ rest = sizes ++ e :: rest := by simp
  cases r with
  | error x =>
    obtain ⟨i, hi, hno⟩ := h
    exact ⟨i, happ ▸ hi, happ ▸ hno⟩
  | ok t =>
    obtain ⟨hgroup, hbuilt, hall⟩ := h
    refine ⟨hgroup, happ ▸ hbuilt, fun i hle hlt => ?_⟩
    rcases Nat.lt_or_eq_of_le hle with hgt | rfl
    · have := hall i (by rw [List.length_append]; exact hgt) (happ ▸ hlt)
      rwa [happ] at this
    · exact hfits

/-- **The loop.**  It goes through every entry if they all fit, and stops at one that does not. -/
theorem buildLoop_spec {group start : ℕ} (minBlksize : ℕ) (rest : List ℕ) :
    ∀ {sizes parts deltas : List ℕ}, Built start sizes ⟨group, parts, deltas⟩ →
      Outcome group minBlksize start sizes rest
        (buildLoop group minBlksize rest (sizes.length + 1) (offsetOf start sizes sizes.length)
          (offsetOf start sizes sizes.length - offsetOf start sizes (groupStart group sizes.length)) parts deltas) := by
  induction rest with
  | nil =>
    intro sizes parts deltas h
    exact ⟨rfl, by rwa [List.append_nil], fun i hi hlt => absurd hlt (by simpa using hi)⟩
  | cons e rest ih =>
    intro sizes parts deltas h
    have hlt : sizes.length < (sizes ++ e :: rest).length := by simp
    have hfits := fits_next_iff group minBlksize start sizes e rest
    have hlen : (sizes ++ [e]).length = sizes.length + 1 := by simp
    have hnext := offsetOf_append_length start sizes e
    rw [buildLoop]
    split_ifs with hmin hbase hbig
    · exact ⟨_, hlt, fun hf => absurd (hfits.mp hf).1 (by omega)⟩
    · refine Outcome.cons (hfits.mpr ⟨by omega, fun hi => absurd hbase hi⟩) ?_
      have := ih (h.push_base e hbase)
      rwa [hlen, hnext, groupStart_of_mod_eq_zero hbase, hnext, Nat.sub_self] at this
    · exact ⟨_, hlt, fun hf => absurd ((hfits.mp hf).2 hbase) (by omega)⟩
    · refine Outcome.cons (hfits.mpr ⟨by omega, fun _ => by omega⟩) ?_
      have := ih (h.push_delta e hbase)
      have hle := offsetOf_mono start sizes (groupStart_le group sizes.length)
      rw [hlen, hnext, groupStart_succ hbase, offsetOf_append _ _ _ (groupStart_le _ _)] at this
      convert this using 2
      omega

/-- The table before the first entry. -/
theorem built_nil (group start : ℕ) : Built start [] ⟨group, [start], [0]⟩ := by
  refine ⟨by simp, fun j hj => ?_, rfl, fun k hk => ?_⟩
  · obtain rfl : j = 0 := by simpa using hj
    simp
  · obtain rfl : k = 0 := by simpa using hk
    simp [groupStart]

theorem build_outcome (ibuf : List ℕ) (start : ℕ) (crc : Bool) {bs : ℕ} (h : ValidBlockSize bs) :
    Outcome ((kUinttypeMax + 1) / bs) (if crc then 4 else 0) start [] ibuf (build ibuf start bs crc) := by
  have := buildLoop_spec (if crc then 4 else 0) ibuf (built_nil ((kUinttypeMax + 1) / bs) start)
  rw [build, if_neg (not_not.mpr h)]
  simpa [groupStart] using this

/-- **What a built table answers.** -/
theorem Built.get {start : ℕ} {sizes : List ℕ} {t : JumpTable} (h : Built start sizes t)
    (hg : ∃ k, t.groupSize = 2 ^ k) (idx : ℕ) :
    t.get idx = if idx ≤ sizes.length then some (offsetOf start sizes idx) else none := by
  obtain ⟨k, hk⟩ := hg
  have hmask : idx &&& (t.groupSize - 1) = idx % t.groupSize := by rw [hk, Nat.and_two_pow_sub_one_eq_mod]
  rw [JumpTable.get, hmask]
  by_cases hle : idx ≤ sizes.length
  · rw [if_pos hle, h.parts _ (Nat.div_le_div_right hle), Option.bind_some]
    by_cases hinner : idx % t.groupSize = 0
    · rw [if_pos hinner, Nat.div_mul_cancel (Nat.dvd_of_mod_eq_zero hinner)]
    · have hmono := offsetOf_mono start sizes (groupStart_le t.groupSize idx)
      rw [if_neg hinner, h.deltas _ hle, Option.map_some]
      unfold groupStart at hmono ⊢
      exact congrArg some (by omega)
  · rw [if_neg hle]
    by_cases hinner : idx % t.groupSize = 0
    · -- a base behind the last group: the number of groups grows with every multiple of the group size
      have hpos : 0 < t.groupSize := hk ▸ Nat.two_pow_pos k
      have hgroups : sizes.length / t.groupSize < idx / t.groupSize := by
        rw [Nat.div_lt_iff_lt_mul hpos, Nat.div_mul_cancel (Nat.dvd_of_mod_eq_zero hinner)]
        omega
      rw [List.getElem?_eq_none (by rw [h.parts_length]; omega), Option.bind_none]
    · have hnone : t.deltas[idx]? = none := List.getElem?_eq_none (by rw [h.deltas_length]; omega)
      cases t.partialOffset[idx / t.groupSize]? with
      | none => rfl
      | some part => rw [Option.bind_some, if_neg hinner, hnone, Option.map_none]

/-- **What `build` answers.** -/
theorem build_spec {ibuf : List ℕ} {start bs : ℕ} {crc : Bool} {t : JumpTable} (h : build ibuf start bs crc = .ok t) :
    ValidBlockSize bs ∧ (∀ i, i < ibuf.length → Fits ((kUinttypeMax + 1) / bs) (if crc then 4 else 0) ibuf i) ∧
      ∀ idx, t.get idx = if idx ≤ ibuf.length then some (offsetOf start ibuf idx) else none := by
  by_cases hbs : ValidBlockSize bs
  · have hout := build_outcome ibuf start crc hbs
    rw [h] at hout
    obtain ⟨hgroup, hbuilt, hall⟩ := hout
    exact ⟨hbs, fun i hi => hall i (Nat.zero_le i) hi, hbuilt.get (hgroup ▸ groupSize_two_pow hbs)⟩
  · rw [build, if_pos hbs] at h
    cases h

/-- **When it succeeds.** -/
theorem build_ok_iff {ibuf : List ℕ} {start bs : ℕ} {crc : Bool} :
    (∃ t, build ibuf start bs crc = .ok t) ↔
      ValidBlockSize bs ∧ ∀ i, i < ibuf.length → Fits ((kUinttypeMax + 1) / bs) (if crc then 4 else 0) ibuf i := by
  constructor
  · rintro ⟨t, ht⟩
    exact ⟨(build_spec ht).1, (build_spec ht).2.1⟩
  · rintro ⟨hbs, hall⟩
    have hout := build_outcome ibuf start crc hbs
    cases hb : build ibuf start bs crc with
    | ok t => exact ⟨t, rfl⟩
    | error x =>
      rw [hb] at hout
      obtain ⟨i, hi, hno⟩ := hout
      exact absurd (hall i hi) hno

/-- **The table is a prefix sum.**  Whatever was built answers every block number, the one behind the last included, with
the start and the sizes before it; and it is built whenever every size exceeds the checksum and, away from the anchors,
the distance from the anchor stays below the largest delta. -/
theorem jump_table_prefix_sum (ibuf : List ℕ) (start bs : ℕ) (crc : Bool) :
    (∀ t, build ibuf start bs crc = .ok t → ∀ i ≤ ibuf.length, t.get i = some (start + (ibuf.take i).sum)) ∧
      (ValidBlockSize bs → (∀ e ∈ ibuf, (if crc then 4 else 0) < e) →
        (∀ i ≤ ibuf.length, i % ((kUinttypeMax + 1) / bs) ≠ 0 →
          (ibuf.take i).sum - (ibuf.take (i / ((kUinttypeMax + 1) / bs) * ((kUinttypeMax + 1) / bs))).sum < kUinttypeMax) →
        ∃ t, build ibuf start bs crc = .ok t) := by
  constructor
  · intro t ht i hi
    rw [(build_spec ht).2.2 i, if_pos hi, offsetOf]
  · intro hbs hmin hdelta
    refine build_ok_iff.mpr ⟨hbs, fun i hi => ⟨?_, fun hmod => ?_⟩⟩
    · rw [List.getD_eq_getElem _ _ hi]
      exact hmin _ (List.getElem_mem hi)
    · have := hdelta (i + 1) hi hmod
      simpa only [offsetOf, groupStart, Nat.zero_add] using this

/-- Five blocks in groups of two: the last group is opened by the sixth offset. -/
theorem jump_table_prefix_sum_five :
    ∃ t, build [10, 20, 30, 40, 50] 512 32768 true = .ok t ∧ t.get 5 = some (512 + 150) := by
  obtain ⟨hget, hok⟩ := jump_table_prefix_sum [10, 20, 30, 40, 50] 512 32768 true
  obtain ⟨t, ht⟩ := hok (by decide) (by decide) (by decide)
  exact ⟨t, ht, hget t ht 5 (by decide)⟩

end JumpTable

end OverlayBD.ZFile
