import Mathlib.Data.Finset.Card
import Mathlib.Data.Finset.Union
import Mathlib.Order.Bounds.Defs
import Mathlib.Order.Interval.Finset.Nat
import OverlayBD.Lib.Search

/-!
# The blocks of a file in an ext2 image (`tools/obd_convert_main.cpp`)

The converter budgets a file before it writes it: the data blocks, and the blocks of pointers through which they are
reached.  The budget is a closed form with nested ceilings; what it stands for is a tree.

## The model

* `regularFilePayloadBlocksForDataBlocks`, `maxExt2IBlocksDataBlocks` — the closed form, and the search for the largest
  file whose `i_blocks` does not overflow.
* `blockPath` — the pointers followed to a block of a file: its place in `i_block`, then one place in every block of
  pointers.
* `indirectBlocks` — the blocks of pointers on the way to the first `n` blocks, each named by the pointers that lead to it.

## What is proved

* `card_indirectBlocks` — how many there are, level by level.
* `payload_blocks_exact` — the closed form is the number of blocks of the tree; it is strictly increasing, and the search
  returns the largest file that fits.
-/

namespace OverlayBD.Ext2

/-- `kBlockSize`. -/
abbrev kBlockSize : ℕ := 4096

/-- `kExt2PointersPerBlock`. -/
abbrev kExt2PointersPerBlock : ℕ := kBlockSize / 4

/-- `kExt2SectorsPerBlock`. -/
abbrev kExt2SectorsPerBlock : ℕ := kBlockSize / 512

/-- `kMaxExt2IBlocksAllocationBlocks`. -/
abbrev kMaxExt2IBlocksAllocationBlocks : ℕ := (2 ^ 32 - 1) / kExt2SectorsPerBlock

/-- `kMaxExt2FileBlocks`. -/
abbrev kMaxExt2FileBlocks : ℕ :=
  12 + kExt2PointersPerBlock + kExt2PointersPerBlock * kExt2PointersPerBlock +
    kExt2PointersPerBlock * kExt2PointersPerBlock * kExt2PointersPerBlock

/-- `regular_file_payload_blocks_for_data_blocks`. -/
def regularFilePayloadBlocksForDataBlocks (dataBlocks : ℕ) : ℕ :=
  let total := dataBlocks
  if dataBlocks ≤ 12 then total
  else
    let dataBlocks := dataBlocks - 12
    let total := total + 1
    if dataBlocks ≤ kExt2PointersPerBlock then total
    else
      let dataBlocks := dataBlocks - kExt2PointersPerBlock
      let total := total + 1
      let doubleDataCapacity := kExt2PointersPerBlock * kExt2PointersPerBlock
      let doubleCovered := if dataBlocks < doubleDataCapacity then dataBlocks else doubleDataCapacity
      let total := total + (doubleCovered + kExt2PointersPerBlock - 1) / kExt2PointersPerBlock
      if dataBlocks ≤ doubleDataCapacity then total
      else
        let dataBlocks := dataBlocks - doubleDataCapacity
        let total := total + 1
        let total := total + (dataBlocks + doubleDataCapacity - 1) / doubleDataCapacity
        total + (dataBlocks + kExt2PointersPerBlock - 1) / kExt2PointersPerBlock

/-- `max_ext2_i_blocks_data_blocks`. -/
def maxExt2IBlocksDataBlocks : ℕ :=
  Search.lastTrue (fun mid => decide (regularFilePayloadBlocksForDataBlocks mid ≤ kMaxExt2IBlocksAllocationBlocks)) 0
    kMaxExt2FileBlocks

/-! ### The tree -/

/-- The pointers that lead to block `i` of a file: twelve direct ones, then through one, two and three blocks of pointers. -/
def blockPath (i : ℕ) : List ℕ :=
  if i < 12 then [i]
  else if i - 12 < 1024 then [12, i - 12]
  else if i - 12 - 1024 < 1024 * 1024 then
    let d := i - 12 - 1024
    [13, d / 1024, d % 1024]
  else
    let d := i - 12 - 1024 - 1024 * 1024
    [14, d / 1024 / 1024, d / 1024 % 1024, d % 1024]

/-- The blocks of pointers on a path: what a part of it leads to. -/
def onTheWay (path : List ℕ) : Finset (List ℕ) := (Finset.Ico 1 path.length).image path.take

/-- **The indirect blocks** of a file that has its first `n` blocks. -/
def indirectBlocks (n : ℕ) : Finset (List ℕ) := (Finset.range n).biUnion fun i => onTheWay (blockPath i)

theorem indirectBlocks_mono {m n : ℕ} (h : m ≤ n) : indirectBlocks m ⊆ indirectBlocks n :=
  Finset.biUnion_subset_biUnion_of_subset_left _ (Finset.range_subset_range.mpr h)

theorem onTheWay_one (a : ℕ) : onTheWay [a] = ∅ := rfl

theorem onTheWay_two (a b : ℕ) : onTheWay [a, b] = {[a]} := rfl

theorem onTheWay_three (a b c : ℕ) : onTheWay [a, b, c] = {[a], [a, b]} := by
  have h : Finset.Ico 1 3 = {1, 2} := rfl
  simp [onTheWay, h]

theorem onTheWay_four (a b c d : ℕ) : onTheWay [a, b, c, d] = {[a], [a, b], [a, b, c]} := by
  have h : Finset.Ico 1 4 = {1, 2, 3} := rfl
  simp [onTheWay, h]

/-- The data blocks in reach of the single, double and triple indirect pointer. -/
def singleCovered (n : ℕ) : ℕ := min (n - 12) 1024

@[inherit_doc singleCovered] def doubleCovered (n : ℕ) : ℕ := min (n - 12 - 1024) (1024 * 1024)

@[inherit_doc singleCovered] def tripleCovered (n : ℕ) : ℕ := n - 12 - 1024 - 1024 * 1024

/-- The blocks of pointers at one level are numbered from zero; the last one need not be full. -/
theorem lt_ceil_iff {c k q : ℕ} (hk : 0 < k) : q < (c + k - 1) / k ↔ q * k < c := by
  rw [Nat.lt_iff_add_one_le, Nat.le_div_iff_mul_le hk, Nat.add_mul, Nat.one_mul]
  omega

/-- **Which blocks there are.** -/
theorem mem_indirectBlocks {n : ℕ} {p : List ℕ} :
    p ∈ indirectBlocks n ↔ (0 < singleCovered n ∧ p = [12]) ∨ (0 < doubleCovered n ∧ p = [13]) ∨
      (∃ q < (doubleCovered n + 1024 - 1) / 1024, p = [13, q]) ∨ (0 < tripleCovered n ∧ p = [14]) ∨
      (∃ q < (tripleCovered n + 1024 * 1024 - 1) / (1024 * 1024), p = [14, q]) ∨
      ∃ q < (tripleCovered n + 1024 - 1) / 1024, p = [14, q / 1024, q % 1024] := by
  unfold indirectBlocks singleCovered doubleCovered tripleCovered
  rw [Finset.mem_biUnion]
  constructor
  · rintro ⟨i, hi, hp⟩
    rw [Finset.mem_range] at hi
    unfold blockPath at hp
    split_ifs at hp with h1 h2 h3
    · rw [onTheWay_one] at hp
      exact absurd hp (Finset.notMem_empty _)
    · rw [onTheWay_two, Finset.mem_singleton] at hp
      exact .inl ⟨by omega, hp⟩
    · rw [onTheWay_three, Finset.mem_insert, Finset.mem_singleton] at hp
      rcases hp with hp | hp
      · exact .inr (.inl ⟨by omega, hp⟩)
      · exact .inr (.inr (.inl ⟨_, by omega, hp⟩))
    · rw [onTheWay_four, Finset.mem_insert, Finset.mem_insert, Finset.mem_singleton] at hp
      rcases hp with hp | hp | hp
      · exact .inr (.inr (.inr (.inl ⟨by omega, hp⟩)))
      · exact .inr (.inr (.inr (.inr (.inl ⟨_, by omega, hp⟩))))
      · exact .inr (.inr (.inr (.inr (.inr ⟨(i - 12 - 1024 - 1024 * 1024) / 1024, by omega, hp⟩))))
  · -- each is on the way to the first data block behind it
    rintro (⟨hc, rfl⟩ | ⟨hc, rfl⟩ | ⟨q, hq, rfl⟩ | ⟨hc, rfl⟩ | ⟨q, hq, rfl⟩ | ⟨q, hq, rfl⟩)
    · refine ⟨12, Finset.mem_range.mpr (by omega), ?_⟩
      decide
    · refine ⟨12 + 1024, Finset.mem_range.mpr (by omega), ?_⟩
      decide
    · rw [lt_ceil_iff (by decide)] at hq
      refine ⟨12 + 1024 + q * 1024, Finset.mem_range.mpr (by omega), ?_⟩
      rw [blockPath, if_neg (by omega), if_neg (by omega), if_pos (by omega), onTheWay_three]
      simp only [Finset.mem_insert, Finset.mem_singleton]
      refine .inr ?_
      congr 2
      omega
    · refine ⟨12 + 1024 + 1024 * 1024, Finset.mem_range.mpr (by omega), ?_⟩
      decide
    · rw [lt_ceil_iff (by decide)] at hq
      refine ⟨12 + 1024 + 1024 * 1024 + q * (1024 * 1024), Finset.mem_range.mpr (by omega), ?_⟩
      rw [blockPath, if_neg (by omega), if_neg (by omega), if_neg (by omega), onTheWay_four]
      simp only [Finset.mem_insert, Finset.mem_singleton]
      refine .inr (.inl ?_)
      congr 2
      omega
    · rw [lt_ceil_iff (by decide)] at hq
      refine ⟨12 + 1024 + 1024 * 1024 + q * 1024, Finset.mem_range.mpr (by omega), ?_⟩
      have hd : (12 + 1024 + 1024 * 1024 + q * 1024 - 12 - 1024 - 1024 * 1024) / 1024 = q := by omega
      rw [blockPath, if_neg (by omega), if_neg (by omega), if_neg (by omega), onTheWay_four, hd]
      simp

/-- The block at the top of a tree, there as soon as the tree is. -/
def topBlock (c : ℕ) (p : List ℕ) : Finset (List ℕ) := if 0 < c then {p} else ∅

/-- A level of blocks, one for each number below `k`. -/
def levelBlocks (k : ℕ) (f : ℕ → List ℕ) : Finset (List ℕ) := (Finset.range k).image f

@[simp] theorem mem_topBlock {c : ℕ} {p q : List ℕ} : q ∈ topBlock c p ↔ 0 < c ∧ q = p := by
  unfold topBlock
  split_ifs with h <;> simp [h]

@[simp] theorem mem_levelBlocks {k : ℕ} {f : ℕ → List ℕ} {p : List ℕ} : p ∈ levelBlocks k f ↔ ∃ q < k, p = f q := by
  simp [levelBlocks, eq_comm]

theorem card_topBlock (c : ℕ) (p : List ℕ) : (topBlock c p).card = if 0 < c then 1 else 0 := by
  unfold topBlock
  split_ifs <;> rfl

theorem card_levelBlocks (k : ℕ) {f : ℕ → List ℕ} (hf : Function.Injective f) : (levelBlocks k f).card = k := by
  rw [levelBlocks, Finset.card_image_of_injective _ hf, Finset.card_range]

theorem indirectBlocks_eq (n : ℕ) :
    indirectBlocks n = topBlock (singleCovered n) [12] ∪
      (topBlock (doubleCovered n) [13] ∪ levelBlocks ((doubleCovered n + 1024 - 1) / 1024) fun q => [13, q]) ∪
      (topBlock (tripleCovered n) [14] ∪
        levelBlocks ((tripleCovered n + 1024 * 1024 - 1) / (1024 * 1024)) (fun q => [14, q]) ∪
        levelBlocks ((tripleCovered n + 1024 - 1) / 1024) fun q => [14, q / 1024, q % 1024]) := by
  ext p
  rw [mem_indirectBlocks]
  simp only [Finset.mem_union, mem_topBlock, mem_levelBlocks, or_assoc]

/-- **How many there are.** -/
theorem card_indirectBlocks (n : ℕ) :
    (indirectBlocks n).card = (if 0 < singleCovered n then 1 else 0) +
      ((if 0 < doubleCovered n then 1 else 0) + (doubleCovered n + 1024 - 1) / 1024) +
      ((if 0 < tripleCovered n then 1 else 0) + (tripleCovered n + 1024 * 1024 - 1) / (1024 * 1024) +
        (tripleCovered n + 1024 - 1) / 1024) := by
  have hlast : Function.Injective fun q : ℕ => [14, q / 1024, q % 1024] := by
    intro q q' h
    simp only [List.cons.injEq, and_true, true_and] at h
    omega
  rw [indirectBlocks_eq, Finset.card_union_of_disjoint, Finset.card_union_of_disjoint, Finset.card_union_of_disjoint,
    Finset.card_union_of_disjoint, Finset.card_union_of_disjoint, card_topBlock, card_topBlock, card_topBlock,
    card_levelBlocks _ hlast, card_levelBlocks, card_levelBlocks]
  -- blocks of different trees, or of different heights in one tree, differ in their names
  all_goals first
    | (intro q q' h; simpa using h)
    | (rw [Finset.disjoint_left]; intro p; simp only [Finset.mem_union, mem_topBlock, mem_levelBlocks]; grind)

/-! ### The budget -/

/-- **The closed form counts the tree.** -/
theorem payloadBlocks_eq (n : ℕ) : regularFilePayloadBlocksForDataBlocks n = n + (indirectBlocks n).card := by
  rw [card_indirectBlocks]
  have hpointers : kExt2PointersPerBlock = 1024 := rfl
  unfold regularFilePayloadBlocksForDataBlocks singleCovered doubleCovered tripleCovered
  dsimp only
  rw [hpointers]
  split_ifs <;> omega

theorem payloadBlocks_lt {m n : ℕ} (h : m < n) :
    regularFilePayloadBlocksForDataBlocks m < regularFilePayloadBlocksForDataBlocks n := by
  rw [payloadBlocks_eq, payloadBlocks_eq]
  exact Nat.add_lt_add_of_lt_of_le h (Finset.card_le_card (indirectBlocks_mono h.le))

/-- **The budget of a file.**  The closed form is the data blocks and the exact number of blocks of pointers on the way to
them; it is strictly increasing; and the search returns the largest file whose sectors fit thirty-two bits. -/
theorem payload_blocks_exact :
    (∀ n ≤ kMaxExt2FileBlocks, regularFilePayloadBlocksForDataBlocks n = n + (indirectBlocks n).card) ∧
      (∀ m n, m < n → n ≤ kMaxExt2FileBlocks →
        regularFilePayloadBlocksForDataBlocks m < regularFilePayloadBlocksForDataBlocks n) ∧
      IsGreatest {n | n ≤ kMaxExt2FileBlocks ∧ regularFilePayloadBlocksForDataBlocks n * kExt2SectorsPerBlock < 2 ^ 32}
        maxExt2IBlocksDataBlocks := by
  refine ⟨fun n _ => payloadBlocks_eq n, fun m n h _ => payloadBlocks_lt h, ?_⟩
  have hfits : ∀ t : ℕ, t ≤ kMaxExt2IBlocksAllocationBlocks ↔ t * kExt2SectorsPerBlock < 2 ^ 32 := by
    intro t
    show t ≤ (2 ^ 32 - 1) / (4096 / 512) ↔ t * (4096 / 512) < 2 ^ 32
    omega
  obtain ⟨-, h2, h3, h4⟩ := @Search.lastTrue_spec
    (fun mid => decide (regularFilePayloadBlocksForDataBlocks mid ≤ kMaxExt2IBlocksAllocationBlocks)) 0 kMaxExt2FileBlocks
    (Nat.zero_le _) (by decide) (fun i j hij hj => by
      rw [decide_eq_true_eq] at hj ⊢
      rcases Nat.lt_or_eq_of_le hij with hlt | rfl
      · exact (payloadBlocks_lt hlt).le.trans hj
      · exact hj)
  constructor
  · exact ⟨h2, (hfits _).mp (of_decide_eq_true h3)⟩
  · rintro n ⟨hn, hsectors⟩
    exact h4 n (decide_eq_true ((hfits _).mpr hsectors)) hn

end OverlayBD.Ext2
