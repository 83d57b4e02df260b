import Mathlib.Algebra.BigOperators.Group.List.Basic
import Mathlib.Order.Bounds.Basic
import Mathlib.Tactic.Ring

/-! # Cutting a list into blocks

A list is cut into consecutive blocks of a fixed positive size, the last of them possibly shorter.

* **`blockCount b n`** — the number of blocks of size `b` that cover `n` elements.
* **`block b l i`** — block `i` of the list `l`; `take_length_block` and `drop_length_block` are
  what a loop that takes one block a turn needs.
* **`sum_length_block`** — the blocks together are as long as the list. -/

namespace Blocks

variable {α : Type*}

/-- The number of blocks of size `b` that cover `n` elements, rounding up. -/
def blockCount (b n : ℕ) : ℕ := n / b + if n % b = 0 then 0 else 1

/-- Nothing needs no block. -/
@[simp] theorem blockCount_zero (b : ℕ) : blockCount b 0 = 0 := by simp [blockCount]

/-- The last block ends at or beyond the last element. -/
theorem le_blockCount_mul (b n : ℕ) (hb : 0 < b) : n ≤ blockCount b n * b := by
  have hdiv := Nat.div_add_mod n b
  have hmod := Nat.mod_lt n hb
  unfold blockCount
  split
  · rw [add_zero, mul_comm]; omega
  · rw [add_mul, one_mul, mul_comm]; omega

/-- The last block starts before the last element. -/
theorem blockCount_mul_lt (b n : ℕ) (hb : 0 < b) : blockCount b n * b < n + b := by
  have hdiv := Nat.div_add_mod n b
  unfold blockCount
  split
  · rw [add_zero, mul_comm]; omega
  · rw [add_mul, one_mul, mul_comm]; omega

/-- The number of blocks is the least that covers the elements. -/
theorem blockCount_eq_of_bounds {b n k : ℕ} (hb : 0 < b) (hle : n ≤ k * b) (hlt : k * b < n + b) :
    blockCount b n = k := by
  have h₁ := le_blockCount_mul b n hb
  have h₂ := blockCount_mul_lt b n hb
  have h₃ : blockCount b n * b < (k + 1) * b := by rw [add_mul, one_mul]; omega
  have h₄ : k * b < (blockCount b n + 1) * b := by rw [add_mul, one_mul]; omega
  have h₅ := Nat.lt_of_mul_lt_mul_right h₃
  have h₆ := Nat.lt_of_mul_lt_mul_right h₄
  omega

/-- Taking one block off leaves one block less. -/
theorem blockCount_sub {b n : ℕ} (hb : 0 < b) (hn : 0 < n) :
    blockCount b n = blockCount b (n - b) + 1 := by
  have h₁ := le_blockCount_mul b (n - b) hb
  have h₂ := blockCount_mul_lt b (n - b) hb
  apply blockCount_eq_of_bounds hb
  · rw [add_mul, one_mul]; omega
  · rw [add_mul, one_mul]
    by_cases hle : b ≤ n
    · omega
    · have h0 : n - b = 0 := by omega
      rw [h0, blockCount_zero]; omega

/-- Some elements need at least one block. -/
theorem blockCount_pos {b n : ℕ} (hb : 0 < b) (hn : 0 < n) : 0 < blockCount b n := by
  rw [blockCount_sub hb hn]; omega

/-- A list has no more blocks than elements. -/
theorem blockCount_le {b : ℕ} (hb : 0 < b) (n : ℕ) : blockCount b n ≤ n := by
  by_contra h
  have h₁ := blockCount_mul_lt b n hb
  have h₂ : (n + 1) * b ≤ blockCount b n * b := Nat.mul_le_mul_right b (by omega)
  have h₃ : n * 1 ≤ n * b := Nat.mul_le_mul_left n hb
  rw [add_mul, one_mul] at h₂
  omega

/-- The blocks end at the least multiple of the block size that covers the elements. -/
theorem isLeast_blockCount_mul {b : ℕ} (hb : 0 < b) (n : ℕ) :
    IsLeast {m | b ∣ m ∧ n ≤ m} (blockCount b n * b) := by
  refine ⟨⟨Nat.dvd_mul_left b _, le_blockCount_mul b n hb⟩, ?_⟩
  rintro m ⟨⟨k, rfl⟩, hle⟩
  have hlt := blockCount_mul_lt b n hb
  have hk : blockCount b n * b < (k + 1) * b := by
    rw [add_mul, one_mul, mul_comm k]
    omega
  rw [mul_comm b k]
  exact Nat.mul_le_mul_right b (Nat.le_of_lt_succ (Nat.lt_of_mul_lt_mul_right hk))

/-- Every block starts before the last element. -/
theorem mul_lt_of_lt_blockCount {b n i : ℕ} (hb : 0 < b) (hi : i < blockCount b n) : i * b < n := by
  have h₁ := blockCount_mul_lt b n hb
  have h₂ : (i + 1) * b ≤ blockCount b n * b := Nat.mul_le_mul_right b hi
  rw [add_mul, one_mul] at h₂
  omega

/-- The `i`-th block of size `b`. -/
def block (b : ℕ) (l : List α) (i : ℕ) : List α := (l.drop (i * b)).take b

/-- A block is never longer than the block size. -/
theorem length_block_le (b : ℕ) (l : List α) (i : ℕ) : (block b l i).length ≤ b := by
  simp [block]

/-- The length of a block in terms of what is left of the list. -/
theorem length_block (b : ℕ) (l : List α) (i : ℕ) :
    (block b l i).length = min b (l.length - i * b) := by
  simp [block]

/-- Taking as many elements as the block has gives the block. -/
theorem take_length_block (b : ℕ) (l : List α) (i : ℕ) :
    (l.drop (i * b)).take (block b l i).length = block b l i := by
  rw [block, List.take_eq_take_iff, List.length_take]
  omega

/-- Dropping as many elements as the block has gives what the next block starts. -/
theorem drop_length_block (b : ℕ) (l : List α) (i : ℕ) :
    (l.drop (i * b)).drop (block b l i).length = l.drop ((i + 1) * b) := by
  rw [length_block, add_mul, one_mul, ← List.drop_drop]
  by_cases h : b ≤ l.length - i * b
  · rw [min_eq_left h]
  · rw [List.drop_of_length_le, List.drop_of_length_le] <;> rw [List.length_drop] <;> omega

/-- The first `n` blocks, one after another, are what they cover. -/
theorem flatMap_block (b : ℕ) (l : List α) (n : ℕ) :
    (List.range n).flatMap (block b l) = l.take (n * b) := by
  induction n with
  | zero => simp
  | succ n ih =>
    rw [List.range_succ, List.flatMap_append, ih, List.flatMap_singleton, add_mul, one_mul,
      List.take_add, block]

/-- The first `n` blocks together are as long as what they cover. -/
theorem sum_length_block (b : ℕ) (l : List α) (n : ℕ) :
    ((List.range n).map fun i => (block b l i).length).sum = min (n * b) l.length := by
  induction n with
  | zero => simp
  | succ n ih =>
    rw [List.range_succ, List.map_append, List.sum_append, ih, List.map_singleton,
      List.sum_singleton, length_block, add_mul, one_mul]
    omega

end Blocks
