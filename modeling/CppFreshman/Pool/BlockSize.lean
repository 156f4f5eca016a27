import CppFreshman.Pool.Blocks
import Mathlib.Order.Bounds.Basic

/-!
# The least admissible block

A block with its header takes a power of two of bytes up to a page, and whole pages beyond it.
`get_block_size` chooses the least such block that is large enough (`isLeast_getBlockSize`); so
it is monotone and keeps the sizes it has chosen.
-/

namespace StaticMemoryPool

/-- A block with its header takes a power of two up to a page, or whole pages. -/
def Admissible (size : ℕ) : Prop :=
  (∃ j, size = 2 ^ j ∧ size ≤ 4096) ∨ 4096 ∣ size

/-- The sizes a block may have that are large enough for `expectedSize` bytes of data. -/
def admissibleSizes (expectedSize : ℕ) : Set ℕ :=
  {size | Admissible size ∧ sizeofBlock + expectedSize ≤ size}

theorem admissibleSizes_anti {m n : ℕ} (h : m ≤ n) :
  admissibleSizes n ⊆ admissibleSizes m
  := by
  rintro size ⟨hsize, hle⟩
  constructor
  · apply hsize
  · omega

/-- Up to a page, the power of two found is the least admissible size. -/
theorem isLeast_getBlockSize_of_le {expectedSize : ℕ} (h : sizeofBlock + expectedSize ≤ 4096) :
  IsLeast (admissibleSizes expectedSize) (sizeofBlock + getBlockSize expectedSize)
  := by
  obtain ⟨j, hj, hle, hlt⟩ := getBlockSize_of_le h
  have hpage : 2 ^ j ≤ 2 ^ 12 := by
    apply Nat.pow_le_pow_right (by decide)
    apply Nat.le_of_lt_succ
    apply (Nat.pow_lt_pow_iff_right (a := 2) (by decide)).mp
    omega
  rw [hj]
  constructor
  · constructor
    · left
      exact ⟨j, rfl, hpage⟩
    · apply hle
  · rintro size ⟨⟨k, rfl, -⟩ | hdvd, hsize⟩
    · apply Nat.pow_le_pow_right (by decide)
      apply Nat.le_of_lt_succ
      apply (Nat.pow_lt_pow_iff_right (a := 2) (by decide)).mp
      rw [Nat.pow_succ]
      omega
    · have hpos : 0 < size := by
        rw [sizeofBlock] at hsize
        omega
      have := Nat.le_of_dvd hpos hdvd
      omega

/-- Beyond a page, the number of pages found is the least admissible size. -/
theorem isLeast_getBlockSize_of_lt {expectedSize : ℕ} (h : 4096 < sizeofBlock + expectedSize)
    (hlt : sizeofBlock + expectedSize + 4095 < 2 ^ 64) :
  IsLeast (admissibleSizes expectedSize) (sizeofBlock + getBlockSize expectedSize)
  := by
  rw [getBlockSize_of_lt h hlt]
  constructor
  · constructor
    · right
      apply dvd_alignUp (k := 12) (by decide) (by omega)
    · apply le_alignUp (by decide) (by omega)
  · rintro size ⟨⟨k, rfl, hk⟩ | hdvd, hsize⟩
    · omega
    · apply alignUp_le (by decide) (by omega) hdvd hsize

theorem isLeast_getBlockSize {expectedSize : ℕ}
    (h : sizeofBlock + expectedSize + 4095 < 2 ^ 64) :
  IsLeast (admissibleSizes expectedSize) (sizeofBlock + getBlockSize expectedSize)
  := by
  rcases Nat.lt_or_ge 4096 (sizeofBlock + expectedSize) with hbig | hsmall
  · apply isLeast_getBlockSize_of_lt hbig h
  · apply isLeast_getBlockSize_of_le hsmall

/-- What is asked for fits the block. -/
theorem le_getBlockSize {expectedSize : ℕ} (h : sizeofBlock + expectedSize + 4095 < 2 ^ 64) :
  expectedSize ≤ getBlockSize expectedSize
  := by
  apply Nat.le_of_add_le_add_left (isLeast_getBlockSize h).1.2

/-- Rounding up does not leave the address space at the size found either. -/
theorem getBlockSize_add_lt {expectedSize : ℕ}
    (h : sizeofBlock + expectedSize + 4095 < 2 ^ 64) :
  sizeofBlock + getBlockSize expectedSize + 4095 < 2 ^ 64
  := by
  have hlt := getBlockSize_lt h
  obtain ⟨⟨⟨j, -, hj⟩ | hdvd, -⟩, -⟩ := isLeast_getBlockSize h
  · omega
  · omega

theorem getBlockSize_mono {m n : ℕ} (hmn : m ≤ n) (h : sizeofBlock + n + 4095 < 2 ^ 64) :
  getBlockSize m ≤ getBlockSize n
  := by
  have hm : sizeofBlock + m + 4095 < 2 ^ 64 := by omega
  apply Nat.le_of_add_le_add_left (a := sizeofBlock)
  apply (isLeast_getBlockSize hm).2
  apply admissibleSizes_anti hmn
  apply (isLeast_getBlockSize h).1

/-- A size that is admissible already is kept. -/
theorem getBlockSize_of_admissible {n : ℕ} (h : sizeofBlock + n + 4095 < 2 ^ 64)
    (hn : Admissible (sizeofBlock + n)) :
  getBlockSize n = n
  := by
  apply Nat.le_antisymm
  · apply Nat.le_of_add_le_add_left (a := sizeofBlock)
    apply (isLeast_getBlockSize h).2
    exact ⟨hn, Nat.le_refl _⟩
  · apply le_getBlockSize h

/-- `get_block_size` chooses the least admissible block, is monotone and idempotent. -/
theorem getBlockSize_least {expectedSize : ℕ}
    (h : sizeofBlock + expectedSize + 4095 < 2 ^ 64) :
  expectedSize ≤ getBlockSize expectedSize ∧
    Admissible (sizeofBlock + getBlockSize expectedSize) ∧
    (∀ size, Admissible size → sizeofBlock + expectedSize ≤ size →
      sizeofBlock + getBlockSize expectedSize ≤ size) ∧
    (∀ n, n ≤ expectedSize → getBlockSize n ≤ getBlockSize expectedSize) ∧
    getBlockSize (getBlockSize expectedSize) = getBlockSize expectedSize
  := by
  have hleast := isLeast_getBlockSize h
  constructor
  · apply le_getBlockSize h
  constructor
  · apply hleast.1.1
  constructor
  · intro size hsize hle
    apply hleast.2
    exact ⟨hsize, hle⟩
  constructor
  · intro n hn
    apply getBlockSize_mono hn h
  · apply getBlockSize_of_admissible (getBlockSize_add_lt h) hleast.1.1

/-- Just over a page, two pages are chosen. -/
theorem getBlockSize_least_twoPages :
  getBlockSize 4081 = 8176 ∧ 4081 ≤ getBlockSize 4081 ∧
    Admissible (sizeofBlock + getBlockSize 4081) ∧
    (∀ size, Admissible size → sizeofBlock + 4081 ≤ size →
      sizeofBlock + getBlockSize 4081 ≤ size) ∧
    (∀ n, n ≤ 4081 → getBlockSize n ≤ getBlockSize 4081) ∧
    getBlockSize (getBlockSize 4081) = getBlockSize 4081
  := by
  constructor
  · decide
  · apply getBlockSize_least (by decide)

end StaticMemoryPool
