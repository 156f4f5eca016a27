import Mathlib.Algebra.Ring.Nat

/-!
# Rounding up to a power of two

`alignUp n a` is `(n + a - 1) & -a` on words of 64 bits.  For a power of two `a` it is the least
multiple of `a` that is not below `n`, as long as the sum does not wrap around.
-/

/-- `(n + a - 1) & -a`. -/
def alignUp (n a : ℕ) : ℕ :=
  (n + a - 1) % 2 ^ 64 &&& (2 ^ 64 - a)

/-- The bits of the mask are those from the `k`-th on. -/
theorem and_mask {k n : ℕ} (hk : k ≤ 64) (hn : n < 2 ^ 64) :
  n &&& (2 ^ 64 - 2 ^ k) = n / 2 ^ k * 2 ^ k
  := by
  have hmask : 2 ^ 64 - 2 ^ k = (2 ^ (64 - k) - 1) * 2 ^ k := by
    rw [Nat.sub_mul, ← Nat.pow_add, Nat.sub_add_cancel hk, Nat.one_mul]
  apply Nat.eq_of_testBit_eq
  intro i
  rw [Nat.testBit_and, hmask, Nat.testBit_mul_two_pow, Nat.testBit_mul_two_pow,
    Nat.testBit_two_pow_sub_one, Nat.testBit_div_two_pow]
  rcases Nat.lt_or_ge i k with hik | hik
  · simp [Nat.not_le.mpr hik]
  · rw [Nat.sub_add_cancel hik]
    rcases Nat.lt_or_ge i 64 with hi | hi
    · have : i - k < 64 - k := by omega
      simp [hik, this]
    · rw [Nat.testBit_lt_two_pow (Nat.lt_of_lt_of_le hn (Nat.pow_le_pow_right (by decide) hi))]
      simp

variable {n m k : ℕ}

theorem alignUp_eq (hk : k ≤ 64) (hn : n + 2 ^ k - 1 < 2 ^ 64) :
  alignUp n (2 ^ k) = (n + 2 ^ k - 1) / 2 ^ k * 2 ^ k
  := by
  rw [alignUp, Nat.mod_eq_of_lt hn, and_mask hk hn]

theorem dvd_alignUp (hk : k ≤ 64) (hn : n + 2 ^ k - 1 < 2 ^ 64) :
  2 ^ k ∣ alignUp n (2 ^ k)
  := by
  rw [alignUp_eq hk hn]
  apply Nat.dvd_mul_left

theorem alignUp_lt (hk : k ≤ 64) (hn : n + 2 ^ k - 1 < 2 ^ 64) :
  alignUp n (2 ^ k) < n + 2 ^ k
  := by
  rw [alignUp_eq hk hn]
  have := Nat.div_mul_le_self (n + 2 ^ k - 1) (2 ^ k)
  have := Nat.two_pow_pos k
  omega

theorem le_alignUp (hk : k ≤ 64) (hn : n + 2 ^ k - 1 < 2 ^ 64) :
  n ≤ alignUp n (2 ^ k)
  := by
  rw [alignUp_eq hk hn]
  have := Nat.lt_div_mul_add (a := n + 2 ^ k - 1) (Nat.two_pow_pos k)
  omega

/-- No smaller multiple is large enough. -/
theorem alignUp_le (hk : k ≤ 64) (hn : n + 2 ^ k - 1 < 2 ^ 64) (hm : 2 ^ k ∣ m) (hle : n ≤ m) :
  alignUp n (2 ^ k) ≤ m
  := by
  obtain ⟨q, rfl⟩ := hm
  rw [alignUp_eq hk hn, Nat.mul_comm]
  apply Nat.mul_le_mul_left
  rw [Nat.div_le_iff_le_mul_add_pred (Nat.two_pow_pos k)]
  omega
