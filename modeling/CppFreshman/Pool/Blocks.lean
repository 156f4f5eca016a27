import CppFreshman.Words.Align
import Mathlib.Data.Finmap

/-!
# Memory blocks

`MemoryBlock` of the memory pool and the memory that the blocks live in.  A block is a header of
16 bytes, with a capacity and a pointer to the next block, and the data behind it; it is named
by its address.

`operator new` may return any address at which enough memory is free: an operation is given
the addresses that it is to return, one after the other, and one that cannot be returned is the
fault `badAlloc`.  The memory also records the blocks created and destroyed and the destructors
registered and run, in order; the blocks and the registrations are numbered for that.
-/

namespace StaticMemoryPool

/-- A block with its number and the number of bytes that were obtained for it. -/
structure MemoryBlock where
  serial : ℕ
  size : ℕ
  capacity : ℕ
  next : Option ℕ
  deriving DecidableEq

/-- A destructor, which is null once the cleaner has been moved from, the object it is for, and
the number of its registration. -/
structure Cleaner where
  destructor : Option ℕ
  pointer : ℕ
  serial : ℕ
  deriving DecidableEq

/-- What is recorded. -/
inductive Effect where
  | created (serial addr capacity : ℕ)
  | destroyed (serial : ℕ)
  | registered (serial pointer : ℕ)
  | destructed (serial : ℕ)
  deriving DecidableEq

/-- `~Cleaner`. -/
def Cleaner.run (c : Cleaner) : List Effect :=
  match c.destructor with
  | some _ => [.destructed c.serial]
  | none => []

/-- What is left of a cleaner that has been moved from. -/
def Cleaner.movedFrom (c : Cleaner) : Cleaner :=
  { c with destructor := none, pointer := 0 }

/-- What may go wrong: `operator new` does not return the next address, a block that is null or
destroyed is accessed, a loop takes more steps than there are blocks, a pool is used that is not
there. -/
inductive Fault where
  | badAlloc
  | dangling
  | fuel
  | noPool
  deriving DecidableEq

/-- The blocks by their addresses, the addresses that `operator new` is to return, what is
recorded, and the numbers of blocks made and of destructors registered. -/
structure Memory where
  blocks : Finmap fun _ : ℕ => MemoryBlock
  news : List ℕ
  trace : List Effect
  made : ℕ
  registered : ℕ

/-- `sizeof(MemoryBlock)`, at which the data of a block begins. -/
def sizeofBlock : ℕ :=
  16

namespace Memory

variable (m : Memory)

/-- `size` bytes at `x` are free, and `x` is a possible result of `operator new`. -/
def Free (x size : ℕ) : Prop :=
  x ≠ 0 ∧ 16 ∣ x ∧ x < 2 ^ 64 ∧ x + size ≤ 2 ^ 64 ∧ x ∉ m.blocks.keys ∧
    ∀ y, y ∈ m.blocks.keys → ∀ b, b ∈ m.blocks.lookup y → x + size ≤ y ∨ y + b.size ≤ x

instance (x size : ℕ) : Decidable (m.Free x size) := by
  unfold Free
  infer_instance

/-- `*x`. -/
def get (x : ℕ) : Except Fault MemoryBlock :=
  match m.blocks.lookup x with
  | some b => .ok b
  | none => .error .dangling

/-- `x->next = next`. -/
def setNext (x : ℕ) (next : Option ℕ) : Except Fault Memory := do
  let b ← m.get x
  pure { m with blocks := m.blocks.insert x { b with next := next } }

/-- `MemoryBlock::create`. -/
def create (capacity : ℕ) : Except Fault (ℕ × Memory) :=
  let size := (sizeofBlock + capacity) % 2 ^ 64
  match m.news with
  | [] => .error .badAlloc
  | x :: news =>
      if m.Free x size then
        .ok (x,
          { m with
            blocks := m.blocks.insert x ⟨m.made, size, capacity, none⟩
            news := news
            trace := m.trace ++ [.created m.made x capacity]
            made := m.made + 1 })
      else .error .badAlloc

/-- `MemoryBlock::destroy`. -/
def destroy (x : ℕ) : Except Fault Memory := do
  let b ← m.get x
  pure { m with blocks := m.blocks.erase x, trace := m.trace ++ [.destroyed b.serial] }

/-- A bound on the length of a chain of blocks. -/
def fuel : ℕ :=
  m.blocks.keys.card

end Memory

/-- The loop of `get_block_size`, for at most as many steps as a `size_t` has bits. -/
def blockSizeLoop : ℕ → ℕ → ℕ → ℕ
  | 0, blockSize, _ => blockSize
  | fuel + 1, blockSize, remain =>
      if remain > 1 then blockSizeLoop fuel (blockSize <<< 1 % 2 ^ 64) (remain >>> 1)
      else blockSize

/-- `MemoryBlock::get_block_size`. -/
def getBlockSize (expectedSize : ℕ) : ℕ :=
  let minBlockSize := (sizeofBlock + expectedSize) % 2 ^ 64
  let blockSize :=
    if minBlockSize > 4 <<< 10 then alignUp minBlockSize (4 <<< 10)
    else
      let blockSize := blockSizeLoop 64 1 minBlockSize
      if blockSize < minBlockSize then blockSize <<< 1 % 2 ^ 64 else blockSize
  (blockSize + (2 ^ 64 - sizeofBlock)) % 2 ^ 64

/-- From a power of two and what remains the loop comes to the power of two that is next below
their product. -/
theorem blockSizeLoop_spec (fuel i remain : ℕ) (hremain : 0 < remain)
    (hfuel : remain < 2 ^ (fuel + 1)) (hi : 2 ^ i * remain < 2 ^ 64) :
  ∃ j, blockSizeLoop fuel (2 ^ i) remain = 2 ^ (i + j) ∧ 2 ^ j ≤ remain ∧ remain < 2 ^ (j + 1)
  := by
  induction fuel generalizing i remain with
  | zero =>
      use 0
      exact ⟨rfl, hremain, hfuel⟩
  | succ fuel ih =>
      rw [blockSizeLoop]
      rcases Nat.lt_or_ge 1 remain with h | h
      · rw [if_pos h]
        have hdouble : 2 ^ (i + 1) ≤ 2 ^ i * remain := by
          rw [Nat.pow_succ]
          apply Nat.mul_le_mul_left _ h
        have hshift : 2 ^ i <<< 1 % 2 ^ 64 = 2 ^ (i + 1) := by
          rw [Nat.shiftLeft_eq, ← Nat.pow_add, Nat.mod_eq_of_lt]
          omega
        have hhalf : remain >>> 1 = remain / 2 := Nat.shiftRight_eq_div_pow remain 1
        have hprod : 2 ^ (i + 1) * (remain / 2) ≤ 2 ^ i * remain := by
          rw [Nat.pow_succ, Nat.mul_assoc]
          apply Nat.mul_le_mul_left
          omega
        rw [hshift, hhalf]
        obtain ⟨j, hj, hle, hlt⟩ := ih (i + 1) (remain / 2) (by omega)
          (by rw [Nat.pow_succ] at hfuel; omega) (by omega)
        use j + 1
        rw [Nat.pow_succ] at hlt
        rw [hj, Nat.pow_succ 2 (j + 1), Nat.pow_succ 2 j, Nat.add_assoc, Nat.add_comm 1 j]
        omega
      · rw [if_neg (Nat.not_lt.mpr h)]
        use 0
        simp
        omega

/-- Up to a page, the least power of two that is large enough. -/
theorem getBlockSize_of_le {expectedSize : ℕ} (h : sizeofBlock + expectedSize ≤ 4096) :
  ∃ j, sizeofBlock + getBlockSize expectedSize = 2 ^ j ∧
    sizeofBlock + expectedSize ≤ 2 ^ j ∧ 2 ^ j < 2 * (sizeofBlock + expectedSize)
  := by
  have hmod : (sizeofBlock + expectedSize) % 2 ^ 64 = sizeofBlock + expectedSize := by
    apply Nat.mod_eq_of_lt
    omega
  have hpage : ¬ sizeofBlock + expectedSize > 4 <<< 10 := Nat.not_lt.mpr h
  have hmin : 16 ≤ sizeofBlock + expectedSize := by
    rw [sizeofBlock]
    omega
  obtain ⟨j, hj, hle, hlt⟩ := blockSizeLoop_spec 64 0
    (sizeofBlock + expectedSize) (by omega) (by omega) (by omega)
  rw [Nat.zero_add, Nat.pow_zero] at hj
  simp only [getBlockSize, hmod, if_neg hpage, hj]
  rw [Nat.pow_succ] at hlt
  rcases Nat.lt_or_ge (2 ^ j) (sizeofBlock + expectedSize) with hless | hmore
  · rw [if_pos hless, Nat.shiftLeft_eq, Nat.pow_one]
    use j + 1
    rw [Nat.pow_succ]
    simp only [sizeofBlock] at h hmin hle hlt hless ⊢
    omega
  · rw [if_neg (Nat.not_lt.mpr hmore)]
    use j
    simp only [sizeofBlock] at h hmin hle hlt hmore ⊢
    omega

/-- Beyond a page, the least number of pages that is large enough. -/
theorem getBlockSize_of_lt {expectedSize : ℕ} (h : 4096 < sizeofBlock + expectedSize)
    (hlt : sizeofBlock + expectedSize + 4095 < 2 ^ 64) :
  sizeofBlock + getBlockSize expectedSize = alignUp (sizeofBlock + expectedSize) (2 ^ 12)
  := by
  have hmod : (sizeofBlock + expectedSize) % 2 ^ 64 = sizeofBlock + expectedSize := by
    apply Nat.mod_eq_of_lt
    omega
  have hpage : sizeofBlock + expectedSize > 4 <<< 10 := h
  have hle := le_alignUp (n := sizeofBlock + expectedSize) (k := 12) (by decide) (by omega)
  have hup := alignUp_lt (n := sizeofBlock + expectedSize) (k := 12) (by decide) (by omega)
  have hdvd := dvd_alignUp (n := sizeofBlock + expectedSize) (k := 12) (by decide) (by omega)
  have hpow : 4 <<< 10 = 2 ^ 12 := rfl
  simp only [getBlockSize, hmod]
  rw [if_pos hpage, hpow]
  simp only [sizeofBlock] at h hle hup hdvd ⊢
  omega

/-- The blocks of that size fit the address space, if rounding up does not leave it. -/
theorem getBlockSize_lt {expectedSize : ℕ} (h : sizeofBlock + expectedSize + 4095 < 2 ^ 64) :
  sizeofBlock + getBlockSize expectedSize < 2 ^ 64
  := by
  rcases Nat.lt_or_ge 4096 (sizeofBlock + expectedSize) with hbig | hsmall
  · rw [getBlockSize_of_lt hbig h]
    have hup := alignUp_lt (n := sizeofBlock + expectedSize) (k := 12) (by decide) (by omega)
    have hdvd := dvd_alignUp (n := sizeofBlock + expectedSize) (k := 12) (by decide) (by omega)
    omega
  · obtain ⟨j, hj, -, hlt⟩ := getBlockSize_of_le hsmall
    omega

end StaticMemoryPool
