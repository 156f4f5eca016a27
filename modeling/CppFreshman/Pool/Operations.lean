import CppFreshman.Pool.Blocks

/-!
# The operations of the memory pool

`StaticMemoryPool`: a chain of blocks from `_head` on, of which those before `_current_block` are
used up and those behind it are free; `_pos` is the number of bytes used of the current one.

A `Member` of a run is a pool with the regions that it has handed out since its last `clear`.  A
`shrink_to_fit` that finds no byte in use frees all the blocks; the regions handed out before it
are then `lost`.
-/

namespace StaticMemoryPool

/-- The members of the pool. -/
structure Pool where
  blockSize : ℕ
  pos : ℕ
  head : Option ℕ
  currentBlock : Option ℕ
  cleaners : List Cleaner

/-- `*_current_block`. -/
def current (x : Option ℕ) : Except Fault ℕ :=
  match x with
  | some x => .ok x
  | none => .error .dangling

/-- The loop of `compact_block`. -/
def compactLoop (blockSize : ℕ) : ℕ → ℕ → Option ℕ → Memory → Except Fault (Option ℕ × Memory)
  | _, _, none, m => .ok (none, m)
  | 0, _, some _, _ => .error .fuel
  | fuel + 1, capacity, some x, m =>
      if capacity < blockSize then do
        let b ← m.get x
        let m ← m.destroy x
        compactLoop blockSize fuel ((capacity + b.capacity) % 2 ^ 64) b.next m
      else .ok (some x, m)

/-- `compact_block`, which may replace the block `x`. -/
def compactBlock (blockSize x : ℕ) (m : Memory) : Except Fault (ℕ × Memory) := do
  let b ← m.get x
  if blockSize ≤ b.capacity then pure (x, m)
  else
    let (next, m) ← compactLoop blockSize m.fuel b.capacity b.next m
    let m ← m.destroy x
    let (y, m) ← m.create blockSize
    let m ← m.setNext y next
    pure (y, m)

/-- `destroy_blocks_start_from`. -/
def destroyBlocks : ℕ → Option ℕ → Memory → Except Fault Memory
  | _, none, m => .ok m
  | 0, some _, _ => .error .fuel
  | fuel + 1, some x, m => do
      let b ← m.get x
      let m ← m.destroy x
      destroyBlocks fuel b.next m

/-- `align_pos`. -/
def alignPos (align pos : ℕ) : ℕ :=
  if align = 1 then pos else alignUp pos align

/-- There are alignments of both kinds. -/
scoped instance small_alignments : NeZero 4 :=
  ⟨by decide⟩

scoped instance large_alignments : NeZero 16 :=
  ⟨by decide⟩

namespace Pool

/-- `_block_size = blockSize`. -/
def resize (p : Pool) (blockSize : ℕ) : Pool :=
  { p with blockSize := blockSize }

/-- The block size that `set_block_size` computes. -/
def requested (blockSize : ℕ) : ℕ :=
  getBlockSize (if blockSize < sizeofBlock then sizeofBlock else blockSize - sizeofBlock)

/-- `set_block_size`. -/
def setBlockSize (p : Pool) (blockSize : ℕ) : Pool :=
  p.resize (requested blockSize)

/-- The constructor. -/
def new (blockSize : ℕ) : Pool :=
  setBlockSize ⟨0, 0, none, none, []⟩ blockSize

/-- The first block of a pool without any. -/
def withBlock (p : Pool) (m : Memory) : Except Fault (Pool × Memory) :=
  match p.currentBlock with
  | some _ => .ok (p, m)
  | none => do
      let (x, m) ← m.create p.blockSize
      pure ({ p with head := some x, currentBlock := some x }, m)

/-- The block that follows the current one: the next one of the chain, compacted, or a new one. -/
def nextBlock (p : Pool) (m : Memory) (next : Option ℕ) : Except Fault (ℕ × Memory) :=
  match next with
  | some x => compactBlock p.blockSize x m
  | none => m.create p.blockSize

variable (grow : ℕ → ℕ)

/-- `create_buffer_internal`, after the test for the first block: the result is the address, the
pool and the memory. -/
def allocate (p : Pool) (m : Memory) (align bufferSize : ℕ) : Except Fault (ℕ × Pool × Memory) := do
  let pos := alignPos align p.pos
  let x ← current p.currentBlock
  let b ← m.get x
  if b.capacity ≥ (bufferSize + pos) % 2 ^ 64 then
    pure (x + sizeofBlock + pos, { p with pos := (pos + bufferSize) % 2 ^ 64 }, m)
  else if bufferSize ≤ p.blockSize then
    let (y, m) ← p.nextBlock m b.next
    let m ← m.setNext x (some y)
    pure (y + sizeofBlock, { p with currentBlock := some y, pos := bufferSize }, m)
  else
    let (y, m) ← m.create bufferSize
    let m ← m.setNext y p.head
    pure (y + sizeofBlock,
      { p with head := some y, blockSize := getBlockSize (grow bufferSize), pos := pos }, m)

/-- `create_buffer_internal`; `grow n` is `n * 1.1f` as a `size_t`. -/
def createBufferInternal (p : Pool) (m : Memory) (align bufferSize : ℕ) :
    Except Fault (ℕ × Pool × Memory) := do
  let (p, m) ← p.withBlock m
  p.allocate grow m align bufferSize

/-- `_pos = pos`. -/
def setPos (p : Pool) (pos : ℕ) : Pool :=
  { p with pos := pos }

@[simp]
theorem cleaners_setPos (p : Pool) (pos : ℕ) :
  (p.setPos pos).cleaners = p.cleaners
  := rfl

/-- The position without what the alignment of `buffer` did not need of `align` bytes. -/
def givenBack (pos buffer align : ℕ) : ℕ :=
  (pos + (2 ^ 64 - align) + (alignUp buffer align + 2 ^ 64 - buffer)) % 2 ^ 64

/-- `create_aligned_buffer` with the alignment as an argument: what the alignment did not need is
given back if nothing was allocated behind it. -/
def createAlignedBuffer (p : Pool) (m : Memory) (bufferSize align : ℕ) :
    Except Fault (ℕ × Pool × Memory) := do
  let size := (bufferSize + align) % 2 ^ 64
  let (buffer, p, m) ← p.createBufferInternal grow m 1 size
  let aligned := alignUp buffer align
  let x ← current p.currentBlock
  if x + sizeofBlock + p.pos = buffer + size then
    pure (aligned, p.setPos (givenBack p.pos buffer align), m)
  else pure (aligned, p, m)

/-- How an alignment is asked for: as a template argument of `create_aligned_buffer` up to eight,
or as an argument. -/
inductive Alignment where
  | small (k : Fin 4)
  | large (k : Fin 16)

def Alignment.value : Alignment → ℕ
  | .small k => 2 ^ k.val
  | .large k => 2 ^ k.val

/-- `create_aligned_buffer`. -/
def createAligned (p : Pool) (m : Memory) (bufferSize : ℕ) (align : Alignment) :
    Except Fault (ℕ × Pool × Memory) :=
  match align with
  | .small k => p.createBufferInternal grow m (2 ^ k.val) bufferSize
  | .large k => p.createAlignedBuffer grow m bufferSize (2 ^ k.val)

/-- `register_destructor`.  If the vector of the cleaners grows, they are moved to new storage and
what is left of them is destroyed. -/
def registerDestructor (p : Pool) (m : Memory) (destructor pointer : ℕ) (grows : Bool) :
    Pool × Memory :=
  let old := if grows then p.cleaners.map Cleaner.movedFrom else []
  ({ p with cleaners := p.cleaners ++ [⟨some destructor, pointer, m.registered⟩] },
   { m with
     trace := m.trace ++ old.flatMap Cleaner.run ++ [.registered m.registered pointer]
     registered := m.registered + 1 })

/-- `create_object`; `destructor` is that of the type, if it is not trivial. -/
def createObject (p : Pool) (m : Memory) (size : ℕ) (align : Alignment) (destructor : Option ℕ)
    (grows : Bool) : Except Fault (ℕ × Pool × Memory) := do
  let (buffer, p, m) ← p.createAligned grow m size align
  match destructor with
  | none => pure (buffer, p, m)
  | some destructor => pure (buffer, p.registerDestructor m destructor buffer grows)

/-- `_cleaners.clear()`. -/
def runCleaners (p : Pool) (m : Memory) : Pool × Memory :=
  ({ p with cleaners := [] },
   { m with trace := m.trace ++ p.cleaners.flatMap Cleaner.run })

/-- `clear`. -/
def clear (p : Pool) (m : Memory) : Except Fault (Pool × Memory) := do
  let (p, m) := p.runCleaners m
  match p.head with
  | none => pure ({ p with pos := 0 }, m)
  | some x =>
      let (y, m) ← compactBlock p.blockSize x m
      pure ({ p with head := some y, currentBlock := some y, pos := 0 }, m)

/-- `shrink_to_fit`. -/
def shrinkToFit (p : Pool) (m : Memory) : Except Fault (Pool × Memory) :=
  match p.currentBlock with
  | none => pure (p, m)
  | some x =>
      if some x = p.head ∧ p.pos = 0 then do
        let m ← destroyBlocks m.fuel p.head m
        pure ({ p with head := none, currentBlock := none }, m)
      else do
        let b ← m.get x
        let m ← destroyBlocks m.fuel b.next m
        let m ← m.setNext x none
        pure (p, m)

/-- The capacity of the blocks from `block` up to the current one, added to `capacity`. -/
def usedCapacity (currentBlock : ℕ) : ℕ → Option ℕ → ℕ → Memory → Except Fault ℕ
  | _, none, _, _ => .error .dangling
  | 0, some _, _, _ => .error .fuel
  | fuel + 1, some x, capacity, m =>
      if x = currentBlock then .ok capacity
      else do
        let b ← m.get x
        usedCapacity currentBlock fuel b.next ((capacity + b.capacity) % 2 ^ 64) m

/-- The block up to which the chain is kept for a capacity of `minCapacity`, and the capacity. -/
def keptBlock (minCapacity : ℕ) : ℕ → ℕ → ℕ → Memory → Except Fault (ℕ × ℕ)
  | 0, _, _, _ => .error .fuel
  | fuel + 1, x, capacity, m => do
      let b ← m.get x
      match b.next with
      | some next =>
          if capacity < minCapacity then do
            let c ← m.get next
            keptBlock minCapacity fuel next ((capacity + c.capacity) % 2 ^ 64) m
          else pure (x, capacity)
      | none => pure (x, capacity)

/-- `shrink_to_fit` with a capacity that is to be kept; the result is the capacity, the pool and
the memory. -/
def shrinkToFitMin (p : Pool) (m : Memory) (minCapacity : ℕ) :
    Except Fault (ℕ × Pool × Memory) :=
  match p.currentBlock with
  | none => pure (0, p, m)
  | some x =>
      if minCapacity = 0 then do
        let (p, m) ← p.clear m
        let m ← destroyBlocks m.fuel p.head m
        pure (0, { p with head := none, currentBlock := none }, m)
      else do
        let b ← m.get x
        let capacity ← usedCapacity x (m.fuel + 1) p.head b.capacity m
        let (y, capacity) ← keptBlock minCapacity (m.fuel + 1) x capacity m
        let c ← m.get y
        let m ← destroyBlocks m.fuel c.next m
        let m ← m.setNext y none
        pure (capacity, p, m)

/-- The loop of `contain`, from `block` up to the current one. -/
def containLoop (currentBlock : Option ℕ) (address fuel : ℕ) (block : Option ℕ) (m : Memory) :
    Except Fault Bool :=
  if block = currentBlock then .ok false
  else
    match fuel, block with
    | _, none => .error .dangling
    | 0, some _ => .error .fuel
    | fuel + 1, some x => do
        let b ← m.get x
        if x + sizeofBlock ≤ address ∧ address < x + sizeofBlock + b.capacity then pure true
        else containLoop currentBlock address fuel b.next m

/-- `contain`. -/
def contain (p : Pool) (m : Memory) (address : ℕ) : Except Fault Bool := do
  if ← containLoop p.currentBlock address m.fuel p.head m then pure true
  else
    match p.currentBlock with
    | none => pure false
    | some x => pure (decide (x + sizeofBlock ≤ address ∧ address < x + sizeofBlock + p.pos))

/-- The loop of `size`, from `block` up to the current one, and that of `capacity`, for which
that is null. -/
def sizeLoop (currentBlock : Option ℕ) (fuel : ℕ) (block : Option ℕ) (size : ℕ) (m : Memory) :
    Except Fault ℕ :=
  if block = currentBlock then .ok size
  else
    match fuel, block with
    | _, none => .error .dangling
    | 0, some _ => .error .fuel
    | fuel + 1, some x => do
        let b ← m.get x
        sizeLoop currentBlock fuel b.next ((size + b.capacity) % 2 ^ 64) m

/-- `size`. -/
def size (p : Pool) (m : Memory) : Except Fault ℕ :=
  sizeLoop p.currentBlock m.fuel p.head p.pos m

/-- `capacity`. -/
def capacity (p : Pool) (m : Memory) : Except Fault ℕ :=
  sizeLoop none m.fuel p.head 0 m

end Pool

/-- A region that was handed out, and the alignment that was asked for. -/
structure Region where
  start : ℕ
  size : ℕ
  align : ℕ
  deriving DecidableEq

/-- A pool and the regions it has handed out since its last `clear`. -/
structure Member where
  pool : Pool
  regions : List Region
  lost : List Region

/-- The operations on a pool: `create_buffer`, `create_aligned_buffer`, `create_object`,
`register_destructor`, `set_block_size`, the two forms of `shrink_to_fit` and `clear`. -/
inductive Op where
  | createBuffer (bufferSize : ℕ)
  | createAligned (bufferSize : ℕ) (align : Pool.Alignment)
  | createObject (size : {n : ℕ // 0 < n}) (align : Pool.Alignment) (destructor : Option ℕ)
      (grows : Bool)
  | registerDestructor (destructor pointer : ℕ) (grows : Bool)
  | setBlockSize (blockSize : ℕ)
  | shrinkToFit
  | shrinkToFitMin (minCapacity : ℕ)
  | clear

/-- The result of an allocation of `size` bytes. -/
def Member.handOut (s : Member) (size align : ℕ) (r : ℕ × Pool × Memory) : Member × Memory :=
  ({ s with pool := r.2.1, regions := s.regions ++ [⟨r.1, size, align⟩] }, r.2.2)

/-- What an operation does. -/
def perform (grow : ℕ → ℕ) (s : Member) (m : Memory) (op : Op) : Except Fault (Member × Memory) :=
  match op with
  | .createBuffer n => do
      let r ← s.pool.createAligned grow m n (.small 0)
      pure (s.handOut n 1 r)
  | .createAligned n align => do
      let r ← s.pool.createAligned grow m n align
      pure (s.handOut n align.value r)
  | .createObject size align destructor grows => do
      let r ← s.pool.createObject grow m size.val align destructor grows
      pure (s.handOut size.val align.value r)
  | .registerDestructor destructor pointer grows => do
      let r := s.pool.registerDestructor m destructor pointer grows
      pure ({ s with pool := r.1 }, r.2)
  | .setBlockSize blockSize =>
      pure ({ s with pool := s.pool.setBlockSize blockSize }, m)
  | .shrinkToFit => do
      let r ← s.pool.shrinkToFit m
      if r.1.head = none then pure (⟨r.1, [], s.lost ++ s.regions⟩, r.2)
      else pure ({ s with pool := r.1 }, r.2)
  | .shrinkToFitMin minCapacity => do
      let r ← s.pool.shrinkToFitMin m minCapacity
      if minCapacity = 0 ∧ s.pool.currentBlock ≠ none then pure (⟨r.2.1, [], []⟩, r.2.2)
      else pure ({ s with pool := r.2.1 }, r.2.2)
  | .clear => do
      let r ← s.pool.clear m
      pure (⟨r.1, [], []⟩, r.2)

end StaticMemoryPool
