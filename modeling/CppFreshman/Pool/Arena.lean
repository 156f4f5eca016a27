import CppFreshman.Pool.Operations

/-!
# The memory pool as a chain of cells

What the pool is, without pointers: a chain of cells, one of them the current one, and what its
operations do to it.  A cell is a block with its number, its address and its capacity; a new cell
may have any number and address.  The sizes are computed as the pool computes them, modulo
`2 ^ 64`.  Every step also says what is recorded of it.
-/

namespace StaticMemoryPool

structure Cell where
  serial : ℕ
  addr : ℕ
  capacity : ℕ

/-- Where the data of a cell begins. -/
def Cell.data (c : Cell) : ℕ :=
  c.addr + sizeofBlock

/-- Where a cell ends. -/
def Cell.limit (c : Cell) : ℕ :=
  c.data + c.capacity

/-- What is recorded of a cell that is made. -/
def Cell.made (c : Cell) : List Effect :=
  [.created c.serial c.addr c.capacity]

/-- What is recorded of cells that are destroyed one after the other. -/
def freed (cells : List Cell) : List Effect :=
  cells.map fun c => .destroyed c.serial

/-- A chain of cells, those before the current one, the current one, and those behind it. -/
structure Chain where
  before : List Cell
  current : Cell
  after : List Cell

namespace Chain

variable (c : Chain)

def cells : List Cell :=
  c.before ++ c.current :: c.after

/-- The cells that regions may lie in. -/
def used : List Cell :=
  c.before ++ [c.current]

end Chain

structure Arena where
  blockSize : ℕ
  pos : ℕ
  chain : Option Chain

namespace Arena

variable (a : Arena)

def cells : List Cell :=
  match a.chain with
  | none => []
  | some c => c.cells

/-- The cells that regions may lie in. -/
def used : List Cell :=
  match a.chain with
  | none => []
  | some c => c.used

end Arena

/-- The cells that are taken to fill up a cell of the given capacity. -/
def takeFilled (blockSize : ℕ) : ℕ → List Cell → List Cell
  | _, [] => []
  | capacity, c :: cells =>
      if capacity < blockSize then
        c :: takeFilled blockSize ((capacity + c.capacity) % 2 ^ 64) cells
      else []

/-- The cells that remain. -/
def dropFilled (blockSize : ℕ) : ℕ → List Cell → List Cell
  | _, [] => []
  | capacity, c :: cells =>
      if capacity < blockSize then
        dropFilled blockSize ((capacity + c.capacity) % 2 ^ 64) cells
      else c :: cells

/-- A cell that is smaller than the block size is replaced, together with those behind it that
fill it up, by a new one. -/
inductive Compacts (blockSize : ℕ) (c : Cell) (cells : List Cell) :
    Cell → List Cell → List Effect → Prop
  | keeps (h : blockSize ≤ c.capacity) : Compacts blockSize c cells c cells []
  | merges (d : Cell) (h : c.capacity < blockSize) (hd : d.capacity = blockSize) :
      Compacts blockSize c cells d (dropFilled blockSize c.capacity cells)
        (freed (takeFilled blockSize c.capacity cells) ++ freed [c] ++ d.made)

/-- The chain that an allocation is made from, which gets its first cell if there is none. -/
inductive Opens (a : Arena) : Chain → List Effect → Prop
  | has {c : Chain} (h : a.chain = some c) : Opens a c []
  | first (d : Cell) (h : a.chain = none) (hd : d.capacity = a.blockSize) :
      Opens a ⟨[], d, []⟩ d.made

/-- An allocation of `n` bytes from the chain `c`, and where they begin. -/
inductive Allocates (grow : ℕ → ℕ) (align n : ℕ) (a : Arena) (c : Chain) :
    Arena → ℕ → List Effect → Prop
  | bump (h : (n + alignPos align a.pos) % 2 ^ 64 ≤ c.current.capacity) :
      Allocates grow align n a c ⟨a.blockSize, (alignPos align a.pos + n) % 2 ^ 64, some c⟩
        (c.current.data + alignPos align a.pos) []
  | reuse {next next' : Cell} {rest rest' : List Cell} {es : List Effect}
      (h : c.current.capacity < (n + alignPos align a.pos) % 2 ^ 64) (hn : n ≤ a.blockSize)
      (hafter : c.after = next :: rest) (hnext : Compacts a.blockSize next rest next' rest' es) :
      Allocates grow align n a c
        ⟨a.blockSize, n, some ⟨c.before ++ [c.current], next', rest'⟩⟩ next'.data es
  | fresh (d : Cell) (h : c.current.capacity < (n + alignPos align a.pos) % 2 ^ 64)
      (hn : n ≤ a.blockSize) (hafter : c.after = []) (hd : d.capacity = a.blockSize) :
      Allocates grow align n a c
        ⟨a.blockSize, n, some ⟨c.before ++ [c.current], d, []⟩⟩ d.data d.made
  | own (d : Cell) (h : c.current.capacity < (n + alignPos align a.pos) % 2 ^ 64)
      (hn : a.blockSize < n) (hd : d.capacity = n) :
      Allocates grow align n a c
        ⟨getBlockSize (grow n), alignPos align a.pos, some ⟨d :: c.before, c.current, c.after⟩⟩
        d.data d.made

def Arena.resize (a : Arena) (blockSize : ℕ) : Arena :=
  { a with blockSize := blockSize }

def Arena.setPos (a : Arena) (pos : ℕ) : Arena :=
  { a with pos := pos }

/-- What the alignment of `buffer` did not need of `align` bytes is given back, if the `size`
bytes there are the last ones in use of the current cell. -/
def Arena.giveBack (a : Arena) (buffer size align : ℕ) : Arena :=
  match a.chain with
  | none => a
  | some c =>
      if c.current.data + a.pos = buffer + size then
        a.setPos (Pool.givenBack a.pos buffer align)
      else a

/-- An aligned allocation, from the first cell on. -/
inductive Grants (grow : ℕ → ℕ) (a : Arena) (n : ℕ) :
    Pool.Alignment → Arena → ℕ → List Effect → Prop
  | small {k : Fin 4} {c : Chain} {a' : Arena} {start : ℕ} {es es' : List Effect}
      (hopen : Opens a c es) (h : Allocates grow (2 ^ k.val) n a c a' start es') :
      Grants grow a n (.small k) a' start (es ++ es')
  | large {k : Fin 16} {c : Chain} {a' : Arena} {start : ℕ} {es es' : List Effect}
      (hopen : Opens a c es)
      (h : Allocates grow 1 ((n + 2 ^ k.val) % 2 ^ 64) a c a' start es') :
      Grants grow a n (.large k) (a'.giveBack start ((n + 2 ^ k.val) % 2 ^ 64) (2 ^ k.val))
        (alignUp start (2 ^ k.val)) (es ++ es')

/-- `clear`, but for the cleaners. -/
inductive Clears (a : Arena) : Arena → List Effect → Prop
  | nothing (h : a.chain = none) : Clears a ⟨a.blockSize, 0, none⟩ []
  | first {c : Chain} {b b' : Cell} {rest rest' : List Cell} {es : List Effect}
      (h : a.chain = some c) (hcells : c.cells = b :: rest)
      (hb : Compacts a.blockSize b rest b' rest' es) :
      Clears a ⟨a.blockSize, 0, some ⟨[], b', rest'⟩⟩ es

/-- The arena, the regions handed out from it, and the cleaners. -/
structure Ledger where
  arena : Arena
  regions : List Region
  lost : List Region
  cleaners : List Cleaner

/-- A region is handed out. -/
def Ledger.handOut (l : Ledger) (a : Arena) (r : Region) : Ledger :=
  { l with arena := a, regions := l.regions ++ [r] }

/-- A cleaner is added. -/
def Ledger.register (l : Ledger) (c : Cleaner) : Ledger :=
  { l with cleaners := l.cleaners ++ [c] }

/-- What the operations do and what is recorded of them. -/
inductive Ledger.Step (grow : ℕ → ℕ) (l : Ledger) : Op → Ledger → List Effect → Prop
  | createBuffer {n start : ℕ} {a : Arena} {es : List Effect}
      (h : Grants grow l.arena n (.small 0) a start es) :
      Step grow l (.createBuffer n) (l.handOut a ⟨start, n, 1⟩) es
  | createAligned {n start : ℕ} {align : Pool.Alignment} {a : Arena} {es : List Effect}
      (h : Grants grow l.arena n align a start es) :
      Step grow l (.createAligned n align) (l.handOut a ⟨start, n, align.value⟩) es
  | createTrivial {n : {n : ℕ // 0 < n}} {start : ℕ} {align : Pool.Alignment} {grows : Bool}
      {a : Arena} {es : List Effect} (h : Grants grow l.arena n.val align a start es) :
      Step grow l (.createObject n align none grows)
        (l.handOut a ⟨start, n.val, align.value⟩) es
  | createObject {n : {n : ℕ // 0 < n}} {start destructor serial : ℕ} {align : Pool.Alignment}
      {grows : Bool} {a : Arena} {es : List Effect}
      (h : Grants grow l.arena n.val align a start es) :
      Step grow l (.createObject n align (some destructor) grows)
        ((l.handOut a ⟨start, n.val, align.value⟩).register ⟨some destructor, start, serial⟩)
        (es ++ [.registered serial start])
  | registerDestructor {destructor pointer serial : ℕ} {grows : Bool} :
      Step grow l (.registerDestructor destructor pointer grows)
        (l.register ⟨some destructor, pointer, serial⟩) [.registered serial pointer]
  | setBlockSize (blockSize : ℕ) :
      Step grow l (.setBlockSize blockSize)
        { l with arena := l.arena.resize (Pool.requested blockSize) } []
  | shrinkNothing (h : l.arena.chain = none) :
      Step grow l .shrinkToFit { l with regions := [], lost := l.lost ++ l.regions } []
  | shrinkFrees {c : Chain} (h : l.arena.chain = some c) (hbefore : c.before = [])
      (hpos : l.arena.pos = 0) :
      Step grow l .shrinkToFit
        ⟨{ l.arena with chain := none }, [], l.lost ++ l.regions, l.cleaners⟩ (freed c.cells)
  | shrinkTrims {c : Chain} (h : l.arena.chain = some c)
      (hused : ¬ (c.before = [] ∧ l.arena.pos = 0)) :
      Step grow l .shrinkToFit
        { l with arena := { l.arena with chain := some { c with after := [] } } } (freed c.after)
  | minNothing {minCapacity : ℕ} (h : l.arena.chain = none) :
      Step grow l (.shrinkToFitMin minCapacity) l []
  | minFrees {a : Arena} {es : List Effect} (h : l.arena.chain ≠ none)
      (hclear : Clears l.arena a es) :
      Step grow l (.shrinkToFitMin 0) ⟨{ a with chain := none }, [], [], []⟩
        (l.cleaners.flatMap Cleaner.run ++ es ++ freed a.cells)
  | minTrims {minCapacity : ℕ} {c : Chain} {kept gone : List Cell} (h : l.arena.chain = some c)
      (hmin : minCapacity ≠ 0) (hafter : c.after = kept ++ gone) :
      Step grow l (.shrinkToFitMin minCapacity)
        { l with arena := { l.arena with chain := some { c with after := kept } } } (freed gone)
  | clear {a : Arena} {es : List Effect} (h : Clears l.arena a es) :
      Step grow l .clear ⟨a, [], [], []⟩ (l.cleaners.flatMap Cleaner.run ++ es)

end StaticMemoryPool
