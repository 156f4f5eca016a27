import CppFreshman.Pool.Usage

/-!
# Allocations made again

Allocations from cells that are all as large as the block size do not compact any cell, and as long
as there are cells they make none.  So requests that have been granted once are granted again from
the cells that were used for them, at the same addresses and without a new cell (`Grantings.replay`);
the pool then does not change its memory (`createAligned_still`, `clear_still`).
-/

namespace StaticMemoryPool

/-- `create_buffer` or `create_aligned_buffer`. -/
inductive Request where
  | createBuffer (n : ℕ)
  | createAligned (n : ℕ) (align : Pool.Alignment)

namespace Request

def op : Request → Op
  | createBuffer n => .createBuffer n
  | createAligned n align => .createAligned n align

/-- The bytes that are asked for. -/
def size : Request → ℕ
  | createBuffer n => n
  | createAligned n _ => n

def align : Request → Pool.Alignment
  | createBuffer _ => .small 0
  | createAligned _ align => align

end Request

/-- The bytes that `create_buffer_internal` is to allocate for a request. -/
def needed (n : ℕ) : Pool.Alignment → ℕ
  | .small _ => n
  | .large k => (n + 2 ^ k.val) % 2 ^ 64

/-- The requests are granted one after the other. -/
inductive Grantings (grow : ℕ → ℕ) :
    Arena → List Request → Arena → List Region → List Effect → Prop
  | nil (a : Arena) : Grantings grow a [] a [] []
  | cons {a a' a'' : Arena} {r : Request} {rs : List Request} {start : ℕ}
      {regions : List Region} {es es' : List Effect}
      (h : Grants grow a r.size r.align a' start es)
      (hrest : Grantings grow a' rs a'' regions es') :
      Grantings grow a (r :: rs) a'' (⟨start, r.size, r.align.value⟩ :: regions) (es ++ es')

/-- The cells in use are as large as the block size. -/
def Chain.Full (c : Chain) (blockSize : ℕ) : Prop :=
  ∀ d, d ∈ c.used → blockSize ≤ d.capacity

/-- An arena with other cells behind the current one. -/
def Arena.setAfter (a : Arena) (after : List Cell) : Arena :=
  { a with chain := a.chain.map fun c => { c with after := after } }

variable {grow : ℕ → ℕ} {m : Memory} {p : Pool} {a a' : Arena} {c c' : Chain} {n start : ℕ}
  {align : Pool.Alignment} {es : List Effect} {after after' : List Cell} {rs : List Request}
  {regions : List Region}

theorem Arena.setAfter_some (blockSize pos : ℕ) (c : Chain) (after : List Cell) :
  Arena.setAfter ⟨blockSize, pos, some c⟩ after =
    ⟨blockSize, pos, some ⟨c.before, c.current, after⟩⟩
  := rfl

theorem Arena.setAfter_self (hc : a.chain = some c) :
  a.setAfter c.after = a
  := by
  obtain ⟨blockSize, pos, chain⟩ := a
  simp only at hc
  rw [hc]
  rfl

theorem Arena.setAfter_chain (hc : a.chain = some c) (after : List Cell) :
  (a.setAfter after).chain = some { c with after := after }
  := by
  rw [setAfter, hc]
  rfl

theorem Arena.setAfter_setPos (a : Arena) (pos : ℕ) (after : List Cell) :
  (a.setPos pos).setAfter after = (a.setAfter after).setPos pos
  := rfl

theorem Arena.pos_setAfter (a : Arena) (after : List Cell) :
  (a.setAfter after).pos = a.pos
  := rfl

theorem Arena.chain_setPos (a : Arena) (pos : ℕ) :
  (a.setPos pos).chain = a.chain
  := rfl

theorem Arena.blockSize_setPos (a : Arena) (pos : ℕ) :
  (a.setPos pos).blockSize = a.blockSize
  := rfl

theorem Arena.giveBack_blockSize (a : Arena) (buffer size align : ℕ) :
  (a.giveBack buffer size align).blockSize = a.blockSize
  := by
  rw [giveBack]
  split
  · rfl
  · split
    · apply blockSize_setPos
    · rfl

theorem Arena.giveBack_chain (a : Arena) (buffer size align : ℕ) :
  (a.giveBack buffer size align).chain = a.chain
  := by
  rw [giveBack]
  split
  · rfl
  · split
    · apply chain_setPos
    · rfl

/-- What is given back does not depend on the cells behind. -/
theorem Arena.giveBack_setAfter (hc : a.chain = some c) (buffer size align : ℕ) (after : List Cell) :
  (a.setAfter after).giveBack buffer size align = (a.giveBack buffer size align).setAfter after
  := by
  have hc' := setAfter_chain hc after
  by_cases hlast : c.current.data + a.pos = buffer + size
  · rw [a.giveBack_pos hc hlast, (a.setAfter after).giveBack_pos hc' hlast, pos_setAfter,
      setAfter_setPos]
  · rw [a.giveBack_self hc hlast, (a.setAfter after).giveBack_self hc' hlast]

/-- An allocation that needs no block of its own is made again, with the cell that it was made
from or moved on to, whatever lies behind. -/
theorem Allocates.replay {align n start : ℕ} (h : Allocates grow align n a c a' start es)
    (hn : n ≤ a.blockSize) (hfull : c.Full a.blockSize) :
  ∃ c' more, a'.chain = some c' ∧ a'.blockSize = a.blockSize ∧ c'.Full a.blockSize ∧
    c'.used = c.used ++ more ∧ ∀ after,
      Allocates grow align n a { c with after := more ++ after } (a'.setAfter after) start []
  := by
  cases h with
  | bump h =>
      refine ⟨c, [], rfl, rfl, hfull, (List.append_nil _).symm, ?_⟩
      intro after
      rw [Arena.setAfter_some]
      exact Allocates.bump (c := ⟨c.before, c.current, after⟩) h
  | @reuse next next' rest rest' es h _ hafter hnext =>
      have hle := hnext.le_capacity
      refine ⟨⟨c.before ++ [c.current], next', rest'⟩, [next'], rfl, rfl, ?_, rfl, ?_⟩
      · intro d hd
        obtain hd | hd := List.mem_append.mp hd
        · apply hfull d hd
        · obtain rfl := List.mem_singleton.mp hd
          apply hle
      · intro after
        rw [Arena.setAfter_some]
        exact Allocates.reuse (c := ⟨c.before, c.current, next' :: after⟩) h hn rfl
          (Compacts.keeps hle)
  | fresh d h _ hafter hd =>
      have hle : a.blockSize ≤ d.capacity := Nat.le_of_eq hd.symm
      refine ⟨⟨c.before ++ [c.current], d, []⟩, [d], rfl, rfl, ?_, rfl, ?_⟩
      · intro e he
        obtain he | he := List.mem_append.mp he
        · apply hfull e he
        · obtain rfl := List.mem_singleton.mp he
          apply hle
      · intro after
        rw [Arena.setAfter_some]
        exact Allocates.reuse (c := ⟨c.before, c.current, d :: after⟩) h hn rfl
          (Compacts.keeps hle)
  | own d h hlt hd => exact absurd hn (Nat.not_le.mpr hlt)

/-- An allocation depends on the numbers of the arena and on the chain. -/
theorem Allocates.congr {b : Arena} {align n start : ℕ}
    (h : Allocates grow align n a c a' start es) (hsize : b.blockSize = a.blockSize)
    (hpos : b.pos = a.pos) :
  Allocates grow align n b c a' start es
  := by
  cases h with
  | bump h =>
      rw [← hsize, ← hpos]
      rw [← hpos] at h
      exact .bump h
  | reuse h hn hafter hnext =>
      rw [← hsize]
      rw [← hpos] at h
      rw [← hsize] at hn hnext
      exact .reuse h hn hafter hnext
  | fresh d h hn hafter hd =>
      rw [← hsize]
      rw [← hpos] at h
      rw [← hsize] at hn hd
      exact .fresh d h hn hafter hd
  | own d h hn hd =>
      rw [← hpos]
      rw [← hpos] at h
      rw [← hsize] at hn
      exact .own d h hn hd

/-- A request that needs no block of its own is granted again. -/
theorem Grants.replay (h : Grants grow a n align a' start es) (hc : a.chain = some c)
    (hn : needed n align ≤ a.blockSize) (hfull : c.Full a.blockSize) :
  ∃ c' more, a'.chain = some c' ∧ a'.blockSize = a.blockSize ∧ c'.Full a.blockSize ∧
    c'.used = c.used ++ more ∧ ∀ after,
      Grants grow (a.setAfter (more ++ after)) n align (a'.setAfter after) start []
  := by
  have hsame : ∀ {c₁ es}, Opens a c₁ es → c₁ = c := by
    intro c₁ es hopen
    cases hopen with
    | has h => exact Option.some.inj (h.symm.trans hc)
    | first d h hd =>
        rw [h] at hc
        cases hc
  cases h with
  | @small k c₁ a' start es es' hopen h =>
      obtain rfl := hsame hopen
      obtain ⟨c', more, hc', hsize, hfull', hused, hagain⟩ := h.replay hn hfull
      refine ⟨c', more, hc', hsize, hfull', hused, ?_⟩
      intro after
      have hopen' := Opens.has (Arena.setAfter_chain hc (more ++ after))
      exact Grants.small hopen' ((hagain after).congr rfl rfl)
  | @large k c₁ a' start es es' hopen h =>
      obtain rfl := hsame hopen
      obtain ⟨c', more, hc', hsize, hfull', hused, hagain⟩ := h.replay hn hfull
      use c', more
      rw [Arena.giveBack_chain, Arena.giveBack_blockSize]
      refine ⟨hc', hsize, hfull', hused, ?_⟩
      intro after
      have hopen' := Opens.has (Arena.setAfter_chain hc (more ++ after))
      rw [← Arena.giveBack_setAfter hc']
      exact Grants.large hopen' ((hagain after).congr rfl rfl)

/-- Requests that need no blocks of their own are granted again, from the cells that have been used
for them. -/
theorem Grantings.replay (h : Grantings grow a rs a' regions es) (hc : a.chain = some c)
    (hn : ∀ r, r ∈ rs → needed r.size r.align ≤ a.blockSize) (hfull : c.Full a.blockSize) :
  ∃ c' more, a'.chain = some c' ∧ a'.blockSize = a.blockSize ∧ c'.Full a.blockSize ∧
    c'.used = c.used ++ more ∧ ∀ after,
      Grantings grow (a.setAfter (more ++ after)) rs (a'.setAfter after) regions []
  := by
  induction h generalizing c with
  | nil a =>
      refine ⟨c, [], hc, rfl, hfull, (List.append_nil _).symm, ?_⟩
      intro after
      apply Grantings.nil
  | @cons a a' a'' r rs start regions es es' h _ ih =>
      obtain ⟨c', more, hc', hsize, hfull', hused, hagain⟩ :=
        h.replay hc (hn r List.mem_cons_self) hfull
      rw [← hsize] at hfull'
      obtain ⟨c'', more', hc'', hsize', hfull'', hused', hagain'⟩ := ih hc' (by
        intro r' hr'
        rw [hsize]
        apply hn r' (List.mem_cons_of_mem r hr')) hfull'
      rw [hsize] at hfull'' hsize'
      refine ⟨c'', more ++ more', hc'', hsize', hfull'', ?_, ?_⟩
      · rw [hused', hused, List.append_assoc]
      · intro after
        rw [List.append_assoc]
        exact Grantings.cons (hagain (more' ++ after)) (hagain' after)

/-! ### Requests that make no cell -/

theorem Cell.made_ne (d : Cell) (es : List Effect) :
  es ++ d.made ≠ []
  := by
  rw [Cell.made]
  apply List.concat_ne_nil

/-- An allocation that makes no cell is from the current one, or goes on to the next. -/
theorem Allocates.still {align n start : ℕ} (h : Allocates grow align n a c a' start []) :
  (n + alignPos align a.pos) % 2 ^ 64 ≤ c.current.capacity ∧
      a' = ⟨a.blockSize, (alignPos align a.pos + n) % 2 ^ 64, some c⟩ ∧
      start = c.current.data + alignPos align a.pos ∨
    c.current.capacity < (n + alignPos align a.pos) % 2 ^ 64 ∧ n ≤ a.blockSize ∧
      ∃ next rest, c.after = next :: rest ∧ a.blockSize ≤ next.capacity ∧
        a' = ⟨a.blockSize, n, some ⟨c.before ++ [c.current], next, rest⟩⟩ ∧ start = next.data
  := by
  generalize hes : ([] : List Effect) = es at h
  cases h with
  | bump h =>
      left
      exact ⟨h, rfl, rfl⟩
  | @reuse next next' rest rest' es h hn hafter hnext =>
      right
      cases hnext with
      | keeps hle => exact ⟨h, hn, next, rest, hafter, hle, rfl, rfl⟩
      | merges hlt hd => exact absurd hes.symm (next'.made_ne _)
  | fresh d h hn hafter hd => exact absurd hes.symm (d.made_ne [])
  | own d h hn hd => exact absurd hes.symm (d.made_ne [])

theorem Opens.still (h : Opens a c []) :
  a.chain = some c
  := by
  generalize hes : ([] : List Effect) = es at h
  cases h with
  | has h => exact h
  | first d h hd => exact absurd hes.symm (d.made_ne [])

theorem Allocates.still_cells {align n start : ℕ} (h : Allocates grow align n a c a' start []) :
  a'.cells = c.cells
  := by
  obtain ⟨-, rfl, -⟩ | ⟨-, -, next, rest, hafter, -, rfl, -⟩ := h.still
  · rfl
  · rw [Arena.cells_of_chain rfl, Chain.cells, Chain.cells, hafter]
    apply List.append_assoc

/-- A request that makes no cell leaves them as they are. -/
theorem Grants.still_cells (h : Grants grow a n align a' start []) :
  a'.cells = a.cells
  := by
  generalize hes : ([] : List Effect) = es at h
  cases h with
  | small hopen h =>
      obtain ⟨rfl, rfl⟩ := List.append_eq_nil_iff.mp hes.symm
      rw [h.still_cells, Arena.cells_of_chain hopen.still]
  | large hopen h =>
      obtain ⟨rfl, rfl⟩ := List.append_eq_nil_iff.mp hes.symm
      rw [Arena.giveBack_cells, h.still_cells, Arena.cells_of_chain hopen.still]

/-! ### The pool does not change its memory -/

/-- A pointer is set to what it is. -/
theorem Memory.setNext_self {x : ℕ} {b : MemoryBlock} (h : m.blocks.lookup x = some b) :
  m.setNext x b.next = .ok m
  := by
  have hsame : m.blocks.insert x { b with next := b.next } = m.blocks := by
    apply Finmap.ext_lookup
    intro y
    by_cases hy : y = x
    · rw [hy, Finmap.lookup_insert, h]
    · rw [Finmap.lookup_insert_of_ne _ hy]
  rw [Memory.setNext_eq h, hsame]

/-- An allocation that makes no cell does not change the memory. -/
theorem allocate_still {align n start : ℕ} (h : Shows m p a) (hc : a.chain = some c)
    (hstill : Allocates grow align n a c a' start []) :
  ∃ p', p.allocate grow m align n = .ok (start, p', m) ∧ Shows m p' a' ∧
    p'.cleaners = p.cleaners
  := by
  obtain ⟨-, hlookup⟩ := h.get_current hc
  have hholds := h.holds
  rw [Arena.cells_of_chain hc] at hholds
  obtain ⟨cleaners, rfl⟩ := h.eq_chain hc
  simp only [Pool.allocate, current, ok_bind, Memory.get_eq hlookup, Cell.block]
  obtain ⟨hfits, rfl, rfl⟩ | ⟨hfull, hn, next, rest, hafter, hle, rfl, rfl⟩ := hstill.still
  · rw [if_pos hfits]
    exact ⟨_, rfl, shows_chain hholds, rfl⟩
  · rw [if_neg (Nat.not_le.mpr hfull), if_pos hn]
    have hnext := hholds
    rw [Chain.cells, hafter] at hnext
    obtain ⟨-, htail, -⟩ := holds_append.mp hnext
    obtain ⟨-, hrest, -⟩ := holds_cons.mp htail
    obtain ⟨hlookup', -, -⟩ := holds_cons.mp hrest
    have hset := Memory.setNext_self hlookup
    simp only [Cell.block] at hset
    rw [hafter, addrs_cons, List.head?_cons] at hset ⊢
    simp only [Pool.nextBlock, compactBlock, Memory.get_eq hlookup', ok_bind, Cell.block]
    rw [if_pos hle, pure_bind]
    simp only
    rw [hset, ok_bind]
    have hcells : (Chain.mk (c.before ++ [c.current]) next rest).cells = c.cells := by
      rw [Chain.cells, Chain.cells, hafter]
      apply List.append_assoc
    rw [← hcells] at hholds ⊢
    exact ⟨_, rfl, shows_chain hholds, rfl⟩

theorem createBufferInternal_still {align n start : ℕ} (h : Shows m p a) (hc : a.chain = some c)
    (hstill : Allocates grow align n a c a' start []) :
  ∃ p', p.createBufferInternal grow m align n = .ok (start, p', m) ∧ Shows m p' a' ∧
    p'.cleaners = p.cleaners
  := by
  obtain ⟨hcurrent, -⟩ := h.get_current hc
  rw [Pool.createBufferInternal, Pool.withBlock, hcurrent, ok_bind]
  apply allocate_still h hc hstill

/-- A request that makes no cell does not change the memory. -/
theorem createAligned_still (h : Shows m p a) (hstill : Grants grow a n align a' start []) :
  ∃ p', p.createAligned grow m n align = .ok (start, p', m) ∧ Shows m p' a' ∧
    p'.cleaners = p.cleaners
  := by
  generalize hes : ([] : List Effect) = es at hstill
  cases hstill with
  | small hopen hallocates =>
      obtain ⟨rfl, rfl⟩ := List.append_eq_nil_iff.mp hes.symm
      apply createBufferInternal_still h hopen.still hallocates
  | @large k c a' start es es' hopen hallocates =>
      obtain ⟨rfl, rfl⟩ := List.append_eq_nil_iff.mp hes.symm
      obtain ⟨p', heq, hshows, hcleaners⟩ := createBufferInternal_still h hopen.still hallocates
      obtain ⟨c', hc'⟩ := hallocates.chain
      obtain ⟨hcurrent, -⟩ := hshows.get_current hc'
      have hdata : c'.current.addr + sizeofBlock = c'.current.data := rfl
      simp only [Pool.createAligned, Pool.createAlignedBuffer, heq, ok_bind, hcurrent, current,
        hshows.pos, hdata]
      split
      · next hlast =>
          have hgives := hshows.setPos (Pool.givenBack a'.pos start (2 ^ k.val))
          rw [← a'.giveBack_pos hc' hlast] at hgives
          exact ⟨_, rfl, hgives, (p'.cleaners_setPos _).trans hcleaners⟩
      · next hlast =>
          have hgives := hshows
          rw [← a'.giveBack_self hc' hlast] at hgives
          exact ⟨_, rfl, hgives, hcleaners⟩

/-- A `clear` that makes no cell and has no cleaners to run does not change the memory. -/
theorem clear_still (h : Shows m p a) (hstill : Clears a a' []) (hcleaners : p.cleaners = []) :
  ∃ p', p.clear m = .ok (p', m) ∧ Shows m p' a' ∧ p'.cleaners = []
  := by
  have hrun : p.runCleaners m = (p, m) := by
    rw [Pool.runCleaners, hcleaners]
    simp only [List.flatMap_nil, List.append_nil]
    rw [← hcleaners]
  rw [Pool.clear, hrun]
  simp only
  generalize hes : ([] : List Effect) = es at hstill
  cases hstill with
  | nothing hc =>
      have hhead := h.head
      have hcurrent := h.currentBlock
      rw [Arena.cells_of_none hc] at hhead
      rw [hc] at hcurrent
      rw [hhead]
      exact ⟨_, rfl, ⟨h.blockSize, rfl, rfl, hcurrent, holds_nil⟩, hcleaners⟩
  | @first c b b' rest rest' es hc hcells hb =>
      cases hb with
      | keeps hle =>
          have hhead := h.head
          have hholds := h.holds
          rw [Arena.cells_of_chain hc, hcells] at hhead hholds
          obtain ⟨hlookup, -, -⟩ := holds_cons.mp hholds
          rw [hhead, addrs_cons, List.head?_cons, h.blockSize]
          simp only [compactBlock, Memory.get_eq hlookup, ok_bind, Cell.block]
          rw [if_pos hle, pure_bind]
          exact ⟨_, rfl, ⟨rfl, rfl, rfl, rfl, hholds⟩, hcleaners⟩
      | merges hlt hd => exact absurd hes.symm (b'.made_ne _)

end StaticMemoryPool
