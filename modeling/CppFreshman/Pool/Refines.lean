import CppFreshman.Pool.Chained

/-!
# The pool refines the chain of cells

Every operation on a pool and the memory its blocks are in does what `Ledger.Step` says of the
cells, or `operator new` does not return the next address (`perform_refines`).  No operation goes
through a pointer to no block and no loop goes on for ever.
-/

namespace StaticMemoryPool

/-- The pool has the arena's numbers and its cells as blocks. -/
structure Shows (m : Memory) (p : Pool) (a : Arena) : Prop where
  blockSize : p.blockSize = a.blockSize
  pos : p.pos = a.pos
  head : p.head = (addrs a.cells).head?
  currentBlock : p.currentBlock = a.chain.map fun c => c.current.addr
  holds : Holds m none a.cells

/-- Something is recorded of destructors, and the blocks stay as they are. -/
structure Records (m m' : Memory) (es : List Effect) : Prop where
  blocks : m'.blocks = m.blocks
  made : m'.made = m.made
  trace : m'.trace = m.trace ++ es
  effects : ∀ e, e ∈ es → ¬ e.IsBlock

/-- The numbers of the destructors that are registered. -/
def registrations (es : List Effect) : List ℕ :=
  es.filterMap fun e =>
    match e with
    | .registered serial _ => some serial
    | _ => none

/-- What an operation does to the memory: as `Replaces`, but destructors are run and registered,
the latter with the numbers that are next. -/
structure Performs (m m' : Memory) (old new : List Cell) (es : List Effect) : Prop where
  sane : m'.Sane
  frame : ∀ x b, m.blocks.lookup x = some b → x ∉ addrs old →
    m'.blocks.lookup x = some b ∧ x ∉ addrs new
  only : ∀ x b, m'.blocks.lookup x = some b → x ∉ addrs new →
    m.blocks.lookup x = some b ∧ x ∉ addrs old
  trace : m'.trace = m.trace ++ es
  registers : ∃ k, registrations es = List.range' m.registered k ∧
    m'.registered = m.registered + k

/-- The member of a run has what the ledger says. -/
structure Represents (m : Memory) (s : Member) (l : Ledger) : Prop where
  shows : Shows m s.pool l.arena
  cleaners : s.pool.cleaners = l.cleaners
  regions : s.regions = l.regions
  lost : s.lost = l.lost

variable {grow : ℕ → ℕ} {m m' m'' : Memory} {p p' : Pool} {a a' : Arena} {c : Chain}
  {s : Member} {l : Ledger} {align n : ℕ} {old mid new : List Cell} {es es' : List Effect}

theorem registrations_append (es es' : List Effect) :
  registrations (es ++ es') = registrations es ++ registrations es'
  := List.filterMap_append

/-- Nothing is registered when blocks are made and destroyed. -/
theorem registrations_blocks (h : ∀ e, e ∈ es → e.IsBlock) :
  registrations es = []
  := by
  apply List.filterMap_eq_nil_iff.mpr
  intro e he
  have hblock := h e he
  cases e with
  | registered => apply hblock.elim
  | _ => rfl

theorem Replaces.performs (h : Replaces m m' old new es) :
  Performs m m' old new es
  := by
  constructor
  · apply h.sane
  · apply h.frame
  · apply h.only
  · apply h.trace
  · use 0, registrations_blocks h.effects, h.registered

theorem Records.performs {cells : List Cell} {k : ℕ} (h : Records m m' es) (hsane : m.Sane)
    (hes : registrations es = List.range' m.registered k)
    (hregistered : m'.registered = m.registered + k) :
  Performs m m' cells cells es
  := by
  constructor
  · apply hsane.record h.blocks h.made h.trace h.effects
  · intro x b hx hnot
    rw [h.blocks]
    use hx, hnot
  · intro x b hx hnot
    rw [h.blocks] at hx
    use hx, hnot
  · apply h.trace
  · use k, hes, hregistered

theorem Records.holds {p : Option ℕ} {cells : List Cell} (h : Records m m' es)
    (hholds : Holds m p cells) :
  Holds m' p cells
  := by
  apply hholds.congr
  intro c hc
  rw [h.blocks]

/-- One thing is done after the other. -/
theorem Performs.trans (h : Performs m m' old mid es) (h' : Performs m' m'' mid new es') :
  Performs m m'' old new (es ++ es')
  := by
  constructor
  · apply h'.sane
  · intro x b hx hnot
    obtain ⟨hx, hnot⟩ := h.frame x b hx hnot
    apply h'.frame x b hx hnot
  · intro x b hx hnot
    obtain ⟨hx, hnot⟩ := h'.only x b hx hnot
    apply h.only x b hx hnot
  · rw [h'.trace, h.trace, List.append_assoc]
  · obtain ⟨k, hes, hk⟩ := h.registers
    obtain ⟨k', hes', hk'⟩ := h'.registers
    use k + k'
    rw [registrations_append, hes, hes', hk', hk, List.range'_append_1, Nat.add_assoc]
    trivial

theorem Arena.cells_of_chain (hc : a.chain = some c) :
  a.cells = c.cells
  := by
  rw [Arena.cells, hc]

theorem Arena.cells_of_none (hc : a.chain = none) :
  a.cells = []
  := by
  rw [Arena.cells, hc]

/-- The current block of a pool is there. -/
theorem Shows.get_current (h : Shows m p a) (hc : a.chain = some c) :
  p.currentBlock = some c.current.addr ∧
    m.blocks.lookup c.current.addr = some (c.current.block (addrs c.after).head?)
  := by
  have hholds := h.holds
  rw [Arena.cells_of_chain hc, Chain.cells] at hholds
  obtain ⟨-, htail, -⟩ := holds_append.mp hholds
  obtain ⟨hlookup, -, -⟩ := holds_cons.mp htail
  constructor
  · rw [h.currentBlock, hc]
    rfl
  · rw [hlookup, Option.or_none]

/-- The first block of a pool. -/
theorem withBlock_spec (hsane : m.Sane) (h : Shows m p a) :
  Yields (p.withBlock m) fun r =>
    ∃ c es, Opens a c es ∧ Shows r.2 r.1 { a with chain := some c } ∧
      Replaces m r.2 a.cells c.cells es ∧ r.1.cleaners = p.cleaners
  := by
  rcases hc : a.chain with _ | c
  · have hcurrent : p.currentBlock = none := by
      rw [h.currentBlock, hc]
      rfl
    have hholds := h.holds
    rw [Arena.cells_of_none hc] at hholds ⊢
    rw [Pool.withBlock, hcurrent]
    apply ((Replaces.refl hsane hholds).create p.blockSize).bind
    rintro ⟨x, m'⟩ ⟨d, rfl, hd, hreplaces⟩
    apply Yields.ok
    use ⟨[], d, []⟩, d.made, .first d hc (hd.trans h.blockSize)
    refine ⟨⟨h.blockSize, h.pos, rfl, rfl, hreplaces.holds⟩, hreplaces, rfl⟩
  · obtain ⟨hcurrent, -⟩ := h.get_current hc
    have hsame : { a with chain := some c } = a := by
      rw [← hc]
    rw [Pool.withBlock, hcurrent]
    apply Yields.ok
    use c, [], .has hc
    rw [hsame, ← Arena.cells_of_chain hc]
    exact ⟨h, Replaces.refl hsane h.holds, rfl⟩

/-- The block that follows the current one is compacted, or it is a new one. -/
theorem nextBlock_spec {after : List Cell} (hsane : m.Sane) (h : Holds m none after) :
  Yields (p.nextBlock m (addrs after).head?) fun r =>
    ∃ d rest es, r.1 = d.addr ∧ Replaces m r.2 after (d :: rest) es ∧
      ((∃ next cells, after = next :: cells ∧ Compacts p.blockSize next cells d rest es) ∨
        after = [] ∧ rest = [] ∧ d.capacity = p.blockSize ∧ es = d.made)
  := by
  cases after with
  | nil =>
      apply ((Replaces.refl hsane h).create p.blockSize).mono
      rintro ⟨x, m'⟩ ⟨d, rfl, hd, hreplaces⟩
      exact ⟨d, [], d.made, rfl, hreplaces, Or.inr ⟨rfl, rfl, hd, rfl⟩⟩
  | cons next cells =>
      apply (compactBlock_spec hsane h).mono
      rintro ⟨x, m'⟩ ⟨d, rest, es, rfl, hcompacts, hreplaces⟩
      exact ⟨d, rest, es, rfl, hreplaces, Or.inl ⟨next, cells, rfl, hcompacts⟩⟩

theorem Chain.head?_advance (c : Chain) (d : Cell) (rest : List Cell) :
  (addrs (c.before ++ c.current :: d :: rest)).head? = (addrs c.cells).head?
  := by
  rw [cells]
  cases c.before <;> rfl

/-- A pool with the numbers of an arena that is not empty. -/
theorem shows_chain {blockSize pos : ℕ} {cleaners : List Cleaner} (hholds : Holds m none c.cells) :
  Shows m ⟨blockSize, pos, (addrs c.cells).head?, some c.current.addr, cleaners⟩
    ⟨blockSize, pos, some c⟩
  := ⟨rfl, rfl, rfl, rfl, hholds⟩

/-- A pool that shows an arena that is not empty has its numbers. -/
theorem Shows.eq_chain (h : Shows m p a) (hc : a.chain = some c) :
  ∃ cleaners, p = ⟨a.blockSize, a.pos, (addrs c.cells).head?, some c.current.addr, cleaners⟩
  := by
  obtain ⟨blockSize, pos, head, currentBlock, cleaners⟩ := p
  obtain ⟨rfl, rfl, rfl, rfl, -⟩ := h
  use cleaners
  rw [Arena.cells_of_chain hc, hc]
  rfl

/-- An allocation from a chain. -/
theorem allocate_spec (hsane : m.Sane) (h : Shows m p { a with chain := some c }) :
  Yields (p.allocate grow m align n) fun r =>
    ∃ a' es, Allocates grow align n a c a' r.1 es ∧ Shows r.2.2 r.2.1 a' ∧
      Replaces m r.2.2 c.cells a'.cells es ∧ r.2.1.cleaners = p.cleaners
  := by
  obtain ⟨-, hlookup⟩ := h.get_current rfl
  have hholds := h.holds
  rw [Arena.cells_of_chain rfl] at hholds
  obtain ⟨cleaners, rfl⟩ := h.eq_chain rfl
  simp only [Pool.allocate, current, ok_bind, Memory.get_eq hlookup, Cell.block]
  split
  · next hfits =>
      apply Yields.ok
      exact ⟨_, [], .bump hfits, shows_chain hholds, Replaces.refl hsane hholds, rfl⟩
  · next hfits =>
      have hfull := Nat.not_le.mp hfits
      split
      · next hn =>
          rw [Chain.cells] at hholds
          obtain ⟨-, htail, -⟩ := holds_append.mp hholds
          obtain ⟨-, hafter, -⟩ := holds_cons.mp htail
          apply (nextBlock_spec hsane hafter).bind
          rintro ⟨y, m₁⟩ ⟨d, rest, es, rfl, hreplaces, hcase⟩
          obtain ⟨m₂, hset, hrelink⟩ := hreplaces.relink hholds
          rw [addrs_cons, List.head?_cons] at hset
          simp only
          rw [hset, ok_bind]
          apply Yields.ok
          have hcells : (Chain.mk (c.before ++ [c.current]) d rest).cells =
              c.before ++ c.current :: d :: rest := by
            simp [Chain.cells]
          have hholds' := hrelink.holds
          rw [← hcells] at hrelink hholds'
          have hallocates : Allocates grow align n a c
              ⟨a.blockSize, n, some ⟨c.before ++ [c.current], d, rest⟩⟩ d.data es := by
            rcases hcase with ⟨next, cells, hafter, hcompacts⟩ | ⟨hafter, rfl, hd, rfl⟩
            · apply Allocates.reuse hfull hn hafter hcompacts
            · apply Allocates.fresh d hfull hn hafter hd
          have hshows : Shows m₂ ⟨a.blockSize, n, (addrs c.cells).head?, some d.addr, cleaners⟩
              ⟨a.blockSize, n, some ⟨c.before ++ [c.current], d, rest⟩⟩ := by
            rw [← c.head?_advance d rest, ← hcells]
            apply shows_chain hholds'
          exact ⟨_, es, hallocates, hshows, hrelink, rfl⟩
      · next hn =>
          apply ((Replaces.refl hsane hholds).push n).bind
          rintro ⟨y, m₁⟩ ⟨d, m₂, rfl, hd, hset, hpush⟩
          simp only
          rw [hset, ok_bind]
          apply Yields.ok
          exact ⟨_, d.made, .own d hfull (Nat.not_le.mp hn) hd,
            shows_chain (c := ⟨d :: c.before, c.current, c.after⟩) hpush.holds, hpush, rfl⟩

/-- `create_buffer_internal` allocates. -/
theorem createBufferInternal_spec (hsane : m.Sane) (h : Shows m p a) :
  Yields (p.createBufferInternal grow m align n) fun r =>
    ∃ c a' es es', Opens a c es ∧ Allocates grow align n a c a' r.1 es' ∧
      Shows r.2.2 r.2.1 a' ∧ Replaces m r.2.2 a.cells a'.cells (es ++ es') ∧
      r.2.1.cleaners = p.cleaners
  := by
  rw [Pool.createBufferInternal]
  apply (withBlock_spec hsane h).bind
  rintro ⟨p₁, m₁⟩ ⟨c, es, hopen, hshows, hreplaces, hcleaners⟩
  apply (allocate_spec hreplaces.sane hshows).mono
  rintro ⟨start, p', m'⟩ ⟨a', es', hallocates, hshows', hreplaces', hcleaners'⟩
  exact ⟨c, a', es, es', hopen, hallocates, hshows', hreplaces.trans hreplaces',
    hcleaners'.trans hcleaners⟩

/-- An arena that something was allocated from is not empty. -/
theorem Allocates.chain {start : ℕ} {es : List Effect}
    (h : Allocates grow align n a c a' start es) :
  ∃ c', a'.chain = some c'
  := by
  apply Option.ne_none_iff_exists'.mp
  cases h <;> apply Option.some_ne_none

theorem Arena.cells_setPos (a : Arena) (pos : ℕ) :
  (a.setPos pos).cells = a.cells
  := rfl

/-- The bytes were the last ones in use. -/
theorem Arena.giveBack_pos (a : Arena) {buffer size align : ℕ} (hc : a.chain = some c)
    (hlast : c.current.data + a.pos = buffer + size) :
  a.giveBack buffer size align = a.setPos (Pool.givenBack a.pos buffer align)
  := by
  rw [giveBack, hc]
  simp only
  rw [if_pos hlast]

/-- The bytes were not the last ones in use. -/
theorem Arena.giveBack_self (a : Arena) {buffer size align : ℕ} (hc : a.chain = some c)
    (hlast : ¬ c.current.data + a.pos = buffer + size) :
  a.giveBack buffer size align = a
  := by
  rw [giveBack, hc]
  simp only
  rw [if_neg hlast]

theorem Arena.giveBack_cells (a : Arena) (buffer size align : ℕ) :
  (a.giveBack buffer size align).cells = a.cells
  := by
  rw [giveBack]
  split
  · rfl
  · split
    · apply cells_setPos
    · rfl

/-- The number of bytes used of the current block is changed. -/
theorem Shows.setPos (h : Shows m p a) (pos : ℕ) :
  Shows m (p.setPos pos) (a.setPos pos)
  := ⟨h.blockSize, rfl, h.head, h.currentBlock, h.holds⟩

/-- The block size is changed. -/
theorem Shows.resize (h : Shows m p a) (blockSize : ℕ) :
  Shows m (p.resize blockSize) (a.resize blockSize)
  := ⟨rfl, h.pos, h.head, h.currentBlock, h.holds⟩

/-- `create_aligned_buffer` gives back what the alignment did not need. -/
theorem createAlignedBuffer_spec (hsane : m.Sane) (h : Shows m p a) :
  Yields (p.createAlignedBuffer grow m n align) fun r =>
    ∃ c a' start es es', Opens a c es ∧
      Allocates grow 1 ((n + align) % 2 ^ 64) a c a' start es' ∧ r.1 = alignUp start align ∧
      Shows r.2.2 r.2.1 (a'.giveBack start ((n + align) % 2 ^ 64) align) ∧
      Replaces m r.2.2 a.cells a'.cells (es ++ es') ∧ r.2.1.cleaners = p.cleaners
  := by
  simp only [Pool.createAlignedBuffer]
  apply (createBufferInternal_spec hsane h).bind
  rintro ⟨start, p', m'⟩ ⟨c, a', es, es', hopen, hallocates, hshows, hreplaces, hcleaners⟩
  obtain ⟨c', hc'⟩ := hallocates.chain
  obtain ⟨hcurrent, -⟩ := hshows.get_current hc'
  have hdata : c'.current.addr + sizeofBlock = c'.current.data := rfl
  simp only at hcurrent hshows
  simp only [hcurrent, current, ok_bind, hshows.pos, hdata]
  split
  · next hlast =>
      have hgives := hshows.setPos (Pool.givenBack a'.pos start align)
      rw [← a'.giveBack_pos hc' hlast] at hgives
      apply Yields.ok
      exact ⟨c, a', start, es, es', hopen, hallocates, rfl, hgives, hreplaces,
        (p'.cleaners_setPos _).trans hcleaners⟩
  · next hlast =>
      have hgives := hshows
      rw [← a'.giveBack_self hc' hlast] at hgives
      apply Yields.ok
      exact ⟨c, a', start, es, es', hopen, hallocates, rfl, hgives, hreplaces, hcleaners⟩

/-- `create_aligned_buffer` grants the bytes. -/
theorem createAligned_spec {align : Pool.Alignment} (hsane : m.Sane) (h : Shows m p a) :
  Yields (p.createAligned grow m n align) fun r =>
    ∃ a' es, Grants grow a n align a' r.1 es ∧ Shows r.2.2 r.2.1 a' ∧
      Replaces m r.2.2 a.cells a'.cells es ∧ r.2.1.cleaners = p.cleaners
  := by
  cases align with
  | small k =>
      apply (createBufferInternal_spec hsane h).mono
      rintro ⟨start, p', m'⟩ ⟨c, a', es, es', hopen, hallocates, hshows, hreplaces, hcleaners⟩
      exact ⟨a', es ++ es', .small hopen hallocates, hshows, hreplaces, hcleaners⟩
  | large k =>
      apply (createAlignedBuffer_spec hsane h).mono
      rintro ⟨_, p', m'⟩ ⟨c, a', start, es, es', hopen, hallocates, rfl, hshows, hreplaces, hcleaners⟩
      rw [← a'.giveBack_cells start ((n + 2 ^ k.val) % 2 ^ 64) (2 ^ k.val)] at hreplaces
      exact ⟨_, es ++ es', .large hopen hallocates, hshows, hreplaces, hcleaners⟩

/-! ### The cleaners -/

/-- What a cleaner does is recorded of its destructor. -/
theorem run_effects (cleaners : List Cleaner) :
  ∀ e, e ∈ cleaners.flatMap Cleaner.run → ¬ e.IsBlock ∧ ∀ n x, e ≠ .registered n x
  := by
  intro e he
  obtain ⟨c, -, he⟩ := List.mem_flatMap.mp he
  rw [Cleaner.run] at he
  split at he
  · obtain rfl := List.mem_singleton.mp he
    exact ⟨id, nofun⟩
  · cases he

theorem registrations_run (cleaners : List Cleaner) :
  registrations (cleaners.flatMap Cleaner.run) = []
  := by
  apply List.filterMap_eq_nil_iff.mpr
  intro e he
  obtain ⟨-, hne⟩ := run_effects cleaners e he
  cases e with
  | registered n x => apply absurd rfl (hne n x)
  | _ => rfl

/-- The cleaners that have been moved from do nothing. -/
theorem run_movedFrom (cleaners : List Cleaner) :
  (cleaners.map Cleaner.movedFrom).flatMap Cleaner.run = []
  := by
  apply List.flatMap_eq_nil_iff.mpr
  intro c hc
  obtain ⟨d, -, rfl⟩ := List.mem_map.mp hc
  rfl

/-- `register_destructor` adds a cleaner. -/
theorem registerDestructor_spec (hsane : m.Sane) (h : Shows m p a) (destructor pointer : ℕ)
    (grows : Bool) :
  Shows (p.registerDestructor m destructor pointer grows).2
      (p.registerDestructor m destructor pointer grows).1 a ∧
    Performs m (p.registerDestructor m destructor pointer grows).2 a.cells a.cells
      [.registered m.registered pointer] ∧
    (p.registerDestructor m destructor pointer grows).1.cleaners =
      p.cleaners ++ [⟨some destructor, pointer, m.registered⟩]
  := by
  have hrecords : Records m (p.registerDestructor m destructor pointer grows).2
      [.registered m.registered pointer] := by
    constructor
    · rfl
    · rfl
    · rw [Pool.registerDestructor]
      have hnone : (if grows then p.cleaners.map Cleaner.movedFrom else []).flatMap Cleaner.run =
          [] := by
        split
        · apply run_movedFrom
        · rfl
      simp only [hnone, List.append_nil]
    · intro e he
      obtain rfl := List.mem_singleton.mp he
      exact id
  refine ⟨⟨h.blockSize, h.pos, h.head, h.currentBlock, hrecords.holds h.holds⟩, ?_, rfl⟩
  apply hrecords.performs (k := 1) hsane
  · rfl
  · rfl

/-- `_cleaners.clear()` runs the destructors. -/
theorem runCleaners_spec (hsane : m.Sane) (h : Shows m p a) :
  Shows (p.runCleaners m).2 (p.runCleaners m).1 a ∧
    Performs m (p.runCleaners m).2 a.cells a.cells (p.cleaners.flatMap Cleaner.run) ∧
    (p.runCleaners m).1.cleaners = []
  := by
  have hrecords : Records m (p.runCleaners m).2 (p.cleaners.flatMap Cleaner.run) := by
    constructor
    · rfl
    · rfl
    · rfl
    · intro e he
      apply (run_effects p.cleaners e he).1
  refine ⟨⟨h.blockSize, h.pos, h.head, h.currentBlock, hrecords.holds h.holds⟩, ?_, rfl⟩
  apply hrecords.performs (k := 0) hsane
  · apply registrations_run
  · rfl

/-- `clear` runs the destructors and compacts the first block. -/
theorem clear_spec (hsane : m.Sane) (h : Shows m p a) :
  Yields (p.clear m) fun r =>
    ∃ a' es, Clears a a' es ∧ Shows r.2 r.1 a' ∧
      Performs m r.2 a.cells a'.cells (p.cleaners.flatMap Cleaner.run ++ es) ∧
      r.1.cleaners = []
  := by
  obtain ⟨hshows, hruns, hnone⟩ := runCleaners_spec hsane h
  rw [Pool.clear]
  generalize p.runCleaners m = r at hshows hruns hnone
  obtain ⟨p₁, m₁⟩ := r
  simp only at hshows hruns hnone ⊢
  have hhead := hshows.head
  rcases hc : a.chain with _ | c
  · have hcells := Arena.cells_of_none hc
    rw [hcells, addrs, List.map_nil, List.head?_nil] at hhead
    rw [hhead]
    apply Yields.ok
    refine ⟨⟨a.blockSize, 0, none⟩, [], .nothing hc, ?_, ?_, hnone⟩
    · exact ⟨hshows.blockSize, rfl, rfl, by rw [hshows.currentBlock, hc, Option.map_none], holds_nil⟩
    · rw [List.append_nil]
      rw [hcells] at hruns ⊢
      apply hruns
  · have hholds := hshows.holds
    rcases hcells : c.cells with _ | ⟨b, rest⟩
    · apply absurd hcells
      simp [Chain.cells]
    · rw [Arena.cells_of_chain hc, hcells] at hhead hholds hruns ⊢
      rw [hhead, addrs_cons, List.head?_cons, hshows.blockSize]
      apply (compactBlock_spec hruns.sane hholds).bind
      rintro ⟨y, m'⟩ ⟨b', rest', es, rfl, hcompacts, hreplaces⟩
      apply Yields.ok
      exact ⟨⟨a.blockSize, 0, some ⟨[], b', rest'⟩⟩, es, .first hc hcells hcompacts,
        ⟨rfl, rfl, rfl, rfl, hreplaces.holds⟩, hruns.trans hreplaces.performs, hnone⟩

/-! ### Shrinking -/

/-- The chain is destroyed from a pointer on. -/
theorem destroy_after {cells : List Cell} (hsane : m.Sane) (h : Holds m none cells) :
  ∃ m', destroyBlocks m.fuel (addrs cells).head? m = .ok m' ∧ Replaces m m' cells [] (freed cells)
  := destroyBlocks_eq hsane h h.length_le

/-- The chain is cut behind the cell `d`. -/
theorem cut_spec {init gone : List Cell} {d : Cell} (hsane : m.Sane)
    (h : Holds m none (init ++ d :: gone)) :
  ∃ m₁ m', destroyBlocks m.fuel (addrs gone).head? m = .ok m₁ ∧
    m₁.setNext d.addr none = .ok m' ∧
    Replaces m m' (init ++ d :: gone) (init ++ [d]) (freed gone)
  := by
  obtain ⟨-, htail, -⟩ := holds_append.mp h
  obtain ⟨-, hgone, -⟩ := holds_cons.mp htail
  obtain ⟨m₁, hdestroy, hfreed⟩ := destroy_after hsane hgone
  obtain ⟨m', hset, hrelink⟩ := hfreed.relink h
  exact ⟨m₁, m', hdestroy, hset, hrelink⟩

/-- The current cell is the first one if there are none before it. -/
theorem Chain.head_eq_current (h : Holds m none c.cells) :
  some c.current.addr = (addrs c.cells).head? ↔ c.before = []
  := by
  rw [cells] at h ⊢
  rcases hbefore : c.before with _ | ⟨d, before⟩
  · simp
  · rw [hbefore] at h
    obtain ⟨-, -, hdisj⟩ := holds_append.mp h
    have hne := hdisj d.addr List.mem_cons_self
    rw [addrs_cons, List.mem_cons, not_or] at hne
    simp only [List.cons_append, addrs_cons, List.head?_cons, Option.some_inj, reduceCtorEq,
      iff_false]
    apply Ne.symm hne.1

/-- `shrink_to_fit` destroys the chain from behind the current block on, or all of it. -/
theorem shrinkToFit_spec (hsane : m.Sane) (h : Shows m p a) :
  a.chain = none ∧ p.shrinkToFit m = .ok (p, m) ∨
    (∃ c m', a.chain = some c ∧ c.before = [] ∧ a.pos = 0 ∧
      p.shrinkToFit m = .ok ({ p with head := none, currentBlock := none }, m') ∧
      Replaces m m' a.cells [] (freed c.cells)) ∨
    ∃ c m', a.chain = some c ∧ ¬ (c.before = [] ∧ a.pos = 0) ∧
      p.shrinkToFit m = .ok (p, m') ∧
      Replaces m m' a.cells (Chain.cells { c with after := [] }) (freed c.after)
  := by
  rw [Pool.shrinkToFit]
  rcases hc : a.chain with _ | c
  · left
    rw [h.currentBlock, hc]
    exact ⟨rfl, rfl⟩
  · right
    obtain ⟨hcurrent, hlookup⟩ := h.get_current hc
    have hholds := h.holds
    have hhead := h.head
    rw [Arena.cells_of_chain hc] at hholds hhead ⊢
    rw [hcurrent, hhead, h.pos]
    simp only [Chain.head_eq_current hholds]
    split
    · next hfirst =>
        obtain ⟨m', hdestroy, hfreed⟩ := destroy_after hsane hholds
        rw [hdestroy]
        exact Or.inl ⟨c, m', rfl, hfirst.1, hfirst.2, rfl, hfreed⟩
    · next hnot =>
        obtain ⟨m₁, m', hdestroy, hset, hcut⟩ := cut_spec hsane hholds
        rw [Memory.get_eq hlookup, ok_bind, Cell.block, hdestroy, ok_bind, hset]
        exact Or.inr ⟨c, m', rfl, hnot, rfl, hcut⟩

/-- The capacity of cells, added to `n`. -/
def sumCapacity (n : ℕ) (cells : List Cell) : ℕ :=
  cells.foldl (fun n c => (n + c.capacity) % 2 ^ 64) n

/-- The capacity of the blocks before the current one is added up. -/
theorem usedCapacity_eq {before after : List Cell} {d : Cell} (capacity fuel : ℕ)
    (h : Holds m none (before ++ d :: after)) (hfuel : before.length < fuel) :
  Pool.usedCapacity d.addr fuel (addrs (before ++ d :: after)).head? capacity m =
    .ok (sumCapacity capacity before)
  := by
  induction before generalizing fuel capacity with
  | nil =>
      obtain ⟨fuel, rfl⟩ := Nat.exists_eq_add_one.mpr hfuel
      rw [List.nil_append, addrs_cons, List.head?_cons, Pool.usedCapacity, if_pos rfl]
      rfl
  | cons b before ih =>
      obtain ⟨fuel, rfl⟩ := Nat.exists_eq_add_one.mpr (Nat.zero_lt_of_lt hfuel)
      rw [List.cons_append] at h ⊢
      obtain ⟨hlookup, htail, hnot⟩ := holds_cons.mp h
      rw [notMem_addrs] at hnot
      rw [addrs_cons, List.head?_cons, Pool.usedCapacity, if_neg hnot.2.1, Memory.get_eq hlookup,
        ok_bind, Cell.block, Option.or_none, ih _ _ htail (Nat.lt_of_succ_lt_succ hfuel)]
      rfl

/-- The chain is kept up to where the capacity is large enough. -/
theorem keptBlock_eq {after : List Cell} {d : Cell} (minCapacity capacity fuel : ℕ)
    (h : Holds m none (d :: after)) (hfuel : after.length < fuel) :
  ∃ kept gone init last, after = kept ++ gone ∧ d :: kept = init ++ [last] ∧
    Pool.keptBlock minCapacity fuel d.addr capacity m =
      .ok (last.addr, sumCapacity capacity kept) ∧
    (gone = [] ∨ minCapacity ≤ sumCapacity capacity kept)
  := by
  induction after generalizing fuel capacity d with
  | nil =>
      obtain ⟨fuel, rfl⟩ := Nat.exists_eq_add_one.mpr hfuel
      obtain ⟨hlookup, -, -⟩ := holds_cons.mp h
      use [], [], [], d, rfl, rfl
      rw [Pool.keptBlock, Memory.get_eq hlookup]
      exact ⟨rfl, Or.inl rfl⟩
  | cons b after ih =>
      obtain ⟨fuel, rfl⟩ := Nat.exists_eq_add_one.mpr (Nat.zero_lt_of_lt hfuel)
      obtain ⟨hlookup, htail, -⟩ := holds_cons.mp h
      obtain ⟨hnext, -, -⟩ := holds_cons.mp htail
      rw [Pool.keptBlock, Memory.get_eq hlookup, ok_bind]
      simp only [Cell.block, addrs_cons, List.head?_cons, Option.some_or]
      split
      · obtain ⟨kept, gone, init, last, rfl, hlast, hkept, hcase⟩ :=
          ih ((capacity + b.capacity) % 2 ^ 64) fuel htail (Nat.lt_of_succ_lt_succ hfuel)
        use b :: kept, gone, d :: init, last, rfl, by rw [hlast]; rfl
        rw [Memory.get_eq hnext]
        exact ⟨hkept, hcase⟩
      · next hlarge =>
          use [], b :: after, [], d, rfl, rfl, rfl
          exact Or.inr (Nat.not_lt.mp hlarge)

/-- `shrink_to_fit(0)` destroys all the blocks after a `clear`. -/
theorem shrinkToFitMin_zero (hsane : m.Sane) (h : Shows m p a) (hc : a.chain = some c) :
  Yields (p.shrinkToFitMin m 0) fun r =>
    ∃ a' es, Clears a a' es ∧ r.1 = 0 ∧ Shows r.2.2 r.2.1 { a' with chain := none } ∧
      Performs m r.2.2 a.cells [] (p.cleaners.flatMap Cleaner.run ++ es ++ freed a'.cells) ∧
      r.2.1.cleaners = []
  := by
  obtain ⟨hcurrent, -⟩ := h.get_current hc
  rw [Pool.shrinkToFitMin, hcurrent]
  simp only [if_true]
  apply (clear_spec hsane h).bind
  rintro ⟨p₁, m₁⟩ ⟨a', es, hclears, hshows, hperforms, hnone⟩
  simp only at hshows hperforms hnone ⊢
  obtain ⟨m', hdestroy, hfreed⟩ := destroy_after hperforms.sane hshows.holds
  rw [hshows.head, hdestroy]
  apply Yields.ok
  exact ⟨a', es, hclears, rfl, ⟨hshows.blockSize, hshows.pos, rfl, rfl, holds_nil⟩,
    hperforms.trans hfreed.performs, hnone⟩

/-- `shrink_to_fit` destroys the blocks that are not needed for the capacity. -/
theorem shrinkToFitMin_spec {minCapacity : ℕ} (hsane : m.Sane) (h : Shows m p a)
    (hc : a.chain = some c) (hmin : minCapacity ≠ 0) :
  ∃ m' kept gone, c.after = kept ++ gone ∧
    p.shrinkToFitMin m minCapacity =
      .ok (sumCapacity (sumCapacity c.current.capacity c.before) kept, p, m') ∧
    Replaces m m' a.cells (Chain.cells { c with after := kept }) (freed gone) ∧
    (gone = [] ∨ minCapacity ≤ sumCapacity (sumCapacity c.current.capacity c.before) kept)
  := by
  obtain ⟨hcurrent, hlookup⟩ := h.get_current hc
  have hholds := h.holds
  have hlength := hholds.length_le
  rw [Arena.cells_of_chain hc] at hholds hlength ⊢
  rw [Chain.cells, List.length_append, List.length_cons] at hlength
  obtain ⟨-, htail, -⟩ := holds_append.mp hholds
  have hused := usedCapacity_eq c.current.capacity (m.fuel + 1) hholds
    (by omega)
  obtain ⟨kept, gone, init, last, hafter, hlast, hkept, hcase⟩ := keptBlock_eq minCapacity
    (sumCapacity c.current.capacity c.before) (m.fuel + 1) htail (by omega)
  have hcells : c.cells = (c.before ++ init) ++ last :: gone := by
    rw [Chain.cells, hafter, ← List.cons_append, hlast]
    simp
  have hcells' : (Chain.mk c.before c.current kept).cells = (c.before ++ init) ++ [last] := by
    rw [Chain.cells, hlast, List.append_assoc]
  rw [hcells] at hholds
  obtain ⟨m₁, m', hdestroy, hset, hcut⟩ := cut_spec hsane hholds
  obtain ⟨-, hend, -⟩ := holds_append.mp hholds
  obtain ⟨hlookup', -, -⟩ := holds_cons.mp hend
  use m', kept, gone, hafter
  rw [Pool.shrinkToFitMin, hcurrent]
  simp only [if_neg hmin]
  rw [Memory.get_eq hlookup, ok_bind, Cell.block, h.head, Arena.cells_of_chain hc, Chain.cells,
    hused, ok_bind, hkept, ok_bind]
  simp only
  rw [Memory.get_eq hlookup', ok_bind, Cell.block, Option.or_none, hdestroy, ok_bind, hset]
  rw [← Chain.cells, hcells, hcells']
  exact ⟨rfl, hcut, hcase⟩

/-- The blocks behind the current one are other ones. -/
theorem Shows.replaceAfter {after : List Cell} (h : Shows m p a) (hc : a.chain = some c)
    (hholds : Holds m' none (Chain.cells { c with after := after })) :
  Shows m' p { a with chain := some { c with after := after } }
  := by
  have hhead := h.head
  have hcurrent := h.currentBlock
  rw [Arena.cells_of_chain hc, Chain.cells] at hhead
  rw [hc] at hcurrent
  constructor
  · apply h.blockSize
  · apply h.pos
  · rw [hhead, Arena.cells_of_chain rfl, Chain.cells]
    cases c.before <;> rfl
  · apply hcurrent
  · apply hholds

/-! ### The operations -/

/-- `create_object` grants the bytes and may add a cleaner. -/
theorem createObject_spec {align : Pool.Alignment} {grows : Bool} (destructor : Option ℕ)
    (hsane : m.Sane) (h : Shows m p a) :
  Yields (p.createObject grow m n align destructor grows) fun r =>
    ∃ a' es, Grants grow a n align a' r.1 es ∧ Shows r.2.2 r.2.1 a' ∧
      match destructor with
      | none => Performs m r.2.2 a.cells a'.cells es ∧ r.2.1.cleaners = p.cleaners
      | some destructor =>
          Performs m r.2.2 a.cells a'.cells (es ++ [.registered m.registered r.1]) ∧
            r.2.1.cleaners = p.cleaners ++ [⟨some destructor, r.1, m.registered⟩]
  := by
  rw [Pool.createObject]
  apply (createAligned_spec hsane h).bind
  rintro ⟨start, p₁, m₁⟩ ⟨a', es, hgrants, hshows, hreplaces, hcleaners⟩
  simp only at hgrants hshows hreplaces hcleaners ⊢
  cases destructor with
  | none =>
      apply Yields.ok
      exact ⟨a', es, hgrants, hshows, hreplaces.performs, hcleaners⟩
  | some destructor =>
      obtain ⟨hshows', hregister, hcleaners'⟩ :=
        registerDestructor_spec hreplaces.sane hshows destructor start grows
      rw [hreplaces.registered] at hregister hcleaners'
      rw [hcleaners] at hcleaners'
      apply Yields.ok
      exact ⟨a', es, hgrants, hshows', hreplaces.performs.trans hregister, hcleaners'⟩

/-- Another block size changes nothing else. -/
theorem resize_refines (hsane : m.Sane) (h : Represents m s l) (blockSize : ℕ) :
  Represents m { s with pool := s.pool.resize blockSize }
      { l with arena := l.arena.resize blockSize } ∧
    Performs m m l.arena.cells (l.arena.resize blockSize).cells []
  := by
  constructor
  · exact ⟨h.shows.resize blockSize, h.cleaners, h.regions, h.lost⟩
  · apply (Replaces.refl hsane h.shows.holds).performs

/-- A region is handed out. -/
theorem handOut_refines {align : Pool.Alignment} (hsane : m.Sane) (h : Represents m s l) (n x : ℕ) :
  Yields (do
      let r ← s.pool.createAligned grow m n align
      pure (s.handOut n x r)) fun r =>
    ∃ a start es, Grants grow l.arena n align a start es ∧
      Represents r.2 r.1 (l.handOut a ⟨start, n, x⟩) ∧
      Performs m r.2 l.arena.cells a.cells es
  := by
  obtain ⟨hshows, hcleaners, hregions, hlost⟩ := h
  apply (createAligned_spec hsane hshows).bind
  rintro r ⟨a, es, hgrants, hshows', hreplaces, hsame⟩
  apply Yields.ok
  refine ⟨a, r.1, es, hgrants, ⟨hshows', hsame.trans hcleaners, ?_, hlost⟩, hreplaces.performs⟩
  rw [Member.handOut, Ledger.handOut, hregions]

/-- Every operation takes a step of the ledger, unless `operator new` does not return the next
address. -/
theorem perform_refines (grow : ℕ → ℕ) (op : Op) (hsane : m.Sane) (h : Represents m s l) :
  Yields (perform grow s m op) fun r =>
    ∃ l' es, l.Step grow op l' es ∧ Represents r.2 r.1 l' ∧
      Performs m r.2 l.arena.cells l'.arena.cells es
  := by
  obtain ⟨hshows, hcleaners, hregions, hlost⟩ := h
  cases op with
  | createBuffer n =>
      apply (handOut_refines hsane ⟨hshows, hcleaners, hregions, hlost⟩ n 1).mono
      rintro r ⟨a, start, es, hgrants, hrep, hperforms⟩
      exact ⟨_, es, .createBuffer hgrants, hrep, hperforms⟩
  | createAligned n align =>
      apply (handOut_refines hsane ⟨hshows, hcleaners, hregions, hlost⟩ n align.value).mono
      rintro r ⟨a, start, es, hgrants, hrep, hperforms⟩
      exact ⟨_, es, .createAligned hgrants, hrep, hperforms⟩
  | createObject n align destructor grows =>
      apply (createObject_spec destructor hsane hshows).bind
      rintro r ⟨a', es, hgrants, hshows', hcase⟩
      apply Yields.ok
      cases destructor with
      | none =>
          refine ⟨_, es, .createTrivial hgrants, ⟨hshows', hcase.2.trans hcleaners, ?_, hlost⟩,
            hcase.1⟩
          rw [Member.handOut, Ledger.handOut, hregions]
      | some destructor =>
          refine ⟨(l.handOut a' ⟨r.1, n.val, align.value⟩).register
            ⟨some destructor, r.1, m.registered⟩, _, .createObject hgrants,
            ⟨hshows', ?_, ?_, hlost⟩, hcase.1⟩
          · rw [Member.handOut, Ledger.register, Ledger.handOut, hcase.2, hcleaners]
          · rw [Member.handOut, Ledger.register, Ledger.handOut, hregions]
  | registerDestructor destructor pointer grows =>
      obtain ⟨hshows', hregister, hadded⟩ :=
        registerDestructor_spec hsane hshows destructor pointer grows
      apply Yields.ok
      refine ⟨l.register ⟨some destructor, pointer, m.registered⟩, _, .registerDestructor,
        ⟨hshows', ?_, hregions, hlost⟩, hregister⟩
      rw [hadded, hcleaners, Ledger.register]
  | setBlockSize blockSize =>
      obtain ⟨hrepresents, hperforms⟩ := resize_refines hsane
        ⟨hshows, hcleaners, hregions, hlost⟩ (Pool.requested blockSize)
      rw [perform, Pool.setBlockSize]
      apply Yields.ok
      exact ⟨_, [], .setBlockSize blockSize, hrepresents, hperforms⟩
  | shrinkToFit =>
      rcases shrinkToFit_spec hsane hshows with ⟨hc, heq⟩ |
        ⟨c, m', hc, hbefore, hpos, heq, hreplaces⟩ | ⟨c, m', hc, hused, heq, hreplaces⟩
      · have hhead : s.pool.head = none := by
          rw [hshows.head, Arena.cells_of_none hc]
          rfl
        simp only [perform, heq, ok_bind, if_pos hhead]
        apply Yields.ok
        refine ⟨_, [], .shrinkNothing hc, ⟨hshows, hcleaners, rfl, ?_⟩,
          (Replaces.refl hsane hshows.holds).performs⟩
        rw [hlost, hregions]
      · simp only [perform, heq, ok_bind, if_true]
        apply Yields.ok
        refine ⟨_, _, .shrinkFrees hc hbefore hpos,
          ⟨⟨hshows.blockSize, hshows.pos, rfl, rfl, holds_nil⟩, hcleaners, rfl, ?_⟩,
          hreplaces.performs⟩
        rw [hlost, hregions]
      · have hhead : s.pool.head ≠ none := by
          rw [hshows.head, Arena.cells_of_chain hc]
          simp [Chain.cells]
        simp only [perform, heq, ok_bind, if_neg hhead]
        apply Yields.ok
        exact ⟨_, _, .shrinkTrims hc hused,
          ⟨hshows.replaceAfter hc hreplaces.holds, hcleaners, hregions, hlost⟩,
          hreplaces.performs⟩
  | shrinkToFitMin minCapacity =>
      rcases hc : l.arena.chain with _ | c
      · have hcurrent : s.pool.currentBlock = none := by
          rw [hshows.currentBlock, hc]
          rfl
        simp only [perform, Pool.shrinkToFitMin, hcurrent, pure_bind]
        rw [if_neg (fun h => h.2 rfl)]
        apply Yields.ok
        exact ⟨l, [], .minNothing hc, ⟨hshows, hcleaners, hregions, hlost⟩,
          (Replaces.refl hsane hshows.holds).performs⟩
      · obtain ⟨hcurrent, -⟩ := hshows.get_current hc
        have hsome : s.pool.currentBlock ≠ none := by
          rw [hcurrent]
          nofun
        rcases Nat.eq_zero_or_pos minCapacity with rfl | hmin
        · apply (shrinkToFitMin_zero hsane hshows hc).bind
          rintro r ⟨a', es, hclears, -, hshows', hperforms, hnone⟩
          have hchain : l.arena.chain ≠ none := by
            rw [hc]
            nofun
          rw [if_pos ⟨rfl, hsome⟩]
          rw [hcleaners] at hperforms
          apply Yields.ok
          exact ⟨_, _, .minFrees hchain hclears, ⟨hshows', hnone, rfl, rfl⟩, hperforms⟩
        · obtain ⟨m', kept, gone, hafter, heq, hreplaces, -⟩ :=
            shrinkToFitMin_spec hsane hshows hc (Nat.ne_of_gt hmin)
          simp only [perform, heq, ok_bind]
          rw [if_neg (fun h => Nat.ne_of_gt hmin h.1)]
          apply Yields.ok
          exact ⟨_, _, .minTrims hc (Nat.ne_of_gt hmin) hafter,
            ⟨hshows.replaceAfter hc hreplaces.holds, hcleaners, hregions, hlost⟩,
            hreplaces.performs⟩
  | clear =>
      apply (clear_spec hsane hshows).bind
      rintro r ⟨a', es, hclears, hshows', hperforms, hnone⟩
      rw [hcleaners] at hperforms
      apply Yields.ok
      exact ⟨_, _, .clear hclears, ⟨hshows', hnone, rfl, rfl⟩, hperforms⟩

end StaticMemoryPool
