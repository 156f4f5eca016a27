import CppFreshman.Machine.Run
import CppFreshman.Pool.Sound

/-!
# Runs of one pool

The machine of one pool: an event is an operation with the addresses that `operator new` returns
in it.  Where a run leads, the pool is a chain of cells again (`run_represents`); and if no sum of
the run has wrapped around, the regions are where they should be (`run_sound`).
-/

namespace StaticMemoryPool

/-- A memory without blocks. -/
def Memory.empty : Memory :=
  ⟨∅, [], [], 0, 0⟩

/-- The operations on one pool. -/
def machine (grow : ℕ → ℕ) : Machine (Member × Memory) (Op × List ℕ) where
  step s e := (perform grow s.1 { s.2 with news := e.2 } e.1).toOption

/-- A new pool. -/
def start (blockSize : ℕ) : Member × Memory :=
  (⟨Pool.new blockSize, [], []⟩, .empty)

/-- The capacity of the current block, or of the one that the first allocation makes. -/
def Pool.currentCapacity (p : Pool) (m : Memory) : ℕ :=
  match p.currentBlock with
  | none => p.blockSize
  | some x =>
      match m.blocks.lookup x with
      | none => 0
      | some b => b.capacity

/-- No sum that the event computes wraps around. -/
def OpFits (grow : ℕ → ℕ) (s : Member × Memory) (e : Op × List ℕ) : Prop :=
  e.1.Fits grow s.1.pool.blockSize s.1.pool.pos (s.1.pool.currentCapacity s.2)

instance {grow : ℕ → ℕ} {s : Member × Memory} {e : Op × List ℕ} :
    Decidable (OpFits grow s e) := by
  unfold OpFits
  infer_instance

/-- The block at `x` has its size, and the region lies in its data. -/
def Memory.HasRegion (m : Memory) (x : ℕ) (r : Region) : Prop :=
  ∃ b, m.blocks.lookup x = some b ∧ b.size = sizeofBlock + b.capacity ∧
    x + sizeofBlock ≤ r.start ∧ r.start + r.size ≤ x + sizeofBlock + b.capacity

/-- The block at `x` is linked from the head of the pool. -/
def Pool.Linked (p : Pool) (m : Memory) (x : ℕ) : Prop :=
  Reaches m.next p.head x

variable {grow : ℕ → ℕ} {m : Memory} {p : Pool} {a : Arena} {c : Chain} {s s' : Member × Memory}
  {l : Ledger} {op : Op} {news : List ℕ} {es : List (Op × List ℕ)} {blockSize x : ℕ} {r : Region}

theorem Memory.Sane.setNews (h : m.Sane) (news : List ℕ) :
  Memory.Sane { m with news := news }
  := ⟨h.aligned, h.apart, h.serial, h.recorded, h.created, h.live, h.gone, h.unborn⟩

theorem Holds.setNews {cells : List Cell} {q : Option ℕ} (h : Holds m q cells) (news : List ℕ) :
  Holds { m with news := news } q cells
  := ⟨h.linked, h.held, h.nodup⟩

theorem Represents.setNews {s : Member} (h : Represents m s l) (news : List ℕ) :
  Represents { m with news := news } s l
  := by
  obtain ⟨⟨hblockSize, hpos, hhead, hcurrent, hholds⟩, hcleaners, hregions, hlost⟩ := h
  exact ⟨⟨hblockSize, hpos, hhead, hcurrent, hholds.setNews news⟩, hcleaners, hregions, hlost⟩

theorem Memory.empty_sane :
  Memory.empty.Sane
  := by
  have hnone : ∀ x b, Memory.empty.blocks.lookup x ≠ some b := by
    intro x b
    rw [Memory.empty, Finmap.lookup_empty]
    nofun
  constructor
  · intro x b hb
    apply absurd hb (hnone x b)
  · intro x y b c hb
    apply absurd hb (hnone x b)
  · intro x y b c hb
    apply absurd hb (hnone x b)
  · intro x b hb
    apply absurd hb (hnone x b)
  · nofun
  · nofun
  · nofun
  · nofun

/-- The ledger of a new pool. -/
def Ledger.new (blockSize : ℕ) : Ledger :=
  ⟨⟨Pool.requested blockSize, 0, none⟩, [], [], []⟩

/-- A new pool has no blocks. -/
theorem new_represents (m : Memory) (blockSize : ℕ) :
  Represents m ⟨Pool.new blockSize, [], []⟩ (Ledger.new blockSize)
  := by
  rw [Ledger.new, Pool.new, Pool.setBlockSize]
  generalize Pool.requested blockSize = size
  exact ⟨⟨rfl, rfl, rfl, rfl, holds_nil⟩, rfl, rfl, rfl⟩

theorem start_represents (blockSize : ℕ) :
  Represents (start blockSize).2 (start blockSize).1 (Ledger.new blockSize)
  := new_represents .empty blockSize

/-- A step of the machine is a step of the ledger. -/
theorem step_represents (hsane : s.2.Sane) (h : Represents s.2 s.1 l)
    (hstep : (machine grow).step s (op, news) = some s') :
  ∃ l' es, l.Step grow op l' es ∧ Represents s'.2 s'.1 l' ∧
    Performs { s.2 with news := news } s'.2 l.arena.cells l'.arena.cells es
  := by
  have hyields := perform_refines grow op (hsane.setNews news) (h.setNews news)
  rw [machine] at hstep
  simp only at hstep
  rcases hyields with hbad | ⟨r, hok, hr⟩
  · rw [hbad] at hstep
    cases hstep
  · rw [hok] at hstep
    obtain rfl := Option.some.inj hstep
    exact hr

/-- The pool is a chain of cells in every state that is reached. -/
theorem run_represents (hrun : (machine grow).run (start blockSize) es = some s) :
  s.2.Sane ∧ ∃ l, Represents s.2 s.1 l
  := by
  apply (machine grow).run_invariant (I := fun s => s.2.Sane ∧ ∃ l, Represents s.2 s.1 l) _ hrun
  · exact ⟨Memory.empty_sane, _, start_represents blockSize⟩
  · rintro t ⟨op, news⟩ u ⟨hsane, l, hrep⟩ hstep
    obtain ⟨l', es, -, hrep', hperforms⟩ := step_represents hsane hrep hstep
    exact ⟨hperforms.sane, l', hrep'⟩

theorem Represents.currentCapacity {s : Member} (h : Represents m s l) :
  s.pool.currentCapacity m = l.arena.currentCapacity
  := by
  rw [Pool.currentCapacity, Arena.currentCapacity]
  rcases hc : l.arena.chain with _ | c
  · rw [h.shows.currentBlock, hc, Option.map_none]
    apply h.shows.blockSize
  · obtain ⟨hcurrent, hlookup⟩ := h.shows.get_current hc
    rw [hcurrent]
    simp only [hlookup]
    rfl

/-- What the sums of an event depend on. -/
theorem Represents.fits {s : Member} (h : Represents m s l) :
  OpFits grow (s, m) (op, news) ↔ l.arena.OpFits grow op
  := by
  rw [OpFits, Arena.OpFits, h.shows.blockSize, h.shows.pos, h.currentCapacity]

/-- The state is that of a sound ledger. -/
def InOrder (s : Member × Memory) : Prop :=
  s.2.Sane ∧ ∃ l, Represents s.2 s.1 l ∧ l.arena.Ok ∧ l.Sound

theorem start_inOrder (hnew : blockSize + 4095 < 2 ^ 64) :
  InOrder (start blockSize)
  := by
  refine ⟨Memory.empty_sane, _, start_represents blockSize, ?_, ?_⟩
  · exact ⟨requested_lt hnew, nofun, nofun, fun _ => rfl⟩
  · exact ⟨nofun, nofun, List.Pairwise.nil, nofun⟩

/-- An operation in which no sum wraps around keeps the state in order. -/
theorem step_inOrder (h : InOrder s) (hfits : OpFits grow s (op, news))
    (hstep : (machine grow).step s (op, news) = some s') :
  InOrder s'
  := by
  obtain ⟨hsane, l, hrep, hok, hsound⟩ := h
  obtain ⟨l', es, hstep', hrep', hperforms⟩ := step_represents hsane hrep hstep
  have hlaid := hrep'.shows.holds.laid hperforms.sane
  obtain ⟨hok', hsound'⟩ := hstep'.sound (hrep.fits.mp hfits) hok hsound hlaid
  exact ⟨hperforms.sane, l', hrep', hok', hsound'⟩

/-- The states of a run in which no sum wraps around are in order. -/
theorem run_inOrder (hnew : blockSize + 4095 < 2 ^ 64)
    (hfits : (machine grow).Steps (OpFits grow) (start blockSize) es) :
  (machine grow).Along InOrder (start blockSize) es
  := by
  apply Machine.run_invariant_of_steps _ hfits (start_inOrder hnew)
  rintro t ⟨op, news⟩ u hinv hfit hstep
  apply step_inOrder hinv hfit hstep

/-- The cells of the pool are linked from its head. -/
theorem Shows.linked (h : Shows m p a) (hc : a.chain = some c) {d : Cell} (hd : d ∈ c.cells) :
  p.Linked m d.addr
  := by
  have hlinked := h.holds.linked
  rw [Pool.Linked, h.head, hlinked.reaches_iff, Arena.cells_of_chain hc]
  apply List.mem_map_of_mem hd

/-- A region within a cell of the pool lies in the data of its block. -/
theorem Shows.hasRegion (h : Shows m p a) (hok : a.Ok) (hc : a.chain = some c) {d : Cell}
    (hd : d ∈ c.cells) (hr : r.Within d) :
  m.HasRegion d.addr r
  := by
  rw [← Arena.cells_of_chain hc] at hd
  obtain ⟨next, hlookup⟩ := h.holds.held d hd
  use d.block next, hlookup, Nat.mod_eq_of_lt (hok.fits d hd), hr.1, hr.2

/-- The current cell is not among those before it. -/
theorem Shows.before_ne (h : Shows m p a) (hc : a.chain = some c) {d : Cell} (hd : d ∈ c.before) :
  d.addr ≠ c.current.addr
  := by
  have hholds := h.holds
  rw [Arena.cells_of_chain hc] at hholds
  obtain ⟨-, -, hdisj⟩ := holds_append.mp hholds
  intro heq
  apply hdisj d.addr (List.mem_map_of_mem hd)
  rw [heq]
  exact List.mem_cons_self

/-- The regions are in the data of blocks of the pool, and those in the current block are in the
part of it that is in use. -/
theorem InOrder.region (h : InOrder s) (hr : r ∈ s.1.regions) :
  ∃ x, s.1.pool.Linked s.2 x ∧ s.2.HasRegion x r ∧
    (s.1.pool.currentBlock = some x → r.start + r.size ≤ x + sizeofBlock + s.1.pool.pos)
  := by
  obtain ⟨-, l, hrep, hok, hsound⟩ := h
  obtain ⟨hshows, -, hregions, -⟩ := hrep
  rw [hregions] at hr
  obtain ⟨c, hc, hplaced⟩ := hsound.placed r hr
  obtain ⟨hcurrent, -⟩ := hshows.get_current hc
  rw [hcurrent, hshows.pos]
  obtain ⟨d, hd, hwithin⟩ | ⟨hwithin, hlimit⟩ := hplaced
  · have hmem : d ∈ c.cells := Chain.mem_cells.mpr (Or.inl (List.mem_append_left _ hd))
    use d.addr, hshows.linked hc hmem, hshows.hasRegion hok hc hmem hwithin
    intro heq
    apply absurd (Option.some.inj heq).symm (hshows.before_ne hc hd)
  · use c.current.addr, hshows.linked hc c.current_mem,
      hshows.hasRegion hok hc c.current_mem hwithin
    intro
    apply hlimit

/-- The regions handed out have no byte in common and begin at multiples of their alignments, and
they are in the data of blocks of the pool; the empty ones that were handed out before all the
blocks were freed are not. -/
theorem handedOut_apart (hnew : blockSize + 4095 < 2 ^ 64)
    (hrun : (machine grow).run (start blockSize) es = some s)
    (hfits : (machine grow).Steps (OpFits grow) (start blockSize) es) :
  (s.1.lost ++ s.1.regions).Pairwise Region.Apart ∧
    (∀ r, r ∈ s.1.lost ++ s.1.regions → r.align ∣ r.start) ∧
    (∀ r, r ∈ s.1.regions → ∃ x, s.1.pool.Linked s.2 x ∧ s.2.HasRegion x r) ∧
    ∀ r, r ∈ s.1.lost → r.size = 0
  := by
  have hinv := (run_inOrder hnew hfits).last hrun
  have hplaced : ∀ r, r ∈ s.1.regions → ∃ x, s.1.pool.Linked s.2 x ∧ s.2.HasRegion x r := by
    intro r hr
    obtain ⟨x, hlinked, hregion, -⟩ := hinv.region hr
    exact ⟨x, hlinked, hregion⟩
  obtain ⟨-, l, hrep, -, hsound⟩ := hinv
  rw [hrep.lost, hrep.regions] at *
  exact ⟨hsound.apart, hsound.aligned, hplaced, hsound.empty⟩

/-- A pool with blocks of 64 bytes, from which bytes are allocated in every way there is. -/
def mixedRun : List (Op × List ℕ) :=
  [(.createBuffer 10, [4096]), (.createAligned 8 (.small 3), []),
    (.createAligned 5 (.large 5), [8192]), (.createBuffer 100, [12288]), (.createBuffer 0, []),
    (.shrinkToFit, [])]

theorem handedOut_apart_mixedRun :
  ∃ s, (machine (· * 11 / 10)).run (start 64) mixedRun = some s ∧
    (s.1.lost ++ s.1.regions).Pairwise Region.Apart ∧
    (∀ r, r ∈ s.1.lost ++ s.1.regions → r.align ∣ r.start) ∧
    (∀ r, r ∈ s.1.regions → ∃ x, s.1.pool.Linked s.2 x ∧ s.2.HasRegion x r) ∧
    ∀ r, r ∈ s.1.lost → r.size = 0
  := by
  have hsome : ((machine (· * 11 / 10)).run (start 64) mixedRun).isSome := by decide +kernel
  obtain ⟨s, hs⟩ := Option.isSome_iff_exists.mp hsome
  exact ⟨s, hs, handedOut_apart (by decide) hs (by decide +kernel)⟩

/-- An empty region, whose block is freed. -/
theorem emptyRegion_not_linked :
  ∃ s r, (machine (· * 11 / 10)).run (start 64) [(.createBuffer 0, [4096]), (.shrinkToFit, [])] =
      some s ∧
    (machine (· * 11 / 10)).Steps (OpFits (· * 11 / 10)) (start 64)
      [(.createBuffer 0, [4096]), (.shrinkToFit, [])] ∧
    r ∈ s.1.lost ++ s.1.regions ∧ ∀ x, ¬ s.1.pool.Linked s.2 x
  := by
  have hrun : ((machine (· * 11 / 10)).run (start 64)
      [(.createBuffer 0, [4096]), (.shrinkToFit, [])]).any fun s =>
        decide (⟨4112, 0, 1⟩ ∈ s.1.lost ++ s.1.regions ∧ s.1.pool.head = none) := by
    decide +kernel
  obtain ⟨s, hs, h⟩ := Option.any_eq_true _ _ |>.mp hrun
  obtain ⟨hregion, hhead⟩ := of_decide_eq_true h
  refine ⟨s, ⟨4112, 0, 1⟩, hs, by decide +kernel, hregion, ?_⟩
  intro x hx
  rw [Pool.Linked, hhead] at hx
  cases hx

/-- As long as no sum wraps around, an allocation returns bytes in the data of one block, and the
position is never below the end of a region of the current block. -/
theorem handedOut_contained (hnew : blockSize + 4095 < 2 ^ 64)
    (hfits : (machine grow).Steps (OpFits grow) (start blockSize) es) :
  (machine grow).Along
    (fun s => ∀ r, r ∈ s.1.regions →
      ∃ x, s.1.pool.Linked s.2 x ∧ s.2.HasRegion x r ∧
        (s.1.pool.currentBlock = some x → r.start + r.size ≤ x + sizeofBlock + s.1.pool.pos))
    (start blockSize) es
  := by
  intro fs t hfs ht r hr
  apply (run_inOrder hnew hfits fs t hfs ht).region hr

theorem handedOut_contained_mixedRun :
  (machine (· * 11 / 10)).Along
    (fun s => ∀ r, r ∈ s.1.regions →
      ∃ x, s.1.pool.Linked s.2 x ∧ s.2.HasRegion x r ∧
        (s.1.pool.currentBlock = some x → r.start + r.size ≤ x + sizeofBlock + s.1.pool.pos))
    (start 64) mixedRun
  := handedOut_contained (by decide) (by decide +kernel)

/-- The sum of the position and a size close to `2 ^ 64` wraps around. -/
theorem wrappedSum_not_contained :
  ¬ (machine (· * 11 / 10)).Along
    (fun s => ∀ r, r ∈ s.1.regions →
      ∃ x, s.1.pool.Linked s.2 x ∧ s.2.HasRegion x r ∧
        (s.1.pool.currentBlock = some x → r.start + r.size ≤ x + sizeofBlock + s.1.pool.pos))
    (start 64) [(.createBuffer 8, [4096]), (.createBuffer (2 ^ 64 - 8), [])]
  := by
  intro halong
  have hrun : ((machine (· * 11 / 10)).run (start 64)
      [(.createBuffer 8, [4096]), (.createBuffer (2 ^ 64 - 8), [])]).any fun s =>
        decide (⟨4120, 2 ^ 64 - 8, 1⟩ ∈ s.1.regions) := by
    decide +kernel
  obtain ⟨s, hs, h⟩ := Option.any_eq_true _ _ |>.mp hrun
  obtain ⟨hsane, -⟩ := run_represents hs
  obtain ⟨x, -, ⟨b, hb, hsize, -, hend⟩, -⟩ := halong.last hs _ (of_decide_eq_true h)
  obtain ⟨-, -, hle⟩ := hsane.aligned x b hb
  simp only at hend
  omega

end StaticMemoryPool
