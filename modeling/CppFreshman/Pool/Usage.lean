import CppFreshman.Heap.Intervals
import CppFreshman.Pool.Runs

/-!
# What is used of the blocks

`contain`, `size` and `capacity`, and what `shrink_to_fit` releases.  The position lies in the
current block as long as no request for more than the block size is aligned past the end of it
(`Op.InBlock`); then `contain` and `size` are right (`usage_right`).
-/

namespace StaticMemoryPool

variable {grow : ℕ → ℕ} {m m' : Memory} {p : Pool} {a a' : Arena} {c c' : Chain}
  {s s' : Member × Memory} {l l' : Ledger} {es : List Effect} {r : Region} {align n buffer : ℕ}

/-! ### The loops -/

/-- The address is one of a byte of the data of the cell. -/
def Cell.Contains (c : Cell) (address : ℕ) : Prop :=
  c.data ≤ address ∧ address < c.limit

instance {c : Cell} {address : ℕ} : Decidable (c.Contains address) := by
  unfold Cell.Contains
  infer_instance

/-- The first cell of a chain is not one of those that follow. -/
theorem Holds.head_ne {b : Cell} {before rest : List Cell}
    (h : Holds m none (b :: before ++ rest)) :
  some b.addr ≠ (addrs rest).head?
  := by
  intro heq
  rw [List.cons_append] at h
  obtain ⟨-, -, hnot⟩ := holds_cons.mp h
  apply hnot
  rw [addrs, List.map_append]
  apply List.mem_append_right
  apply List.mem_of_head? heq.symm

/-- The loop of `size` adds up the capacities of the blocks before `rest`. -/
theorem sizeLoop_eq {before rest : List Cell} (fuel size : ℕ) (h : Holds m none (before ++ rest))
    (hfuel : before.length ≤ fuel) :
  Pool.sizeLoop (addrs rest).head? fuel (addrs (before ++ rest)).head? size m =
    .ok (sumCapacity size before)
  := by
  induction before generalizing fuel size with
  | nil =>
      rw [List.nil_append, Pool.sizeLoop.eq_def, if_pos rfl]
      rfl
  | cons b before ih =>
      obtain ⟨fuel, rfl⟩ := Nat.exists_eq_add_one.mpr (Nat.zero_lt_of_lt hfuel)
      have hne := h.head_ne
      rw [List.cons_append] at h ⊢
      obtain ⟨hlookup, htail, -⟩ := holds_cons.mp h
      rw [addrs_cons, List.head?_cons, Pool.sizeLoop, if_neg hne,
        Memory.get_eq hlookup, ok_bind, Cell.block, Option.or_none,
        ih _ _ htail (Nat.le_of_succ_le_succ hfuel)]
      rfl

/-- The loop of `contain` looks at the blocks before `rest`. -/
theorem containLoop_eq {before rest : List Cell} (fuel address : ℕ)
    (h : Holds m none (before ++ rest)) (hfuel : before.length ≤ fuel) :
  Pool.containLoop (addrs rest).head? address fuel (addrs (before ++ rest)).head? m =
    .ok (before.any fun d => decide (d.Contains address))
  := by
  induction before generalizing fuel with
  | nil =>
      rw [List.nil_append, Pool.containLoop.eq_def, if_pos rfl]
      rfl
  | cons b before ih =>
      obtain ⟨fuel, rfl⟩ := Nat.exists_eq_add_one.mpr (Nat.zero_lt_of_lt hfuel)
      have hne := h.head_ne
      rw [List.cons_append] at h ⊢
      obtain ⟨hlookup, htail, -⟩ := holds_cons.mp h
      rw [addrs_cons, List.head?_cons, Pool.containLoop, if_neg hne,
        Memory.get_eq hlookup, ok_bind, Cell.block, Option.or_none, List.any_cons]
      simp only
      split
      · next hin =>
          have hcontains : b.Contains address := hin
          rw [decide_eq_true hcontains]
          rfl
      · next hout =>
          have hnot : ¬ b.Contains address := hout
          rw [ih _ htail (Nat.le_of_succ_le_succ hfuel), decide_eq_false hnot, Bool.false_or]

/-- An address that `contain` finds is in a cell before the current one, or in the part of that
which is in use. -/
theorem contain_eq (h : Shows m p a) (hc : a.chain = some c) (address : ℕ) :
  p.contain m address = .ok (decide ((∃ d, d ∈ c.before ∧ d.Contains address) ∨
    c.current.data ≤ address ∧ address < c.current.data + a.pos))
  := by
  obtain ⟨hcurrent, -⟩ := h.get_current hc
  have hholds := h.holds
  have hlength := h.holds.length_le
  rw [Arena.cells_of_chain hc, Chain.cells] at hholds hlength
  rw [List.length_append] at hlength
  have hloop := containLoop_eq m.fuel address hholds (by omega)
  rw [addrs_cons, List.head?_cons] at hloop
  rw [Pool.contain, hcurrent, h.head, Arena.cells_of_chain hc, Chain.cells, hloop, ok_bind, h.pos]
  split
  · next hany =>
      have hbefore : ∃ d, d ∈ c.before ∧ d.Contains address := by
        simpa using hany
      rw [decide_eq_true (Or.inl hbefore)]
      rfl
  · next hnone =>
      have hbefore : ¬ ∃ d, d ∈ c.before ∧ d.Contains address := by
        simpa using hnone
      simp only [hbefore, false_or]
      rfl

theorem contain_none (h : Shows m p a) (hc : a.chain = none) (address : ℕ) :
  p.contain m address = .ok false
  := by
  have hcurrent : p.currentBlock = none := by
    rw [h.currentBlock, hc, Option.map_none]
  have hhead : p.head = none := by
    rw [h.head, Arena.cells_of_none hc]
    rfl
  rw [Pool.contain, hcurrent, hhead, Pool.containLoop.eq_def, if_pos rfl]
  rfl

/-- The number of bytes used. -/
theorem size_eq (h : Shows m p a) (hc : a.chain = some c) :
  p.size m = .ok (sumCapacity a.pos c.before)
  := by
  obtain ⟨hcurrent, -⟩ := h.get_current hc
  have hholds := h.holds
  have hlength := h.holds.length_le
  rw [Arena.cells_of_chain hc, Chain.cells] at hholds hlength
  rw [List.length_append] at hlength
  have hloop := sizeLoop_eq m.fuel a.pos hholds (by omega)
  rw [addrs_cons, List.head?_cons] at hloop
  rw [Pool.size, hcurrent, h.head, Arena.cells_of_chain hc, h.pos, Chain.cells, hloop]

theorem size_none (h : Shows m p a) (hc : a.chain = none) :
  p.size m = .ok a.pos
  := by
  have hcurrent : p.currentBlock = none := by
    rw [h.currentBlock, hc, Option.map_none]
  have hhead : p.head = none := by
    rw [h.head, Arena.cells_of_none hc]
    rfl
  rw [Pool.size, hcurrent, hhead, Pool.sizeLoop.eq_def, if_pos rfl, h.pos]

/-- The number of bytes there are. -/
theorem capacity_eq (h : Shows m p a) :
  p.capacity m = .ok (sumCapacity 0 a.cells)
  := by
  have hholds := h.holds
  rw [← List.append_nil a.cells] at hholds
  have hloop := sizeLoop_eq m.fuel 0 hholds h.holds.length_le
  rw [List.append_nil] at hloop
  rw [Pool.capacity, h.head]
  apply hloop

/-! ### The bytes in use -/

/-- The capacity of cells. -/
def totalCapacity (cells : List Cell) : ℕ :=
  (cells.map Cell.capacity).sum

theorem totalCapacity_cons (d : Cell) (cells : List Cell) :
  totalCapacity (d :: cells) = d.capacity + totalCapacity cells
  := by
  rw [totalCapacity, List.map_cons, List.sum_cons, totalCapacity]

theorem sumCapacity_eq {cells : List Cell} (h : n + totalCapacity cells < 2 ^ 64) :
  sumCapacity n cells = n + totalCapacity cells
  := by
  induction cells generalizing n with
  | nil => rfl
  | cons c cells ih =>
      rw [totalCapacity_cons, ← Nat.add_assoc] at h ⊢
      have hstep : sumCapacity n (c :: cells) =
          sumCapacity ((n + c.capacity) % 2 ^ 64) cells := rfl
      rw [hstep, Nat.mod_eq_of_lt (Nat.lt_of_le_of_lt (Nat.le_add_right _ _) h)]
      apply ih h

/-- The capacity of cells that do not overlap is less than the address space. -/
theorem Laid.totalCapacity_lt {cells : List Cell} (h : Laid cells) :
  totalCapacity cells < 2 ^ 64
  := by
  have hsum : totalCapacity cells ≤ 2 ^ 64 - sizeofBlock := by
    apply sum_le_of_pairwise Cell.addr
    · apply h.apart.imp
      intro c d hcd
      simp only [Cell.Apart, Cell.limit, Cell.data] at hcd
      omega
    · intro c hc
      have := h.bounded c hc
      simp only [Cell.limit, Cell.data] at this
      omega
  rw [sizeofBlock] at hsum
  omega

/-- The number of bytes that are in use with `pos` bytes of the current cell. -/
def Chain.usage (c : Chain) (pos : ℕ) : ℕ :=
  pos + totalCapacity c.before

/-- The number of bytes in use of an arena. -/
def Arena.usage (a : Arena) : ℕ :=
  match a.chain with
  | none => a.pos
  | some c => c.usage a.pos

/-- The position lies in the current cell. -/
def Arena.Tight (a : Arena) : Prop :=
  ∀ c, a.chain = some c → a.pos ≤ c.current.capacity

/-- A request for more than the block size is not aligned past the end of the current block. -/
def Op.InBlock (blockSize pos capacity : ℕ) : Op → Prop
  | .createAligned n (.small k) => n ≤ blockSize ∨ alignPos (2 ^ k.val) pos ≤ capacity
  | .createObject n (.small k) _ _ => n.val ≤ blockSize ∨ alignPos (2 ^ k.val) pos ≤ capacity
  | _ => True

instance {blockSize pos capacity : ℕ} : ∀ op, Decidable (Op.InBlock blockSize pos capacity op)
  | .createBuffer _ => isTrue trivial
  | .createAligned n (.small k) =>
      inferInstanceAs (Decidable (n ≤ blockSize ∨ alignPos (2 ^ k.val) pos ≤ capacity))
  | .createAligned _ (.large _) => isTrue trivial
  | .createObject n (.small k) _ _ =>
      inferInstanceAs (Decidable (n.val ≤ blockSize ∨ alignPos (2 ^ k.val) pos ≤ capacity))
  | .createObject _ (.large _) _ _ => isTrue trivial
  | .registerDestructor _ _ _ => isTrue trivial
  | .setBlockSize _ => isTrue trivial
  | .shrinkToFit => isTrue trivial
  | .shrinkToFitMin _ => isTrue trivial
  | .clear => isTrue trivial

/-- The position lies in the current cell, and the regions are no more than what is in use. -/
structure Ledger.InUse (l : Ledger) : Prop where
  tight : l.arena.Tight
  total : ((l.lost ++ l.regions).map Region.size).sum ≤ l.arena.usage

theorem Opens.usage (hopen : Opens a c es) :
  a.usage = c.usage a.pos
  := by
  cases hopen with
  | has hc => rw [Arena.usage, hc]
  | first d hnone hd =>
      rw [Arena.usage, hnone]
      rfl

theorem Opens.tight (hopen : Opens a c es) (hok : a.Ok) (h : a.Tight) :
  a.pos ≤ c.current.capacity
  := by
  cases hopen with
  | has hc => apply h c hc
  | first d hnone hd =>
      rw [hok.pos_eq hnone]
      apply Nat.zero_le

theorem Arena.tight_some {blockSize pos : ℕ} (h : pos ≤ c.current.capacity) :
  Arena.Tight ⟨blockSize, pos, some c⟩
  := by
  intro c' hc'
  obtain rfl := Option.some.inj hc'
  exact h

theorem totalCapacity_append (cells cells' : List Cell) :
  totalCapacity (cells ++ cells') = totalCapacity cells + totalCapacity cells'
  := by
  rw [totalCapacity, List.map_append, List.sum_append]
  rfl

/-- An allocation of `n` bytes uses at least `n` bytes more. -/
theorem Allocates.usage (h : Allocates grow align n a c a' buffer es) (hsmall : IsSmall align)
    (hsum : n + alignPos align a.pos < 2 ^ 64) (hpos : a.pos + 7 < 2 ^ 64)
    (htight : a.pos ≤ c.current.capacity)
    (hblock : n ≤ a.blockSize ∨ alignPos align a.pos ≤ c.current.capacity) :
  a'.Tight ∧ c.usage a.pos + n ≤ a'.usage
  := by
  have hle := le_alignPos hsmall hpos
  have hadvance : ∀ {next : Cell} {rest : List Cell},
      c.usage a.pos + n ≤ (Chain.mk (c.before ++ [c.current]) next rest).usage n := by
    intro next rest
    rw [Chain.usage, Chain.usage, totalCapacity_append]
    have : totalCapacity [c.current] = c.current.capacity := Nat.add_zero _
    omega
  cases h with
  | bump h =>
      rw [Nat.mod_eq_of_lt hsum] at h
      rw [Nat.add_comm] at hsum
      rw [Nat.mod_eq_of_lt hsum]
      constructor
      · apply Arena.tight_some
        omega
      · rw [Arena.usage]
        simp only [Chain.usage]
        omega
  | reuse h hn hafter hnext =>
      constructor
      · apply Arena.tight_some
        apply hn.trans hnext.le_capacity
      · apply hadvance
  | fresh d h hn hafter hd =>
      constructor
      · apply Arena.tight_some
        apply hn.trans (Nat.le_of_eq hd.symm)
      · apply hadvance
  | own d h hn hd =>
      constructor
      · apply Arena.tight_some
        rcases hblock with hblock | hblock
        · apply absurd hn (Nat.not_lt.mpr hblock)
        · apply hblock
      · rw [Arena.usage]
        simp only [Chain.usage, totalCapacity, List.map_cons, List.sum_cons]
        omega

theorem Arena.Tight.setPos {pos : ℕ} (h : a.Tight) (hle : pos ≤ a.pos) :
  (a.setPos pos).Tight
  := by
  intro c hc
  apply hle.trans (h c hc)

theorem Arena.usage_setPos (pos k : ℕ) (hc : a.chain = some c) (hle : a.pos ≤ pos + k) :
  a.usage ≤ (a.setPos pos).usage + k
  := by
  have hc' : (a.setPos pos).chain = some c := hc
  have hpos : (a.setPos pos).pos = pos := rfl
  rw [Arena.usage, Arena.usage, hc, hc', hpos]
  simp only [Chain.usage]
  omega

/-- An aligned allocation of `n` bytes uses at least `n` bytes more. -/
theorem Grants.usage {align : Pool.Alignment} (h : Grants grow a n align a' buffer es)
    (hsums : AlignedFit grow a.blockSize a.pos a.currentCapacity n align) (hok : a.Ok)
    (hlaid : Fits a'.cells → Laid a'.cells) (htight : a.Tight)
    (hblock : ∀ k, align = .small k →
      n ≤ a.blockSize ∨ alignPos (2 ^ k.val) a.pos ≤ a.currentCapacity) :
  a'.Tight ∧ a.usage + n ≤ a'.usage
  := by
  have hlt := hok.pos_lt
  cases h with
  | @small k c a' buffer es es' hopen h =>
      have hblock := hblock k rfl
      rw [hopen.currentCapacity] at hblock
      rw [hopen.usage]
      apply h.usage (isSmall_pow _) hsums.1 hlt (hopen.tight hok htight) hblock
  | @large k c a' buffer es es' hopen h =>
      obtain ⟨hsum, hsums⟩ := hsums
      rw [Nat.mod_eq_of_lt hsum] at h hlaid ⊢
      rw [a'.giveBack_cells] at hlaid
      have hok' := h.ok isSmall_one hopen hsums hok
      have hlaid' := hlaid hok'.fits
      have hin := hopen.tight hok htight
      obtain ⟨htight', husage⟩ := h.usage isSmall_one hsums.1 hlt hin (Or.inr hin)
      rw [← hopen.usage] at husage
      have hadd := h.add_le isSmall_one hsums.1 hlt hlaid'
      have hup := alignUp_lt (n := buffer) (k := k) (by omega) (by omega)
      rcases h.giveBack k.isLt hsums.1 hlt hlaid' hok' with heq | ⟨c', hc', -, hlarge, heq⟩
      · rw [heq]
        constructor
        · exact htight'
        · apply Nat.le_trans _ husage
          apply Nat.add_le_add_left (Nat.le_add_right _ _)
      · rw [heq]
        generalize 2 ^ k.val = size at *
        constructor
        · apply htight'.setPos
          omega
        · have hback := a'.usage_setPos
            (a'.pos - size + (alignUp buffer size - buffer)) size hc' (by omega)
          omega

/-- The regions with one more of `n` bytes. -/
theorem Ledger.InUse.handOut {align : Pool.Alignment} (h : l.InUse)
    (hgrants : Grants grow l.arena n align a buffer es)
    (hsums : AlignedFit grow l.arena.blockSize l.arena.pos l.arena.currentCapacity n align)
    (hok : l.arena.Ok) (hlaid : Fits a.cells → Laid a.cells)
    (hblock : ∀ k, align = .small k →
      n ≤ l.arena.blockSize ∨ alignPos (2 ^ k.val) l.arena.pos ≤ l.arena.currentCapacity)
    (x : ℕ) :
  (l.handOut a ⟨buffer, n, x⟩).InUse
  := by
  obtain ⟨htight, husage⟩ := hgrants.usage hsums hok hlaid h.tight hblock
  constructor
  · exact htight
  · have htotal := h.total
    rw [Ledger.handOut, ← List.append_assoc, List.map_append, List.sum_append]
    simp only [List.map_cons, List.map_nil, List.sum_cons, List.sum_nil]
    omega

theorem Clears.tight (h : Clears a a' es) :
  a'.Tight
  := by
  intro c hc
  rw [h.pos_eq]
  apply Nat.zero_le

theorem Arena.Tight.pos_le (h : a.Tight) (hok : a.Ok) :
  a.pos ≤ a.currentCapacity
  := by
  rw [Arena.currentCapacity]
  rcases hc : a.chain with _ | c
  · rw [hok.pos_eq hc]
    apply Nat.zero_le
  · apply h c hc

theorem Ledger.InUse.resize (h : l.InUse) (blockSize : ℕ) :
  Ledger.InUse { l with arena := l.arena.resize blockSize }
  := ⟨h.tight, h.total⟩

/-- The cells behind the current one are not in use. -/
theorem Ledger.InUse.cut {after : List Cell} (h : l.InUse) (hc : l.arena.chain = some c) :
  Ledger.InUse { l with arena := { l.arena with chain := some { c with after := after } } }
  := by
  have htotal := h.total
  rw [Arena.usage, hc] at htotal
  constructor
  · apply Arena.tight_some
    apply h.tight c hc
  · exact htotal

/-- Every operation that does not pass the end of the current block keeps the account. -/
theorem Ledger.Step.inUse {op : Op} (hstep : l.Step grow op l' es)
    (hsums : l.arena.OpFits grow op)
    (hblock : op.InBlock l.arena.blockSize l.arena.pos l.arena.currentCapacity)
    (hok : l.arena.Ok) (hlaid : Fits l'.arena.cells → Laid l'.arena.cells) (h : l.InUse) :
  l'.InUse
  := by
  have hmoved : ((l.lost ++ l.regions ++ []).map Region.size).sum ≤ l.arena.usage := by
    rw [List.append_nil]
    exact h.total
  cases hstep with
  | createBuffer hg =>
      apply h.handOut hg hsums hok hlaid
      intro k hk
      obtain rfl := Pool.Alignment.small.inj hk
      exact Or.inr (h.tight.pos_le hok)
  | createAligned hg =>
      apply h.handOut hg hsums hok hlaid
      rintro k rfl
      exact hblock
  | createTrivial hg =>
      apply h.handOut hg hsums hok hlaid
      rintro k rfl
      exact hblock
  | @createObject n buffer destructor serial align grows a es hg =>
      have hout : (l.handOut a ⟨buffer, n.val, align.value⟩).InUse := by
        apply h.handOut hg hsums hok hlaid
        rintro k rfl
        exact hblock
      exact ⟨hout.tight, hout.total⟩
  | registerDestructor => exact ⟨h.tight, h.total⟩
  | setBlockSize blockSize => exact h.resize (Pool.requested blockSize)
  | shrinkNothing hnone => exact ⟨h.tight, hmoved⟩
  | shrinkFrees hc hbefore hpos =>
      have husage : l.arena.usage = l.arena.pos := by
        rw [Arena.usage, hc]
        simp only [Chain.usage, hbefore]
        rfl
      rw [husage] at hmoved
      exact ⟨nofun, hmoved⟩
  | shrinkTrims hc hused => exact h.cut hc
  | minNothing hnone => exact h
  | minFrees hnone hclear => exact ⟨nofun, Nat.zero_le _⟩
  | minTrims hc hmin hafter => exact h.cut hc
  | clear hclear => exact ⟨hclear.tight, Nat.zero_le _⟩

/-- `contain`, `size` and `capacity` answer, and they are right: `contain` finds the bytes of the
regions and no address outside of the data of the blocks, and `size` is between the size of the
regions and `capacity`. -/
structure Truthful (s : Member × Memory) : Prop where
  answers : ∀ x, ∃ b, s.1.pool.contain s.2 x = .ok b
  found : ∀ r, r ∈ s.1.lost ++ s.1.regions → ∀ x, r.Contains x →
    s.1.pool.contain s.2 x = .ok true
  linked : ∀ x, s.1.pool.contain s.2 x = .ok true →
    ∃ y, s.1.pool.Linked s.2 y ∧ s.2.HasRegion y ⟨x, 1, 1⟩
  sizes : ∃ size capacity, s.1.pool.size s.2 = .ok size ∧ s.1.pool.capacity s.2 = .ok capacity ∧
    ((s.1.lost ++ s.1.regions).map Region.size).sum ≤ size ∧ size ≤ capacity

/-- A sound ledger whose account is kept has a pool that tells the truth. -/
theorem truthful (hsane : s.2.Sane) (hrep : Represents s.2 s.1 l) (hok : l.arena.Ok)
    (hsound : l.Sound) (huse : l.InUse) :
  Truthful s
  := by
  obtain ⟨hshows, -, hregions, hlost⟩ := hrep
  have hlaid := hshows.holds.laid hsane hok.fits
  have htotal := huse.total
  have hempty : ∀ {r x}, r ∈ l.lost → ¬ r.Contains x := by
    rintro r x hr ⟨hlo, hhi⟩
    rw [hsound.empty r hr] at hhi
    omega
  rw [Arena.usage] at htotal
  rw [← hregions, ← hlost] at htotal
  rcases hc : l.arena.chain with _ | c
  · have hnone := contain_none hshows hc
    rw [hc] at htotal
    constructor
    · intro x
      use false, hnone x
    · intro r hr x hx
      rw [hregions, hlost] at hr
      rcases List.mem_append.mp hr with hr | hr
      · apply absurd hx (hempty hr)
      · obtain ⟨c, hc', -⟩ := hsound.placed r hr
        rw [hc] at hc'
        cases hc'
    · intro x hx
      rw [hnone x] at hx
      cases hx
    · use l.arena.pos, sumCapacity 0 l.arena.cells, size_none hshows hc, capacity_eq hshows, htotal
      rw [hok.pos_eq hc]
      apply Nat.zero_le
  · have hcontain := contain_eq hshows hc
    have hcells := Arena.cells_of_chain hc
    rw [hc] at htotal
    have hin : ∀ {d x}, d ∈ c.cells → d.Contains x →
        ∃ y, s.1.pool.Linked s.2 y ∧ s.2.HasRegion y ⟨x, 1, 1⟩ := by
      intro d x hd hx
      use d.addr, hshows.linked hc hd
      apply hshows.hasRegion hok hc hd
      exact hx
    have hsplit : totalCapacity c.cells =
        totalCapacity c.before + (c.current.capacity + totalCapacity c.after) :=
      totalCapacity_append _ _
    have htight := huse.tight c hc
    have hlt := hlaid.totalCapacity_lt
    rw [hcells, hsplit] at hlt
    constructor
    · intro x
      exact ⟨_, hcontain x⟩
    · intro r hr x hx
      rw [hregions, hlost] at hr
      rw [hcontain x]
      apply congrArg Except.ok
      apply decide_eq_true
      rcases List.mem_append.mp hr with hr | hr
      · apply absurd hx (hempty hr)
      · obtain ⟨c', hc', hplaced⟩ := hsound.placed r hr
        obtain rfl := Option.some.inj (hc.symm.trans hc')
        obtain ⟨hlo, hhi⟩ := hx
        obtain ⟨d, hd, hwithin⟩ | ⟨hwithin, hlimit⟩ := hplaced
        · left
          use d, hd, hwithin.1.trans hlo
          apply Nat.lt_of_lt_of_le hhi hwithin.2
        · right
          use hwithin.1.trans hlo
          apply Nat.lt_of_lt_of_le hhi hlimit
    · intro x hx
      rw [hcontain x] at hx
      rcases of_decide_eq_true (Except.ok.inj hx) with ⟨d, hd, hdx⟩ | ⟨hlo, hhi⟩
      · apply hin (Chain.mem_cells.mpr (Or.inl (List.mem_append_left _ hd))) hdx
      · apply hin c.current_mem
        use hlo
        apply Nat.lt_of_lt_of_le hhi (Nat.add_le_add_left htight _)
    · have husage : sumCapacity l.arena.pos c.before = c.usage l.arena.pos := by
        apply sumCapacity_eq
        omega
      have hcapacity : sumCapacity 0 l.arena.cells = totalCapacity c.cells := by
        rw [hcells, sumCapacity_eq, Nat.zero_add]
        omega
      use sumCapacity l.arena.pos c.before, sumCapacity 0 l.arena.cells, size_eq hshows hc,
        capacity_eq hshows
      rw [husage, hcapacity, hsplit]
      use htotal
      rw [Chain.usage]
      omega

/-- No request of the event for more than the block size is aligned past the end of the current
block. -/
def OpInBlock (s : Member × Memory) (e : Op × List ℕ) : Prop :=
  e.1.InBlock s.1.pool.blockSize s.1.pool.pos (s.1.pool.currentCapacity s.2)

instance {s : Member × Memory} {e : Op × List ℕ} : Decidable (OpInBlock s e) := by
  unfold OpInBlock
  infer_instance

/-- After `clear` nothing is in use. -/
theorem Clears.unused (h : Clears a a' es) (hshows : Shows m p a') :
  (∀ x, p.contain m x = .ok false) ∧ p.size m = .ok 0
  := by
  cases h with
  | nothing h => exact ⟨contain_none hshows rfl, size_none hshows rfl⟩
  | first h hcells hb =>
      constructor
      · intro x
        rw [contain_eq hshows rfl]
        apply congrArg Except.ok
        apply decide_eq_false
        rintro (⟨d, hd, -⟩ | ⟨hlo, hhi⟩)
        · cases hd
        · apply Nat.lt_irrefl _ (Nat.lt_of_le_of_lt hlo hhi)
      · rw [size_eq hshows rfl]
        rfl

/-- The state is that of a sound ledger whose account is kept. -/
def InAccount (s : Member × Memory) : Prop :=
  s.2.Sane ∧ ∃ l, Represents s.2 s.1 l ∧ l.arena.Ok ∧ l.Sound ∧ l.InUse

variable {blockSize : ℕ} {events : List (Op × List ℕ)}

theorem start_inAccount (hnew : blockSize + 4095 < 2 ^ 64) :
  InAccount (start blockSize)
  := by
  refine ⟨Memory.empty_sane, _, start_represents blockSize, ?_, ?_, ?_⟩
  · exact ⟨requested_lt hnew, nofun, nofun, fun _ => rfl⟩
  · exact ⟨nofun, nofun, List.Pairwise.nil, nofun⟩
  · exact ⟨nofun, Nat.zero_le _⟩

theorem run_inAccount (hnew : blockSize + 4095 < 2 ^ 64)
    (hfits : (machine grow).Steps (OpFits grow) (start blockSize) events)
    (hblock : (machine grow).Steps OpInBlock (start blockSize) events) :
  (machine grow).Along InAccount (start blockSize) events
  := by
  have hsteps : (machine grow).Steps (fun s e => OpFits grow s e ∧ OpInBlock s e)
      (start blockSize) events := by
    intro fs e t hfs ht
    use hfits fs e t hfs ht, hblock fs e t hfs ht
  apply Machine.run_invariant_of_steps _ hsteps (start_inAccount hnew)
  rintro t ⟨op, news⟩ u ⟨hsane, l, hrep, hok, hsound, huse⟩ ⟨hfit, hin⟩ hstep
  obtain ⟨l', es, hstep', hrep', hperforms⟩ := step_represents hsane hrep hstep
  have hlaid := hrep'.shows.holds.laid hperforms.sane
  have hfit' := hrep.fits.mp hfit
  obtain ⟨hok', hsound'⟩ := hstep'.sound hfit' hok hsound hlaid
  have hin' : op.InBlock l.arena.blockSize l.arena.pos l.arena.currentCapacity := by
    rw [← hrep.shows.blockSize, ← hrep.shows.pos, ← hrep.currentCapacity]
    exact hin
  exact ⟨hperforms.sane, l', hrep', hok', hsound', hstep'.inUse hfit' hin' hok hlaid huse⟩

/-- As long as no sum wraps around and no request for more than the block size is aligned past the
end of the current block, `contain` and `size` are right, and say after `clear` that nothing is in
use. -/
theorem usage_right (hnew : blockSize + 4095 < 2 ^ 64)
    (hfits : (machine grow).Steps (OpFits grow) (start blockSize) events)
    (hblock : (machine grow).Steps OpInBlock (start blockSize) events) :
  (machine grow).Along Truthful (start blockSize) events ∧
    ∀ fs news s, fs ++ [(.clear, news)] <+: events →
      (machine grow).run (start blockSize) (fs ++ [(.clear, news)]) = some s →
      (∀ x, s.1.pool.contain s.2 x = .ok false) ∧ s.1.pool.size s.2 = .ok 0
  := by
  have hinv := run_inAccount hnew hfits hblock
  constructor
  · intro fs t hfs ht
    obtain ⟨hsane, l, hrep, hok, hsound, huse⟩ := hinv fs t hfs ht
    apply truthful hsane hrep hok hsound huse
  · intro fs news s hfs hs
    obtain ⟨t, ht, hstep⟩ := (machine grow).run_concat_eq_some.mp hs
    obtain ⟨hsane, l, hrep⟩ := run_represents ht
    obtain ⟨l', es, hstep', hrep', -⟩ := step_represents hsane hrep hstep
    cases hstep' with
    | clear hclears => apply hclears.unused hrep'.shows

/-- A pool with two blocks that is cleared, which makes one of them, and used again. -/
def clearedRun : List (Op × List ℕ) :=
  [(.createBuffer 10, [4096]), (.createAligned 8 (.small 3), []), (.createBuffer 100, [8192]),
    (.clear, [12288]), (.createBuffer 20, []), (.shrinkToFit, [])]

/-- What holds along that run, and after its step that clears the pool. -/
theorem usage_right_clearedRun :
  (machine (· * 11 / 10)).Along Truthful (start 64) clearedRun ∧
    ∃ s, (machine (· * 11 / 10)).run (start 64) (clearedRun.take 4) = some s ∧
      (∀ x, s.1.pool.contain s.2 x = .ok false) ∧ s.1.pool.size s.2 = .ok 0
  := by
  have hfits : (machine (· * 11 / 10)).Steps (OpFits (· * 11 / 10)) (start 64) clearedRun := by
    decide +kernel
  have hblock : (machine (· * 11 / 10)).Steps OpInBlock (start 64) clearedRun := by
    decide +kernel
  obtain ⟨halong, hclear⟩ := usage_right (by decide) hfits hblock
  use halong
  have hsome : ((machine (· * 11 / 10)).run (start 64) (clearedRun.take 4)).isSome := by
    decide +kernel
  obtain ⟨s, hs⟩ := Option.isSome_iff_exists.mp hsome
  use s, hs
  apply hclear (clearedRun.take 3) [12288] s (List.take_prefix 4 clearedRun) hs

/-- A request for more than the block size is aligned past the end of a block of 51 bytes. -/
def pastEnd : List (Op × List ℕ) :=
  [(.createBuffer 51, [4096, 8192]), (.setBlockSize 64, []), (.clear, []), (.createBuffer 51, []),
    (.createAligned 49 (.small 3), [12288])]

/-- `contain` then finds an address that is not in the data of a block. -/
theorem pastEnd_not_truthful :
  (machine (· * 11 / 10)).Steps (OpFits (· * 11 / 10)) (start 64) pastEnd ∧
    ¬ (machine (· * 11 / 10)).Along Truthful (start 64) pastEnd
  := by
  constructor
  · decide +kernel
  · intro halong
    have hrun : ((machine (· * 11 / 10)).run (start 64) pastEnd).any fun s =>
        decide (s.1.pool.contain s.2 8259 = .ok true ∧
          ∀ y, y ∈ s.2.blocks.keys → ∀ b, b ∈ s.2.blocks.lookup y →
            ¬ (y + sizeofBlock ≤ 8259 ∧ 8260 ≤ y + sizeofBlock + b.capacity)) := by
      decide +kernel
    obtain ⟨s, hs, h⟩ := Option.any_eq_true _ _ |>.mp hrun
    obtain ⟨hfound, hnone⟩ := of_decide_eq_true h
    obtain ⟨y, -, b, hb, -, hlo, hhi⟩ := (halong.last hs).linked 8259 hfound
    apply hnone y _ b hb ⟨hlo, hhi⟩
    rw [Finmap.mem_keys]
    apply Finmap.mem_of_lookup_eq_some hb

/-! ### What is released -/

/-- The sizes that an operation is given are words. -/
def Op.IsWord : Op → Prop
  | .createBuffer n => n < 2 ^ 64
  | .createAligned n _ => n < 2 ^ 64
  | .createObject n _ _ _ => n.val < 2 ^ 64
  | _ => True

instance : ∀ op, Decidable (Op.IsWord op)
  | .createBuffer n => inferInstanceAs (Decidable (n < 2 ^ 64))
  | .createAligned n _ => inferInstanceAs (Decidable (n < 2 ^ 64))
  | .createObject n _ _ _ => inferInstanceAs (Decidable (n.val < 2 ^ 64))
  | .registerDestructor _ _ _ => isTrue trivial
  | .setBlockSize _ => isTrue trivial
  | .shrinkToFit => isTrue trivial
  | .shrinkToFitMin _ => isTrue trivial
  | .clear => isTrue trivial

/-- The block size and the capacities are words. -/
structure Arena.IsWord (a : Arena) : Prop where
  blockSize_lt : a.blockSize < 2 ^ 64
  capacity_lt : ∀ d, d ∈ a.cells → d.capacity < 2 ^ 64

theorem getBlockSize_isWord (n : ℕ) :
  getBlockSize n < 2 ^ 64
  := by
  simp only [getBlockSize]
  apply Nat.mod_lt _ (Nat.two_pow_pos 64)

theorem Arena.IsWord.resize {size : ℕ} (h : a.IsWord) (hsize : size < 2 ^ 64) :
  (a.resize size).IsWord
  := ⟨hsize, h.capacity_lt⟩

theorem Arena.isWord_some {pos size : ℕ} (hsize : size < 2 ^ 64)
    (h : ∀ d, d ∈ c.cells → d.capacity < 2 ^ 64) :
  Arena.IsWord ⟨size, pos, some c⟩
  := ⟨hsize, h⟩

theorem Opens.isWord (hopen : Opens a c es) (h : a.IsWord) :
  ∀ d, d ∈ c.cells → d.capacity < 2 ^ 64
  := by
  intro d hd
  cases hopen with
  | has hc =>
      rw [← Arena.cells_of_chain hc] at hd
      apply h.capacity_lt d hd
  | first e hnone he =>
      obtain rfl := List.mem_singleton.mp hd
      rw [he]
      apply h.blockSize_lt

theorem Allocates.isWord {es' : List Effect} (h : Allocates grow align n a c a' buffer es')
    (hopen : Opens a c es) (hn : n < 2 ^ 64) (hword : a.IsWord) :
  a'.IsWord
  := by
  have hcells := hopen.isWord hword
  have hused : ∀ d, d ∈ c.before ++ [c.current] → d.capacity < 2 ^ 64 := by
    intro d hd
    apply hcells d (Chain.mem_cells.mpr (Or.inl hd))
  cases h with
  | bump h => exact Arena.isWord_some hword.blockSize_lt hcells
  | @reuse next next' rest rest' es h hle hafter hnext =>
      apply Arena.isWord_some hword.blockSize_lt
      intro d hd
      rcases List.mem_append.mp hd with hd | hd
      · apply hused d hd
      · rcases hnext.mem hd with hd | hd
        · apply hcells d (Chain.mem_cells.mpr (Or.inr _))
          rw [hafter]
          apply hd
        · rw [hd]
          apply hword.blockSize_lt
  | fresh e h hle hafter he =>
      apply Arena.isWord_some hword.blockSize_lt
      intro d hd
      rcases List.mem_append.mp hd with hd | hd
      · apply hused d hd
      · obtain rfl := List.mem_singleton.mp hd
        rw [he]
        apply hword.blockSize_lt
  | own e h hle he =>
      apply Arena.isWord_some (getBlockSize_isWord _)
      intro d hd
      rcases List.mem_cons.mp hd with rfl | hd
      · rw [he]
        apply hn
      · apply hcells d hd

theorem Arena.IsWord.setPos (h : a.IsWord) (pos : ℕ) :
  (a.setPos pos).IsWord
  := ⟨h.blockSize_lt, h.capacity_lt⟩

theorem Arena.IsWord.giveBack (h : a.IsWord) (buffer size align : ℕ) :
  (a.giveBack buffer size align).IsWord
  := by
  rw [Arena.giveBack]
  split
  · exact h
  · split
    · apply h.setPos
    · exact h

theorem Grants.isWord {align : Pool.Alignment} (h : Grants grow a n align a' buffer es)
    (hn : n < 2 ^ 64) (hword : a.IsWord) :
  a'.IsWord
  := by
  cases h with
  | small hopen h => exact h.isWord hopen hn hword
  | large hopen h =>
      apply Arena.IsWord.giveBack
      apply h.isWord hopen _ hword
      apply Nat.mod_lt _ (Nat.two_pow_pos 64)

theorem Clears.isWord (h : Clears a a' es) (hword : a.IsWord) :
  a'.IsWord
  := by
  cases h with
  | nothing h => exact ⟨hword.blockSize_lt, nofun⟩
  | first hc hcells hb =>
      apply Arena.isWord_some hword.blockSize_lt
      intro d hd
      rcases hb.mem hd with hd | hd
      · apply hword.capacity_lt d
        rw [Arena.cells_of_chain hc, hcells]
        apply hd
      · rw [hd]
        apply hword.blockSize_lt

/-- Without some of the cells behind the current one. -/
theorem Arena.IsWord.cut {kept gone : List Cell} (h : a.IsWord) (hc : a.chain = some c)
    (hafter : c.after = kept ++ gone) :
  Arena.IsWord { a with chain := some { c with after := kept } }
  := by
  apply Arena.isWord_some h.blockSize_lt
  intro d hd
  apply h.capacity_lt d
  rw [Arena.cells_of_chain hc, Chain.mem_cells, hafter]
  rcases Chain.mem_cells.mp hd with hd | hd
  · exact Or.inl hd
  · exact Or.inr (List.mem_append_left _ hd)

/-- Every operation keeps the numbers words. -/
theorem Ledger.Step.isWord {op : Op} (hstep : l.Step grow op l' es) (hop : op.IsWord)
    (h : l.arena.IsWord) :
  l'.arena.IsWord
  := by
  cases hstep with
  | createBuffer hg => exact hg.isWord hop h
  | createAligned hg => exact hg.isWord hop h
  | createTrivial hg => exact hg.isWord hop h
  | createObject hg => exact hg.isWord hop h
  | registerDestructor => exact h
  | setBlockSize blockSize =>
      apply h.resize (getBlockSize_isWord _)
  | shrinkNothing hnone => exact h
  | shrinkFrees hc hbefore hpos => exact ⟨h.blockSize_lt, nofun⟩
  | shrinkTrims hc hused => exact h.cut hc (List.nil_append _).symm
  | minNothing hnone => exact h
  | minFrees hnone hclear => exact ⟨(hclear.isWord h).blockSize_lt, nofun⟩
  | minTrims hc hmin hafter => exact h.cut hc hafter
  | clear hclear => exact hclear.isWord h

/-- The block at `x` comes after the current one. -/
def Pool.Behind (p : Pool) (m : Memory) (x : ℕ) : Prop :=
  ∃ y, p.currentBlock = some y ∧ Reaches m.next (m.next y) x

/-- `shrink_to_fit` with a capacity returns; it destroys blocks that come after the current one and
does nothing else that is recorded; the other blocks stay linked with the regions in them; and it
returns what `capacity` returns then, which is at least the capacity asked for or all there was. -/
def ReleasesUnused (s : Member × Memory) (minCapacity : ℕ) : Prop :=
  ∃ capacity p m es, s.1.pool.shrinkToFitMin s.2 minCapacity = .ok (capacity, p, m) ∧
    m.trace = s.2.trace ++ es ∧
    (∀ e, e ∈ es → ∃ x b, e = .destroyed b.serial ∧ s.2.blocks.lookup x = some b ∧
      s.1.pool.Behind s.2 x) ∧
    (∀ x, s.1.pool.Linked s.2 x → ¬ s.1.pool.Behind s.2 x →
      p.Linked m x ∧ ∀ r, s.2.HasRegion x r → m.HasRegion x r) ∧
    p.capacity m = .ok capacity ∧
    ∃ before, s.1.pool.capacity s.2 = .ok before ∧ min minCapacity before ≤ capacity

/-- The blocks after the current one are those of the cells behind it. -/
theorem Shows.behind_iff (h : Shows m p a) (hc : a.chain = some c) (x : ℕ) :
  p.Behind m x ↔ x ∈ addrs c.after
  := by
  obtain ⟨hcurrent, hlookup⟩ := h.get_current hc
  have hholds := h.holds
  rw [Arena.cells_of_chain hc, Chain.cells] at hholds
  obtain ⟨-, htail, -⟩ := holds_append.mp hholds
  obtain ⟨-, hafter, -⟩ := holds_cons.mp htail
  have hnext : m.next c.current.addr = (addrs c.after).head? := by
    rw [Memory.next, hlookup]
    rfl
  rw [← hafter.linked.reaches_iff, ← hnext]
  constructor
  · rintro ⟨y, hy, hreaches⟩
    obtain rfl := Option.some.inj (hcurrent.symm.trans hy)
    exact hreaches
  · intro hreaches
    exact ⟨_, hcurrent, hreaches⟩

theorem Chain.cells_eq (c : Chain) :
  c.cells = c.used ++ c.after
  := by
  rw [cells, used, List.append_assoc]
  rfl

/-- The cells up to the current one are not behind it. -/
theorem Shows.not_behind (h : Shows m p a) (hc : a.chain = some c) {d : Cell} (hd : d ∈ c.used) :
  ¬ p.Behind m d.addr
  := by
  have hholds := h.holds
  rw [Arena.cells_of_chain hc, Chain.cells_eq] at hholds
  obtain ⟨-, -, hdisj⟩ := holds_append.mp hholds
  rw [h.behind_iff hc]
  apply hdisj d.addr (List.mem_map_of_mem hd)

/-- The order in which capacities are added up does not matter. -/
theorem sumCapacity_mod (cells : List Cell) :
  sumCapacity n cells % 2 ^ 64 = (n + totalCapacity cells) % 2 ^ 64
  := by
  induction cells generalizing n with
  | nil => rfl
  | cons c cells ih =>
      have hstep : sumCapacity n (c :: cells) =
          sumCapacity ((n + c.capacity) % 2 ^ 64) cells := rfl
      rw [hstep, ih, Nat.mod_add_mod, totalCapacity_cons, Nat.add_assoc]

theorem sumCapacity_lt (hn : n < 2 ^ 64) (cells : List Cell) :
  sumCapacity n cells < 2 ^ 64
  := by
  induction cells generalizing n with
  | nil => exact hn
  | cons c cells ih =>
      apply ih
      apply Nat.mod_lt _ (Nat.two_pow_pos 64)

/-- What `shrink_to_fit` adds up is the capacity that is left. -/
theorem sumCapacity_kept {before kept : List Cell} {d : Cell} (hd : d.capacity < 2 ^ 64) :
  sumCapacity (sumCapacity d.capacity before) kept = sumCapacity 0 (before ++ d :: kept)
  := by
  have hleft := sumCapacity_lt (sumCapacity_lt hd before) kept
  have hright := sumCapacity_lt (n := 0) (by decide) (before ++ d :: kept)
  rw [← Nat.mod_eq_of_lt hleft, ← Nat.mod_eq_of_lt hright, sumCapacity_mod, sumCapacity_mod,
    totalCapacity_append]
  have hmod := sumCapacity_mod (n := d.capacity) before
  rw [totalCapacity_cons]
  omega

/-- A block of a cell that both memories hold has the same regions. -/
theorem Holds.hasRegion {cells cells' : List Cell} {d : Cell} (h : Holds m none cells)
    (h' : Holds m' none cells') (hd : d ∈ cells) (hd' : d ∈ cells') (hr : m.HasRegion d.addr r) :
  m'.HasRegion d.addr r
  := by
  obtain ⟨next, hlookup⟩ := h.held d hd
  obtain ⟨next', hlookup'⟩ := h'.held d hd'
  obtain ⟨b, hb, hsize, hlo, hhi⟩ := hr
  obtain rfl := Option.some.inj (hlookup.symm.trans hb)
  use d.block next', hlookup', hsize, hlo, hhi

/-- There is nothing to release. -/
theorem Represents.releasesUnused_none {minCapacity : ℕ} (hrep : Represents s.2 s.1 l)
    (hc : l.arena.chain = none) :
  ReleasesUnused s minCapacity
  := by
  have hcurrent : s.1.pool.currentBlock = none := by
    rw [hrep.shows.currentBlock, hc, Option.map_none]
  have hcapacity := capacity_eq hrep.shows
  rw [Arena.cells_of_none hc] at hcapacity
  refine ⟨0, s.1.pool, s.2, [], ?_, ?_, nofun, ?_, hcapacity, 0, hcapacity, Nat.min_le_right _ _⟩
  · rw [Pool.shrinkToFitMin, hcurrent]
    rfl
  · rw [List.append_nil]
  · intro x hx _
    exact ⟨hx, fun _ hr => hr⟩

/-- `shrink_to_fit` with a capacity that is not zero releases blocks behind the current one. -/
theorem Represents.releasesUnused {minCapacity : ℕ} (hsane : s.2.Sane)
    (hrep : Represents s.2 s.1 l) (hword : l.arena.IsWord) (hmin : minCapacity ≠ 0) :
  ReleasesUnused s minCapacity
  := by
  have hshows := hrep.shows
  have hcapacity := capacity_eq hshows
  rcases hc : l.arena.chain with _ | c
  · apply hrep.releasesUnused_none hc
  · obtain ⟨m', kept, gone, hafter, heq, hreplaces, hcase⟩ :=
      shrinkToFitMin_spec hsane hshows hc hmin
    have hshows' := hshows.replaceAfter hc hreplaces.holds
    have hcapacity' := capacity_eq hshows'
    have hcells := Arena.cells_of_chain hc
    have hgone : ∀ d, d ∈ gone → d ∈ c.after := by
      intro d hd
      rw [hafter]
      apply List.mem_append_right _ hd
    have hsum : sumCapacity (sumCapacity c.current.capacity c.before) kept =
        sumCapacity 0 (Chain.cells { c with after := kept }) := by
      apply sumCapacity_kept
      apply hword.capacity_lt
      rw [hcells]
      apply c.current_mem
    rw [hsum] at heq hcase
    refine ⟨_, s.1.pool, m', freed gone, heq, hreplaces.trace, ?_, ?_, hcapacity', _, hcapacity,
      ?_⟩
    · intro e he
      obtain ⟨d, hd, rfl⟩ := List.mem_map.mp he
      have hmem : d ∈ l.arena.cells := by
        rw [hcells, Chain.mem_cells]
        exact Or.inr (hgone d hd)
      obtain ⟨next, hlookup⟩ := hshows.holds.held d hmem
      refine ⟨d.addr, d.block next, rfl, hlookup, ?_⟩
      rw [hshows.behind_iff hc]
      apply List.mem_map_of_mem (hgone d hd)
    · intro x hx hnot
      rw [Pool.Linked, hshows.head, hshows.holds.linked.reaches_iff] at hx
      obtain ⟨d, hd, rfl⟩ := List.mem_map.mp hx
      have hused : d ∈ c.used := by
        rw [hcells] at hd
        rcases Chain.mem_cells.mp hd with hused | hbehind
        · exact hused
        · apply absurd ((hshows.behind_iff hc _).mpr (List.mem_map_of_mem hbehind)) hnot
      have hmem : d ∈ Chain.cells { c with after := kept } := Chain.mem_cells.mpr (Or.inl hused)
      use hshows'.linked rfl hmem
      intro r hr
      apply hshows.holds.hasRegion hreplaces.holds hd hmem hr
    · rcases hcase with rfl | hle
      · rw [List.append_nil] at hafter
        apply (Nat.min_le_right _ _).trans
        rw [hcells, ← hafter]
      · apply (Nat.min_le_left _ _).trans hle

/-- `shrink_to_fit(0)` frees the current block. -/
theorem Represents.not_releasesUnused (hsane : s.2.Sane) (hrep : Represents s.2 s.1 l)
    (hc : l.arena.chain = some c) :
  ¬ ReleasesUnused s 0
  := by
  rintro ⟨capacity, p, m, es, heq, -, -, hkept, -⟩
  have hshows := hrep.shows
  rcases shrinkToFitMin_zero hsane hshows hc with hbad | ⟨r, hok, a', es', -, -, hshows', -⟩
  · rw [hbad] at heq
    cases heq
  · rw [hok] at heq
    obtain rfl := Except.ok.inj heq
    have hused : c.current ∈ c.used := List.mem_append_right _ List.mem_cons_self
    obtain ⟨hlinked, -⟩ := hkept c.current.addr (hshows.linked hc c.current_mem)
      (hshows.not_behind hc hused)
    have hhead : p.head = none := hshows'.head
    rw [Pool.Linked, hhead] at hlinked
    cases hlinked

/-- The numbers are words in every state that is reached. -/
theorem run_isWord (hword : ∀ e, e ∈ events → e.1.IsWord)
    (hrun : (machine grow).run (start blockSize) events = some s) :
  s.2.Sane ∧ ∃ l, Represents s.2 s.1 l ∧ l.arena.IsWord
  := by
  have hsteps : (machine grow).Steps (fun _ e => e.1.IsWord) (start blockSize) events := by
    intro fs e t hfs _
    apply hword e (hfs.subset (List.mem_append_right _ List.mem_cons_self))
  have hstart : (start blockSize).2.Sane ∧ ∃ l,
      Represents (start blockSize).2 (start blockSize).1 l ∧ l.arena.IsWord :=
    ⟨Memory.empty_sane, _, start_represents blockSize, getBlockSize_isWord _, nofun⟩
  apply (Machine.run_invariant_of_steps
    (I := fun s => s.2.Sane ∧ ∃ l, Represents s.2 s.1 l ∧ l.arena.IsWord) _ hsteps hstart).last hrun
  rintro t ⟨op, news⟩ u ⟨hsane, l, hrep, hold⟩ hop hstep
  obtain ⟨l', es, hstep', hrep', hperforms⟩ := step_represents hsane hrep hstep
  exact ⟨hperforms.sane, l', hrep', hstep'.isWord hop hold⟩

/-- The regions are not in blocks after the current one. -/
theorem InOrder.region_used (h : InOrder s) (hr : r ∈ s.1.regions) :
  ∃ x, s.1.pool.Linked s.2 x ∧ ¬ s.1.pool.Behind s.2 x ∧ s.2.HasRegion x r
  := by
  obtain ⟨-, l, ⟨hshows, -, hregions, -⟩, hok, hsound⟩ := h
  rw [hregions] at hr
  obtain ⟨c, hc, hplaced⟩ := hsound.placed r hr
  obtain ⟨d, hd, hwithin⟩ := hplaced.within
  have hmem : d ∈ c.cells := Chain.mem_cells.mpr (Or.inl hd)
  exact ⟨d.addr, hshows.linked hc hmem, hshows.not_behind hc hd, hshows.hasRegion hok hc hmem hwithin⟩

/-- `shrink_to_fit` with a capacity releases only unused blocks, except that with zero it frees all
of a pool that has blocks.  The regions are in the blocks that it keeps, as long as no sum has
wrapped around. -/
theorem releasesUnused_iff (hword : ∀ e, e ∈ events → e.1.IsWord)
    (hrun : (machine grow).run (start blockSize) events = some s) (minCapacity : ℕ)
    (news : List ℕ) :
  (ReleasesUnused (s.1, { s.2 with news := news }) minCapacity ↔
      ¬ (minCapacity = 0 ∧ s.1.pool.currentBlock ≠ none)) ∧
    (blockSize + 4095 < 2 ^ 64 → (machine grow).Steps (OpFits grow) (start blockSize) events →
      ∀ r, r ∈ s.1.regions →
        ∃ x, s.1.pool.Linked s.2 x ∧ ¬ s.1.pool.Behind s.2 x ∧ s.2.HasRegion x r)
  := by
  obtain ⟨hsane, l, hrep, hnumbers⟩ := run_isWord hword hrun
  have hsane' := hsane.setNews news
  have hrep' := hrep.setNews news
  constructor
  · constructor
    · rintro hreleases ⟨rfl, hcurrent⟩
      rcases hc : l.arena.chain with _ | c
      · apply hcurrent
        rw [hrep.shows.currentBlock, hc, Option.map_none]
      · apply hrep'.not_releasesUnused hsane' hc hreleases
    · intro hnot
      rcases Nat.eq_zero_or_pos minCapacity with rfl | hmin
      · have hcurrent : s.1.pool.currentBlock = none := by
          apply Classical.byContradiction
          intro hne
          apply hnot ⟨rfl, hne⟩
        have hc : l.arena.chain = none := by
          rw [hrep.shows.currentBlock] at hcurrent
          apply Option.map_eq_none_iff.mp hcurrent
        apply hrep'.releasesUnused_none hc
      · apply hrep'.releasesUnused hsane' hnumbers (Nat.ne_of_gt hmin)
  · intro hnew hfits r hr
    apply ((run_inOrder hnew hfits).last hrun).region_used hr

theorem releasesUnused_iff_mixedRun :
  ∃ s, (machine (· * 11 / 10)).run (start 64) mixedRun = some s ∧
    (ReleasesUnused (s.1, { s.2 with news := [] }) 100 ↔
      ¬ (100 = 0 ∧ s.1.pool.currentBlock ≠ none)) ∧
    (64 + 4095 < 2 ^ 64 → (machine (· * 11 / 10)).Steps (OpFits (· * 11 / 10)) (start 64) mixedRun →
      ∀ r, r ∈ s.1.regions →
        ∃ x, s.1.pool.Linked s.2 x ∧ ¬ s.1.pool.Behind s.2 x ∧ s.2.HasRegion x r)
  := by
  have hsome : ((machine (· * 11 / 10)).run (start 64) mixedRun).isSome := by decide +kernel
  obtain ⟨s, hs⟩ := Option.isSome_iff_exists.mp hsome
  exact ⟨s, hs, releasesUnused_iff (by decide) hs 100 []⟩

/-- With zero the block of a region is freed. -/
theorem shrinkToZero_not_unused :
  ∃ s, (machine (· * 11 / 10)).run (start 64) [(.createBuffer 10, [4096])] = some s ∧
    ¬ ReleasesUnused (s.1, { s.2 with news := [] }) 0
  := by
  have hrun : ((machine (· * 11 / 10)).run (start 64) [(.createBuffer 10, [4096])]).any fun s =>
      decide (s.1.pool.currentBlock ≠ none) := by
    decide +kernel
  obtain ⟨s, hs, h⟩ := Option.any_eq_true _ _ |>.mp hrun
  obtain ⟨hsane, l, hrep⟩ := run_represents hs
  rcases hc : l.arena.chain with _ | c
  · apply absurd _ (of_decide_eq_true h)
    rw [hrep.shows.currentBlock, hc, Option.map_none]
  · use s, hs
    apply (hrep.setNews []).not_releasesUnused (hsane.setNews []) hc

end StaticMemoryPool
