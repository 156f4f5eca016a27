import CppFreshman.Pool.Refines
import Mathlib.Data.List.Pairwise

/-!
# The regions do not overlap

As long as no sum that an operation computes wraps around (`Op.Fits`), the regions handed
out lie in the cells before the current one and in its first `pos` bytes (`Placed`), and every
operation keeps them there (`Ledger.Step.sound`).  The cells do not overlap (`Laid`) since they
are blocks of the memory (`Holds.laid`).
-/

namespace StaticMemoryPool

/-- The cells do not overlap. -/
def Cell.Apart (c d : Cell) : Prop :=
  c.limit ≤ d.addr ∨ d.limit ≤ c.addr

/-- The size of a block with a header does not wrap around. -/
def Fits (cells : List Cell) : Prop :=
  ∀ c, c ∈ cells → sizeofBlock + c.capacity < 2 ^ 64

/-- The cells do not overlap and lie in the address space at multiples of 16. -/
structure Laid (cells : List Cell) : Prop where
  apart : cells.Pairwise Cell.Apart
  bounded : ∀ c, c ∈ cells → c.limit ≤ 2 ^ 64
  aligned : ∀ c, c ∈ cells → 16 ∣ c.addr

/-- No sum that an allocation of `n` bytes computes wraps around, where `capacity` is that of the
current block. -/
def SumsFit (grow : ℕ → ℕ) (blockSize pos capacity align n : ℕ) : Prop :=
  n + alignPos align pos < 2 ^ 64 ∧
    (capacity < n + alignPos align pos → blockSize < n →
      sizeofBlock + n < 2 ^ 64 ∧ sizeofBlock + grow n + 4095 < 2 ^ 64)

/-- No sum that an aligned allocation computes wraps around. -/
def AlignedFit (grow : ℕ → ℕ) (blockSize pos capacity n : ℕ) : Pool.Alignment → Prop
  | .small k => SumsFit grow blockSize pos capacity (2 ^ k.val) n
  | .large k => n + 2 ^ k.val < 2 ^ 64 ∧ SumsFit grow blockSize pos capacity 1 (n + 2 ^ k.val)

/-- No sum that an operation computes wraps around. -/
def Op.Fits (grow : ℕ → ℕ) (blockSize pos capacity : ℕ) : Op → Prop
  | .createBuffer n => AlignedFit grow blockSize pos capacity n (.small 0)
  | .createAligned n align => AlignedFit grow blockSize pos capacity n align
  | .createObject n align _ _ => AlignedFit grow blockSize pos capacity n.val align
  | .registerDestructor _ _ _ => True
  | .setBlockSize blockSize => blockSize + 4095 < 2 ^ 64
  | .shrinkToFit => True
  | .shrinkToFitMin _ => True
  | .clear => True

instance {grow : ℕ → ℕ} {blockSize pos capacity align n : ℕ} :
    Decidable (SumsFit grow blockSize pos capacity align n) := by
  unfold SumsFit
  infer_instance

instance {grow : ℕ → ℕ} {blockSize pos capacity n : ℕ} :
    ∀ align, Decidable (AlignedFit grow blockSize pos capacity n align)
  | .small k => inferInstanceAs (Decidable (SumsFit grow blockSize pos capacity (2 ^ k.val) n))
  | .large k => inferInstanceAs (Decidable (n + 2 ^ k.val < 2 ^ 64 ∧
      SumsFit grow blockSize pos capacity 1 (n + 2 ^ k.val)))

instance {grow : ℕ → ℕ} {blockSize pos capacity : ℕ} :
    ∀ op, Decidable (Op.Fits grow blockSize pos capacity op)
  | .createBuffer n =>
      inferInstanceAs (Decidable (AlignedFit grow blockSize pos capacity n (.small 0)))
  | .createAligned n align =>
      inferInstanceAs (Decidable (AlignedFit grow blockSize pos capacity n align))
  | .createObject n align _ _ =>
      inferInstanceAs (Decidable (AlignedFit grow blockSize pos capacity n.val align))
  | .registerDestructor _ _ _ => isTrue trivial
  | .setBlockSize blockSize => inferInstanceAs (Decidable (blockSize + 4095 < 2 ^ 64))
  | .shrinkToFit => isTrue trivial
  | .shrinkToFitMin _ => isTrue trivial
  | .clear => isTrue trivial

/-- The capacity of the current cell, or of the one that the first allocation makes. -/
def Arena.currentCapacity (a : Arena) : ℕ :=
  match a.chain with
  | none => a.blockSize
  | some c => c.current.capacity

/-- No sum that an allocation from the arena computes wraps around. -/
def Arena.SumsFit (grow : ℕ → ℕ) (a : Arena) (align n : ℕ) : Prop :=
  StaticMemoryPool.SumsFit grow a.blockSize a.pos a.currentCapacity align n

/-- No sum that an operation on the arena computes wraps around. -/
def Arena.OpFits (grow : ℕ → ℕ) (a : Arena) (op : Op) : Prop :=
  op.Fits grow a.blockSize a.pos a.currentCapacity

/-- Blocks of the block size can be requested, the blocks have their sizes, and no more of the
current cell is in use than its capacity, but for what aligning takes. -/
structure Arena.Ok (a : Arena) : Prop where
  blockSize_lt : sizeofBlock + a.blockSize < 2 ^ 64
  fits : Fits a.cells
  pos_le : ∀ c, a.chain = some c → a.pos ≤ (c.current.capacity + 7) / 8 * 8
  pos_eq : a.chain = none → a.pos = 0

/-- The address is one of a byte of the region. -/
def Region.Contains (r : Region) (x : ℕ) : Prop :=
  r.start ≤ x ∧ x < r.start + r.size

/-- The regions have no byte in common. -/
def Region.Apart (r r' : Region) : Prop :=
  ∀ x, ¬ (r.Contains x ∧ r'.Contains x)

/-- The region lies in the data of the cell. -/
def Region.Within (r : Region) (c : Cell) : Prop :=
  c.data ≤ r.start ∧ r.start + r.size ≤ c.limit

/-- The region lies in a cell before the current one, or in the current one below an address. -/
def Placed (c : Chain) (limit : ℕ) (r : Region) : Prop :=
  (∃ d, d ∈ c.before ∧ r.Within d) ∨ r.Within c.current ∧ r.start + r.size ≤ limit

/-- The regions have no byte in common, are aligned, and are placed in the chain; those that are
lost are empty. -/
structure Ledger.Sound (l : Ledger) : Prop where
  placed : ∀ r, r ∈ l.regions →
    ∃ c, l.arena.chain = some c ∧ Placed c (c.current.data + l.arena.pos) r
  empty : ∀ r, r ∈ l.lost → r.size = 0
  apart : (l.lost ++ l.regions).Pairwise Region.Apart
  aligned : ∀ r, r ∈ l.lost ++ l.regions → r.align ∣ r.start

variable {grow : ℕ → ℕ} {align n start : ℕ} {a a' : Arena} {c c' : Chain} {r : Region}
  {l l' : Ledger} {m : Memory} {cells : List Cell} {es : List Effect}

/-- Blocks of the memory that have their sizes do not overlap. -/
theorem Holds.laid {p : Option ℕ} (h : Holds m p cells) (hsane : m.Sane) (hfits : Fits cells) :
  Laid cells
  := by
  have hblock : ∀ c, c ∈ cells → ∃ next, m.blocks.lookup c.addr = some (c.block next) ∧
      (c.block next).size = sizeofBlock + c.capacity := by
    intro c hc
    obtain ⟨next, hlookup⟩ := h.held c hc
    use next, hlookup
    apply Nat.mod_eq_of_lt (hfits c hc)
  constructor
  · have hne : cells.Pairwise fun c d => c.addr ≠ d.addr := List.pairwise_map.mp h.nodup
    apply hne.imp_of_mem
    intro c d hc hd hne
    obtain ⟨next, hlookup, hsize⟩ := hblock c hc
    obtain ⟨next', hlookup', hsize'⟩ := hblock d hd
    have hapart := hsane.apart _ _ _ _ hlookup hlookup' hne
    rw [hsize, hsize'] at hapart
    simp only [Cell.Apart, Cell.limit, Cell.data]
    omega
  · intro c hc
    obtain ⟨next, hlookup, hsize⟩ := hblock c hc
    obtain ⟨-, -, hle⟩ := hsane.aligned _ _ hlookup
    rw [hsize] at hle
    simp only [Cell.limit, Cell.data]
    omega
  · intro c hc
    obtain ⟨next, hlookup, -⟩ := hblock c hc
    apply (hsane.aligned _ _ hlookup).1

theorem Cell.Apart.symm {c d : Cell} (h : c.Apart d) :
  d.Apart c
  := Or.symm h

/-- Regions within cells that do not overlap have no byte in common. -/
theorem Region.Within.apart {r r' : Region} {c d : Cell} (h : r.Within c) (h' : r'.Within d)
    (hcd : c.Apart d) :
  r.Apart r'
  := by
  rintro x ⟨⟨hx, hx'⟩, hy, hy'⟩
  obtain ⟨h1, h2⟩ := h
  obtain ⟨h3, h4⟩ := h'
  simp only [Cell.Apart, Cell.limit, Cell.data] at *
  omega

theorem Region.apart_of_empty {r r' : Region} (h : r.size = 0) :
  r.Apart r'
  := by
  rintro x ⟨⟨hx, hx'⟩, -⟩
  omega

theorem Placed.mono {limit limit' : ℕ} (h : Placed c limit r) (hle : limit ≤ limit') :
  Placed c limit' r
  := by
  obtain h | ⟨h, hlimit⟩ := h
  · exact Or.inl h
  · exact Or.inr ⟨h, hlimit.trans hle⟩

/-- A region that is placed in a chain lies in one of its used cells. -/
theorem Placed.within {limit : ℕ} (h : Placed c limit r) :
  ∃ d, d ∈ c.used ∧ r.Within d
  := by
  obtain ⟨d, hd, hr⟩ | ⟨hr, -⟩ := h
  · exact ⟨d, List.mem_append_left _ hd, hr⟩
  · exact ⟨c.current, List.mem_append_right _ List.mem_cons_self, hr⟩

/-- When the next cell becomes the current one, the regions lie before it. -/
theorem Placed.advance {limit limit' : ℕ} {next : Cell} {rest : List Cell}
    (h : Placed c limit r) :
  Placed ⟨c.before ++ [c.current], next, rest⟩ limit' r
  := by
  left
  exact h.within

theorem Chain.mem_cells {d : Cell} :
  d ∈ c.cells ↔ d ∈ c.used ∨ d ∈ c.after
  := by
  simp [cells, used, or_assoc]

theorem Chain.current_mem (c : Chain) :
  c.current ∈ c.cells
  := by
  simp [cells]

theorem Compacts.le_capacity {blockSize : ℕ} {b b' : Cell} {rest rest' : List Cell}
    (h : Compacts blockSize b rest b' rest' es) :
  blockSize ≤ b'.capacity
  := by
  cases h with
  | keeps h => exact h
  | merges d h hd => exact Nat.le_of_eq hd.symm

theorem dropFilled_suffix (blockSize capacity : ℕ) (cells : List Cell) :
  dropFilled blockSize capacity cells <:+ cells
  := by
  induction cells generalizing capacity with
  | nil => apply List.suffix_rfl
  | cons c cells ih =>
      rw [dropFilled]
      split
      · apply (ih _).trans (List.suffix_cons c cells)
      · apply List.suffix_rfl

/-- Compacting leaves cells that were there, or a cell of the block size. -/
theorem Compacts.mem {blockSize : ℕ} {b b' d : Cell} {rest rest' : List Cell}
    (h : Compacts blockSize b rest b' rest' es) (hd : d ∈ b' :: rest') :
  d ∈ b :: rest ∨ d.capacity = blockSize
  := by
  cases h with
  | keeps h => exact Or.inl hd
  | merges d' h hd' =>
      rcases List.mem_cons.mp hd with rfl | hd
      · exact Or.inr hd'
      · left
        apply List.mem_cons_of_mem
        apply (dropFilled_suffix _ _ _).subset hd

/-- The alignments that `create_buffer_internal` deals with. -/
def IsSmall (align : ℕ) : Prop :=
  ∃ k, k < 4 ∧ align = 2 ^ k

theorem isSmall_one :
  IsSmall 1
  := ⟨0, by decide, rfl⟩

theorem isSmall_pow (k : Fin 4) :
  IsSmall (2 ^ k.val)
  := ⟨k.val, k.isLt, rfl⟩

/-- Aligning does not pass the next multiple of eight. -/
theorem alignPos_le {pos bound : ℕ} (hsmall : IsSmall align) (hbound : 8 ∣ bound) (hle : pos ≤ bound)
    (hlt : bound + 7 < 2 ^ 64) :
  alignPos align pos ≤ bound
  := by
  obtain ⟨k, hk, rfl⟩ := hsmall
  rw [alignPos]
  have hpow : 2 ^ k ≤ 2 ^ 3 := Nat.pow_le_pow_right (by decide) (by omega)
  have hdvd : 2 ^ k ∣ 2 ^ 3 := Nat.pow_dvd_pow 2 (by omega)
  split
  · exact hle
  · apply alignUp_le (by omega) (by omega) (hdvd.trans hbound) hle

theorem le_alignPos {pos : ℕ} (hsmall : IsSmall align) (hlt : pos + 7 < 2 ^ 64) :
  pos ≤ alignPos align pos
  := by
  obtain ⟨k, hk, rfl⟩ := hsmall
  rw [alignPos]
  have hpow : 2 ^ k ≤ 2 ^ 3 := Nat.pow_le_pow_right (by decide) (by omega)
  split
  · exact Nat.le_refl pos
  · apply le_alignUp (by omega) (by omega)

theorem dvd_alignPos {pos : ℕ} (hsmall : IsSmall align) (hlt : pos + 7 < 2 ^ 64) :
  align ∣ alignPos align pos
  := by
  obtain ⟨k, hk, rfl⟩ := hsmall
  rw [alignPos]
  have hpow : 2 ^ k ≤ 2 ^ 3 := Nat.pow_le_pow_right (by decide) (by omega)
  split
  · simp [*]
  · apply dvd_alignUp (by omega) (by omega)

/-- An allocation is made in what is then the current cell, behind the regions there are, or in a
cell of its own before the others. -/
theorem Allocates.place (h : Allocates grow align n a c a' start es) (hsmall : IsSmall align)
    (hsum : n + alignPos align a.pos < 2 ^ 64) (hpos : a.pos + 7 < 2 ^ 64) :
  (∃ c', a'.chain = some c' ∧ c'.current.data ≤ start ∧ start + n = c'.current.data + a'.pos ∧
      start + n ≤ c'.current.limit ∧
      ∀ r, Placed c (c.current.data + a.pos) r → Placed c' start r) ∨
    ∃ d, a'.chain = some ⟨d :: c.before, c.current, c.after⟩ ∧ d.capacity = n ∧
      start = d.data ∧ a.pos ≤ a'.pos
  := by
  have hle := le_alignPos hsmall hpos
  cases h with
  | bump h =>
      left
      rw [Nat.mod_eq_of_lt hsum] at h
      refine ⟨c, rfl, Nat.le_add_right _ _, ?_, ?_, ?_⟩
      · rw [Nat.add_comm n] at hsum
        simp only
        rw [Nat.mod_eq_of_lt hsum, Nat.add_assoc]
      · rw [Cell.limit]
        omega
      · intro r hr
        apply hr.mono
        omega
  | reuse h hn hafter hnext =>
      left
      have hcap := hnext.le_capacity
      refine ⟨_, rfl, Nat.le_refl _, rfl, ?_, ?_⟩
      · apply Nat.add_le_add_left (hn.trans hcap)
      · intro r hr
        apply hr.advance
  | fresh d h hn hafter hd =>
      left
      refine ⟨_, rfl, Nat.le_refl _, rfl, ?_, ?_⟩
      · apply Nat.add_le_add_left (hn.trans (Nat.le_of_eq hd.symm))
      · intro r hr
        apply hr.advance
  | own d h hn hd =>
      right
      exact ⟨d, rfl, hd, rfl, hle⟩

/-- The regions of a sound arena are placed in the chain that an allocation is made from. -/
theorem Ledger.Sound.placed_open (h : l.Sound) (hopen : Opens l.arena c es) (hr : r ∈ l.regions) :
  Placed c (c.current.data + l.arena.pos) r
  := by
  obtain ⟨c', hc', hplaced⟩ := h.placed r hr
  cases hopen with
  | has hc =>
      obtain rfl := Option.some.inj (hc.symm.trans hc')
      exact hplaced
  | first d hnone hd =>
      rw [hnone] at hc'
      cases hc'

/-- A region that lies in what was allocated keeps the arena sound, also if the end of what was
allocated is given back. -/
theorem Ledger.Sound.handOut {es' : List Effect} {pos : ℕ} (hs : l.Sound)
    (hopen : Opens l.arena c es) (hsmall : IsSmall align)
    (h : Allocates grow align n l.arena c a' start es')
    (hsum : n + alignPos align l.arena.pos < 2 ^ 64) (hlt : l.arena.pos + 7 < 2 ^ 64)
    (hlaid : Laid a'.cells) (hok : a'.Ok) (hr : start ≤ r.start)
    (hend : r.start + r.size ≤ start + n) (halign : r.align ∣ r.start)
    (hpos : pos = a'.pos ∨ ∃ c', a'.chain = some c' ∧
      c'.current.data + a'.pos = start + n ∧ r.start + r.size ≤ c'.current.data + pos) :
  (l.handOut (a'.setPos pos) r).Sound
  := by
  have haligned : ∀ r', r' ∈ l.lost ++ (l.regions ++ [r]) → r'.align ∣ r'.start := by
    intro r' hr'
    rw [← List.append_assoc, List.mem_append, List.mem_singleton] at hr'
    obtain hr' | rfl := hr'
    · apply hs.aligned r' hr'
    · apply halign
  have hpairwise : (∀ r', r' ∈ l.regions → r'.Apart r) →
      (l.lost ++ (l.regions ++ [r])).Pairwise Region.Apart := by
    intro hold
    rw [← List.append_assoc, List.pairwise_append]
    refine ⟨hs.apart, List.pairwise_singleton _ _, ?_⟩
    intro r' hr' r'' hr''
    obtain rfl := List.mem_singleton.mp hr''
    obtain hlost | hregion := List.mem_append.mp hr'
    · apply Region.apart_of_empty (hs.empty r' hlost)
    · apply hold r' hregion
  obtain ⟨c', hc', hdata, hend', hlimit, hold⟩ | ⟨d, hc', rfl, rfl, hle⟩ :=
    h.place hsmall hsum hlt
  · have hcells : a'.cells = c'.before ++ c'.current :: c'.after := Arena.cells_of_chain hc'
    have hwithin : r.Within c'.current := by
      constructor <;> omega
    have hbelow : start ≤ c'.current.data + pos ∧ r.start + r.size ≤ c'.current.data + pos := by
      obtain rfl | ⟨c'', hc'', -, hle⟩ := hpos
      · omega
      · obtain rfl := Option.some.inj (hc'.symm.trans hc'')
        omega
    constructor
    · intro r' hr'
      use c', hc'
      obtain hr' | hr' := List.mem_append.mp hr'
      · apply (hold r' (hs.placed_open hopen hr')).mono hbelow.1
      · obtain rfl := List.mem_singleton.mp hr'
        exact Or.inr ⟨hwithin, hbelow.2⟩
    · exact hs.empty
    · apply hpairwise
      intro r' hr'
      obtain ⟨d, hd, hr'⟩ | ⟨-, hr'⟩ := hold r' (hs.placed_open hopen hr')
      · have hapart := hlaid.apart
        rw [hcells, List.pairwise_append] at hapart
        apply hr'.apart hwithin (hapart.2.2 d hd c'.current List.mem_cons_self)
      · rintro y ⟨⟨-, hy⟩, hy', -⟩
        omega
    · exact haligned
  · have hcells : a'.cells = d :: c.cells := by
      rw [Arena.cells_of_chain hc']
      rfl
    have hapart := hlaid.apart
    rw [hcells, List.pairwise_cons] at hapart
    have hwithin : r.Within d := by
      constructor
      · exact hr
      · exact hend
    have hpos : pos = a'.pos := by
      obtain h | ⟨c'', hc'', heq, -⟩ := hpos
      · exact h
      · obtain rfl := Option.some.inj (hc'.symm.trans hc'')
        have hcurrent := hapart.1 c.current c.current_mem
        have := hok.pos_le _ hc'
        simp only [Cell.Apart, Cell.limit, Cell.data, sizeofBlock] at *
        omega
    constructor
    · intro r' hr'
      refine ⟨_, hc', ?_⟩
      obtain hr' | hr' := List.mem_append.mp hr'
      · obtain ⟨e, he, hr'⟩ | ⟨hr', hlimit⟩ := hs.placed_open hopen hr'
        · exact Or.inl ⟨e, List.mem_cons_of_mem _ he, hr'⟩
        · refine Or.inr ⟨hr', ?_⟩
          rw [hpos]
          apply hlimit.trans (Nat.add_le_add_left hle _)
      · obtain rfl := List.mem_singleton.mp hr'
        exact Or.inl ⟨d, List.mem_cons_self, hwithin⟩
    · exact hs.empty
    · apply hpairwise
      intro r' hr'
      obtain ⟨e, he, hr'⟩ := (hs.placed_open hopen hr').within
      apply hr'.apart hwithin (hapart.1 e (Chain.mem_cells.mpr (Or.inl he))).symm
    · exact haligned

/-- Aligning the position cannot wrap around. -/
theorem Arena.Ok.pos_lt (hok : a.Ok) :
  a.pos + 7 < 2 ^ 64
  := by
  rcases hc : a.chain with _ | c
  · rw [hok.pos_eq hc]
    decide
  · have hpos := hok.pos_le c hc
    have hfits := hok.fits c.current (by rw [Arena.cells_of_chain hc]; apply c.current_mem)
    rw [sizeofBlock] at hfits
    omega

/-- An allocation begins at a multiple of its alignment. -/
theorem Allocates.dvd (h : Allocates grow align n a c a' start es) (hsmall : IsSmall align)
    (hpos : a.pos + 7 < 2 ^ 64) (hlaid : Laid a'.cells) :
  align ∣ start
  := by
  have hpow : align ∣ 2 ^ 4 := by
    obtain ⟨k, hk, rfl⟩ := hsmall
    exact Nat.pow_dvd_pow 2 (by omega)
  have hdata : ∀ d, d ∈ a'.cells → align ∣ d.data := by
    intro d hd
    apply Nat.dvd_add (hpow.trans (hlaid.aligned d hd)) hpow
  cases h with
  | bump h =>
      apply Nat.dvd_add
      · apply hdata
        apply c.current_mem
      · apply dvd_alignPos hsmall hpos
  | reuse h hn hafter hnext =>
      apply hdata
      exact List.mem_append_right _ List.mem_cons_self
  | fresh d h hn hafter hd =>
      apply hdata d
      exact List.mem_append_right _ List.mem_cons_self
  | own d h hn hd =>
      apply hdata d
      exact List.mem_append_left _ List.mem_cons_self

/-- What was allocated lies in the address space. -/
theorem Allocates.add_le (h : Allocates grow align n a c a' start es) (hsmall : IsSmall align)
    (hsum : n + alignPos align a.pos < 2 ^ 64) (hpos : a.pos + 7 < 2 ^ 64)
    (hlaid : Laid a'.cells) :
  start + n ≤ 2 ^ 64
  := by
  obtain ⟨c', hc', -, -, hlimit, -⟩ | ⟨d, hc', rfl, rfl, -⟩ := h.place hsmall hsum hpos
  · apply hlimit.trans (hlaid.bounded _ _)
    rw [Arena.cells_of_chain hc']
    apply c'.current_mem
  · apply hlaid.bounded d
    rw [Arena.cells_of_chain hc']
    exact List.mem_append_left _ List.mem_cons_self

/-- The end that is given back. -/
theorem givenBack_eq {pos buffer align size : ℕ} (hsize : align + size ≤ pos)
    (hpos : pos < 2 ^ 64) (hbuffer : buffer ≤ alignUp buffer align)
    (halign : alignUp buffer align < buffer + align) (hlt : buffer + align ≤ 2 ^ 64) :
  Pool.givenBack pos buffer align = pos - align + (alignUp buffer align - buffer)
  := by
  rw [Pool.givenBack]
  generalize alignUp buffer align = aligned at *
  have hsum : pos + (2 ^ 64 - align) + (aligned + 2 ^ 64 - buffer) =
      pos - align + (aligned - buffer) + 2 ^ 64 + 2 ^ 64 := by
    omega
  rw [hsum, Nat.add_mod_right, Nat.add_mod_right, Nat.mod_eq_of_lt]
  omega

/-- The current cell of a chain in which a cell `d` is before it is not the one that ends at the
end of `d`. -/
theorem Arena.Ok.not_last {d : Cell} (hok : a.Ok) (hlaid : Laid a.cells)
    (hc : a.chain = some ⟨d :: c.before, c.current, c.after⟩) :
  c.current.data + a.pos ≠ d.limit
  := by
  intro heq
  have hapart := hlaid.apart
  rw [Arena.cells_of_chain hc, Chain.cells, List.cons_append, List.pairwise_cons] at hapart
  have hcurrent := hapart.1 c.current c.current_mem
  have hpos := hok.pos_le _ hc
  simp only [Cell.Apart, Cell.limit, Cell.data, sizeofBlock] at *
  omega

/-- What the alignment did not need is given back if the bytes are the last ones of the current
cell. -/
theorem Allocates.giveBack {k : ℕ} (h : Allocates grow 1 (n + 2 ^ k) a c a' start es) (hk : k < 16)
    (hsum : n + 2 ^ k + alignPos 1 a.pos < 2 ^ 64) (hpos : a.pos + 7 < 2 ^ 64)
    (hlaid : Laid a'.cells) (hok : a'.Ok) :
  a'.giveBack start (n + 2 ^ k) (2 ^ k) = a' ∨
    ∃ c', a'.chain = some c' ∧ c'.current.data + a'.pos = start + (n + 2 ^ k) ∧
      n + 2 ^ k ≤ a'.pos ∧ a'.giveBack start (n + 2 ^ k) (2 ^ k) =
        a'.setPos (a'.pos - 2 ^ k + (alignUp start (2 ^ k) - start))
  := by
  have hadd := h.add_le isSmall_one hsum hpos hlaid
  have hle := le_alignUp (n := start) (k := k) (by omega) (by omega)
  have hup := alignUp_lt (n := start) (k := k) (by omega) (by omega)
  have hlt := hok.pos_lt
  obtain ⟨c', hc'⟩ := h.chain
  rcases Classical.em (c'.current.data + a'.pos = start + (n + 2 ^ k)) with hlast | hlast
  · right
    have hlarge : n + 2 ^ k ≤ a'.pos := by
      obtain ⟨c'', hc'', hdata, hend, -, -⟩ | ⟨d, hc'', hd, rfl, -⟩ :=
        h.place isSmall_one hsum hpos
      · obtain rfl := Option.some.inj (hc'.symm.trans hc'')
        omega
      · obtain rfl := Option.some.inj (hc'.symm.trans hc'')
        apply absurd _ (hok.not_last hlaid hc'')
        rw [Cell.limit, hd]
        exact hlast
    use c', hc', hlast, hlarge
    have hsize : 2 ^ k + n ≤ a'.pos := by omega
    rw [a'.giveBack_pos hc' hlast, givenBack_eq hsize (by omega) hle hup (by omega)]
  · left
    apply a'.giveBack_self hc' hlast

theorem Arena.setPos_self (a : Arena) :
  a.setPos a.pos = a
  := rfl

/-- An aligned allocation with the alignment as an argument keeps the arena sound. -/
theorem Ledger.Sound.handOut_large {k : ℕ} {es' : List Effect} (hs : l.Sound)
    (hopen : Opens l.arena c es) (hk : k < 16)
    (h : Allocates grow 1 (n + 2 ^ k) l.arena c a' start es')
    (hsum : n + 2 ^ k + alignPos 1 l.arena.pos < 2 ^ 64) (hlt : l.arena.pos + 7 < 2 ^ 64)
    (hlaid : Laid a'.cells) (hok : a'.Ok) :
  (l.handOut (a'.giveBack start (n + 2 ^ k) (2 ^ k)) ⟨alignUp start (2 ^ k), n, 2 ^ k⟩).Sound
  := by
  have hadd := h.add_le isSmall_one hsum hlt hlaid
  have hle := le_alignUp (n := start) (k := k) (by omega) (by omega)
  have hup := alignUp_lt (n := start) (k := k) (by omega) (by omega)
  have hdvd := dvd_alignUp (n := start) (k := k) (by omega) (by omega)
  have hend : alignUp start (2 ^ k) + n ≤ start + (n + 2 ^ k) := by omega
  rcases h.giveBack hk hsum hlt hlaid hok with heq | ⟨c', hc', hlast, hlarge, heq⟩
  · rw [heq, ← a'.setPos_self]
    apply hs.handOut hopen isSmall_one h hsum hlt hlaid hok hle hend hdvd (Or.inl rfl)
  · rw [heq]
    apply hs.handOut hopen isSmall_one h hsum hlt hlaid hok hle hend hdvd
    refine Or.inr ⟨c', hc', hlast, ?_⟩
    simp only
    omega

/-- The first cell has the block size. -/
theorem Opens.currentCapacity (hopen : Opens a c es) :
  a.currentCapacity = c.current.capacity
  := by
  cases hopen with
  | has h => rw [Arena.currentCapacity, h]
  | first d h hd => rw [Arena.currentCapacity, h, hd]

theorem Opens.pos_le (hopen : Opens a c es) (hok : a.Ok) :
  a.pos ≤ (c.current.capacity + 7) / 8 * 8
  := by
  cases hopen with
  | has h => exact hok.pos_le c h
  | first d h hd =>
      rw [hok.pos_eq h]
      exact Nat.zero_le _

theorem Opens.fits (hopen : Opens a c es) (hok : a.Ok) :
  Fits c.cells
  := by
  cases hopen with
  | has h =>
      rw [← Arena.cells_of_chain h]
      apply hok.fits
  | first d h hd =>
      intro e he
      obtain rfl := List.mem_singleton.mp he
      rw [hd]
      apply hok.blockSize_lt

theorem Arena.ok_some {blockSize pos : ℕ} (hlt : sizeofBlock + blockSize < 2 ^ 64)
    (hfits : Fits c.cells) (hpos : pos ≤ (c.current.capacity + 7) / 8 * 8) :
  Arena.Ok ⟨blockSize, pos, some c⟩
  := by
  refine ⟨hlt, hfits, ?_, nofun⟩
  intro c' hc'
  obtain rfl := Option.some.inj hc'
  exact hpos

/-- The sizes of the cells of a chain that goes on with the cells that follow the current one,
or with new ones of the block size. -/
theorem Fits.advance {blockSize : ℕ} {next : Cell} {rest : List Cell} (hfits : Fits c.cells)
    (hlt : sizeofBlock + blockSize < 2 ^ 64)
    (hmem : ∀ d, d ∈ next :: rest → d ∈ c.after ∨ d.capacity = blockSize) :
  Fits (Chain.mk (c.before ++ [c.current]) next rest).cells
  := by
  intro d hd
  rw [Chain.cells, List.mem_append] at hd
  rcases hd with hd | hd
  · apply hfits d (Chain.mem_cells.mpr (Or.inl hd))
  · rcases hmem d hd with hd | hd
    · apply hfits d (Chain.mem_cells.mpr (Or.inr hd))
    · rw [hd]
      apply hlt

theorem Allocates.ok {es' : List Effect} (h : Allocates grow align n a c a' start es')
    (hsmall : IsSmall align) (hopen : Opens a c es) (hsums : a.SumsFit grow align n)
    (hok : a.Ok) :
  a'.Ok
  := by
  have hpos := hopen.pos_le hok
  have hfits := hopen.fits hok
  obtain ⟨hsum, hown⟩ := hsums
  cases h with
  | bump h =>
      rw [Nat.mod_eq_of_lt hsum] at h
      apply Arena.ok_some hok.blockSize_lt hfits
      rw [Nat.add_comm, Nat.mod_eq_of_lt hsum]
      omega
  | reuse h hn hafter hnext =>
      apply Arena.ok_some hok.blockSize_lt
      · apply hfits.advance hok.blockSize_lt
        intro d hd
        rw [hafter]
        apply hnext.mem hd
      · have := hnext.le_capacity
        simp only
        omega
  | fresh d h hn hafter hd =>
      apply Arena.ok_some hok.blockSize_lt
      · apply hfits.advance hok.blockSize_lt
        intro e he
        obtain rfl := List.mem_singleton.mp he
        exact Or.inr hd
      · simp only
        omega
  | own d h hn hd =>
      rw [Nat.mod_eq_of_lt hsum] at h
      have hgrow := hown (by rwa [hopen.currentCapacity]) hn
      have hcurrent := hfits c.current c.current_mem
      rw [sizeofBlock] at hcurrent
      apply Arena.ok_some (getBlockSize_lt hgrow.2)
      · intro e he
        rcases List.mem_cons.mp he with rfl | he
        · rw [hd]
          apply hgrow.1
        · apply hfits e he
      · apply alignPos_le hsmall (Nat.dvd_mul_left 8 _) hpos
        omega

theorem Arena.Ok.setPos {pos : ℕ} (hok : a.Ok) (hle : pos ≤ a.pos) :
  (a.setPos pos).Ok
  := by
  refine ⟨hok.blockSize_lt, hok.fits, ?_, ?_⟩
  · intro c hc
    apply hle.trans (hok.pos_le c hc)
  · intro hnone
    apply Nat.eq_zero_of_le_zero
    rw [← hok.pos_eq hnone]
    apply hle

theorem Arena.Ok.resize {blockSize : ℕ} (hok : a.Ok)
    (hlt : sizeofBlock + blockSize < 2 ^ 64) :
  (a.resize blockSize).Ok
  := ⟨hlt, hok.fits, hok.pos_le, hok.pos_eq⟩

theorem Ledger.Sound.resize {blockSize : ℕ} (hs : l.Sound) :
  Ledger.Sound { l with arena := l.arena.resize blockSize }
  := ⟨hs.placed, hs.empty, hs.apart, hs.aligned⟩

/-- The size that `set_block_size` computes fits if its sums do. -/
theorem requested_lt {blockSize : ℕ} (h : blockSize + 4095 < 2 ^ 64) :
  sizeofBlock + Pool.requested blockSize < 2 ^ 64
  := by
  rw [Pool.requested]
  apply getBlockSize_lt
  rw [sizeofBlock]
  split
  · decide
  · omega

/-- A chain without the cells behind some of those that follow the current one. -/
theorem Arena.Ok.cut {kept gone : List Cell} (hok : a.Ok) (hc : a.chain = some c)
    (hafter : c.after = kept ++ gone) :
  Arena.Ok { a with chain := some { c with after := kept } }
  := by
  apply Arena.ok_some hok.blockSize_lt
  · intro d hd
    apply hok.fits d
    rw [Arena.cells_of_chain hc, Chain.cells, hafter]
    rw [Chain.cells] at hd
    simp only [List.mem_append, List.mem_cons] at hd ⊢
    tauto
  · apply hok.pos_le c hc

theorem Ledger.Sound.cut {after : List Cell} (hs : l.Sound) (hc : l.arena.chain = some c) :
  Ledger.Sound
    { l with arena := { l.arena with chain := some { c with after := after } } }
  := by
  refine ⟨?_, hs.empty, hs.apart, hs.aligned⟩
  intro r hr
  obtain ⟨c', hc', hplaced⟩ := hs.placed r hr
  obtain rfl := Option.some.inj (hc.symm.trans hc')
  exact ⟨{ c with after := after }, rfl, hplaced⟩

/-- `clear` leaves a part of the cells, and those that it makes have the block size. -/
theorem Clears.ok (h : Clears a a' es) (hok : a.Ok) :
  a'.Ok
  := by
  cases h with
  | nothing h => exact ⟨hok.blockSize_lt, nofun, nofun, fun _ => rfl⟩
  | first h hcells hb =>
      apply Arena.ok_some hok.blockSize_lt
      · intro d hd
        rcases hb.mem hd with hd | hd
        · apply hok.fits d
          rw [Arena.cells_of_chain h, hcells]
          apply hd
        · rw [hd]
          apply hok.blockSize_lt
      · apply Nat.zero_le

theorem Clears.pos_eq (h : Clears a a' es) :
  a'.pos = 0
  := by
  cases h <;> rfl

/-- What holds of the arena after an aligned allocation. -/
theorem Grants.sound {align : Pool.Alignment} (h : Grants grow l.arena n align a start es)
    (hsums : AlignedFit grow l.arena.blockSize l.arena.pos l.arena.currentCapacity n align) (hok : l.arena.Ok) (hs : l.Sound)
    (hlaid : Fits a.cells → Laid a.cells) :
  a.Ok ∧ (l.handOut a ⟨start, n, align.value⟩).Sound
  := by
  have hlt := hok.pos_lt
  cases h with
  | small hopen h =>
      have hok' := h.ok (isSmall_pow _) hopen hsums hok
      have hlaid' := hlaid hok'.fits
      constructor
      · exact hok'
      · rw [← a.setPos_self]
        apply hs.handOut hopen (isSmall_pow _) h hsums.1 hlt hlaid' hok' (Nat.le_refl _)
          (Nat.le_refl _) (h.dvd (isSmall_pow _) hlt hlaid') (Or.inl rfl)
  | @large k c a' start es es' hopen h =>
      obtain ⟨hsum, hsums⟩ := hsums
      rw [Nat.mod_eq_of_lt hsum] at h hlaid ⊢
      rw [a'.giveBack_cells] at hlaid
      have hok' := h.ok isSmall_one hopen hsums hok
      have hlaid' := hlaid hok'.fits
      constructor
      · have hadd := h.add_le isSmall_one hsums.1 hlt hlaid'
        have hup := alignUp_lt (n := start) (k := k) (by omega) (by omega)
        rcases h.giveBack k.isLt hsums.1 hlt hlaid' hok' with heq | ⟨c', -, -, hlarge, heq⟩
        · rw [heq]
          exact hok'
        · rw [heq]
          apply hok'.setPos
          generalize 2 ^ k.val = size at hup hlarge ⊢
          omega
      · apply hs.handOut_large hopen k.isLt h hsums.1 hlt hlaid' hok'

/-- All the regions of a chain that is not used are empty. -/
theorem Ledger.Sound.frees (hs : l.Sound) (hc : l.arena.chain = some c) (hbefore : c.before = [])
    (hpos : l.arena.pos = 0) :
  Ledger.Sound ⟨{ l.arena with chain := none }, [], l.lost ++ l.regions, l.cleaners⟩
  := by
  refine ⟨nofun, ?_, ?_, ?_⟩
  · intro r hr
    rcases List.mem_append.mp hr with hr | hr
    · apply hs.empty r hr
    · obtain ⟨c', hc', hplaced⟩ := hs.placed r hr
      obtain rfl := Option.some.inj (hc.symm.trans hc')
      obtain ⟨d, hd, -⟩ | ⟨hwithin, hlimit⟩ := hplaced
      · rw [hbefore] at hd
        cases hd
      · have := hwithin.1
        omega
  · rw [List.append_nil]
    apply hs.apart
  · intro r hr
    rw [List.append_nil] at hr
    apply hs.aligned r hr

/-- Every operation keeps the arena sound. -/
theorem Ledger.Step.sound {op : Op} (hstep : l.Step grow op l' es) (hsums : l.arena.OpFits grow op)
    (hok : l.arena.Ok) (hs : l.Sound) (hlaid : Fits l'.arena.cells → Laid l'.arena.cells) :
  l'.arena.Ok ∧ l'.Sound
  := by
  cases hstep with
  | createBuffer h => exact h.sound hsums hok hs hlaid
  | createAligned h => exact h.sound hsums hok hs hlaid
  | createTrivial h => exact h.sound hsums hok hs hlaid
  | createObject h =>
      obtain ⟨hok', hs'⟩ := h.sound hsums hok hs hlaid
      exact ⟨hok', hs'.placed, hs'.empty, hs'.apart, hs'.aligned⟩
  | registerDestructor => exact ⟨hok, hs.placed, hs.empty, hs.apart, hs.aligned⟩
  | setBlockSize blockSize => exact ⟨hok.resize (requested_lt hsums), hs.resize⟩
  | shrinkNothing hnone =>
      refine ⟨hok, nofun, ?_, ?_, ?_⟩
      · intro r hr
        rcases List.mem_append.mp hr with hr | hr
        · apply hs.empty r hr
        · obtain ⟨c, hc, -⟩ := hs.placed r hr
          rw [hnone] at hc
          cases hc
      · rw [List.append_nil]
        apply hs.apart
      · intro r hr
        rw [List.append_nil] at hr
        apply hs.aligned r hr
  | shrinkFrees hc hbefore hpos =>
      exact ⟨⟨hok.blockSize_lt, nofun, nofun, fun _ => hpos⟩, hs.frees hc hbefore hpos⟩
  | shrinkTrims hc hused => exact ⟨hok.cut hc (List.nil_append _).symm, hs.cut hc⟩
  | minNothing h => exact ⟨hok, hs⟩
  | @minFrees a es h hclear =>
      have hpos : a.pos = 0 := hclear.pos_eq
      exact ⟨⟨(hclear.ok hok).blockSize_lt, nofun, nofun, fun _ => hpos⟩,
        nofun, nofun, List.Pairwise.nil, nofun⟩
  | minTrims hc hmin hafter => exact ⟨hok.cut hc hafter, hs.cut hc⟩
  | clear h => exact ⟨h.ok hok, nofun, nofun, List.Pairwise.nil, nofun⟩

end StaticMemoryPool
