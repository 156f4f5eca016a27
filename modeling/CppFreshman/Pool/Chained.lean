import CppFreshman.Heap.Linked
import CppFreshman.Pool.Arena

/-!
# Cells in memory

`Holds m p cells` says that the cells are blocks of the memory that follow one another along their
pointers, the last one pointing to `p`.  `Replaces m m' old new es` says that the memory `m'` has
the chain `new` where `m` has the chain `old`, and that `es` is recorded of it; what the
functions on blocks do is put together from the lemmas about it.  What the loops over blocks do
to a chain is what `takeFilled` and `dropFilled` say of its cells (`destroyBlocks_eq`,
`compactLoop_eq`, `compactBlock_spec`).

`Sane` is what is always true of the memory, among that the account of the blocks: each that was
created is there, or it was destroyed once.
-/

namespace StaticMemoryPool

@[simp]
theorem ok_bind {α β : Type} (x : α) (f : α → Except Fault β) :
  (Except.ok x >>= f) = f x
  := rfl

/-- `operator new` does not return the next address, or there is a result with the property. -/
def Yields {α : Type} (r : Except Fault α) (P : α → Prop) : Prop :=
  r = .error .badAlloc ∨ ∃ x, r = .ok x ∧ P x

namespace Yields

variable {α β : Type} {r : Except Fault α} {f : α → Except Fault β} {P : α → Prop}
  {Q : β → Prop} {x : α}

theorem ok (h : P x) :
  Yields (.ok x) P
  := Or.inr ⟨x, rfl, h⟩

/-- What follows a result with the property has a property of its own. -/
theorem bind (h : Yields r P) (hf : ∀ x, P x → Yields (f x) Q) :
  Yields (r >>= f) Q
  := by
  rcases h with rfl | ⟨x, rfl, hx⟩
  · exact Or.inl rfl
  · apply hf x hx

theorem mono {P' : α → Prop} (h : Yields r P) (hP : ∀ x, P x → P' x) :
  Yields r P'
  := by
  rcases h with hbad | ⟨x, hx, hPx⟩
  · exact Or.inl hbad
  · exact Or.inr ⟨x, hx, hP x hPx⟩

end Yields

/-- What is recorded of blocks. -/
def Effect.IsBlock : Effect → Prop
  | .created _ _ _ => True
  | .destroyed _ => True
  | .registered _ _ => False
  | .destructed _ => False

namespace Memory

/-- The blocks lie in the address space at multiples of 16 and do not overlap; they have different
numbers; the record says where each was created; and every number that was given is that of a
block, which was not destroyed, or was destroyed once. -/
structure Sane (m : Memory) : Prop where
  aligned : ∀ x b, m.blocks.lookup x = some b → 16 ∣ x ∧ x < 2 ^ 64 ∧ x + b.size ≤ 2 ^ 64
  apart : ∀ x y b c, m.blocks.lookup x = some b → m.blocks.lookup y = some c → x ≠ y →
    x + b.size ≤ y ∨ y + c.size ≤ x
  serial : ∀ x y b c, m.blocks.lookup x = some b → m.blocks.lookup y = some c →
    b.serial = c.serial → x = y
  recorded : ∀ x b, m.blocks.lookup x = some b → .created b.serial x b.capacity ∈ m.trace
  created : ∀ n x k, .created n x k ∈ m.trace → n < m.made ∧
    ∀ y b, m.blocks.lookup y = some b → b.serial = n → y = x ∧ b.capacity = k
  live : ∀ x b, m.blocks.lookup x = some b → .destroyed b.serial ∉ m.trace
  gone : ∀ n, n < m.made → (∀ x b, m.blocks.lookup x = some b → b.serial ≠ n) →
    m.trace.count (.destroyed n) = 1
  unborn : ∀ n, m.made ≤ n → .destroyed n ∉ m.trace

variable {m m' : Memory} {x y capacity : ℕ} {b c : MemoryBlock} {es : List Effect}

theorem Sane.serial_lt (h : m.Sane) (hb : m.blocks.lookup x = some b) :
  b.serial < m.made
  := (h.created _ _ _ (h.recorded x b hb)).1

theorem get_eq (h : m.blocks.lookup x = some b) :
  m.get x = .ok b
  := by
  rw [get, h]

theorem setNext_eq {p : Option ℕ} (h : m.blocks.lookup x = some b) :
  m.setNext x p = .ok { m with blocks := m.blocks.insert x { b with next := p } }
  := by
  rw [setNext, get_eq h]
  rfl

/-- The memory without the block at `x`. -/
def erase (m : Memory) (x : ℕ) (serial : ℕ) : Memory :=
  { m with blocks := m.blocks.erase x, trace := m.trace ++ [.destroyed serial] }

theorem destroy_eq (h : m.blocks.lookup x = some b) :
  m.destroy x = .ok (m.erase x b.serial)
  := by
  rw [destroy, get_eq h]
  rfl

theorem lookup_erase (m : Memory) (x serial y : ℕ) :
  (m.erase x serial).blocks.lookup y = if y = x then none else m.blocks.lookup y
  := by
  rw [erase]
  split
  · subst y
    apply Finmap.lookup_erase
  · apply Finmap.lookup_erase_ne
    assumption

/-- The memory with a new block at `x`. -/
def add (m : Memory) (x capacity : ℕ) : Memory :=
  { m with
    blocks := m.blocks.insert x ⟨m.made, (sizeofBlock + capacity) % 2 ^ 64, capacity, none⟩
    news := m.news.tail
    trace := m.trace ++ [.created m.made x capacity]
    made := m.made + 1 }

theorem lookup_add (m : Memory) (x capacity y : ℕ) :
  (m.add x capacity).blocks.lookup y =
    if y = x then some ⟨m.made, (sizeofBlock + capacity) % 2 ^ 64, capacity, none⟩
    else m.blocks.lookup y
  := by
  rw [add]
  split
  · subst y
    apply Finmap.lookup_insert
  · apply Finmap.lookup_insert_of_ne
    assumption

/-- `operator new` does not return the next address, or there is a new block in free memory. -/
theorem create_cases (m : Memory) (capacity : ℕ) :
  m.create capacity = .error .badAlloc ∨
    ∃ x, m.create capacity = .ok (x, m.add x capacity) ∧
      m.Free x ((sizeofBlock + capacity) % 2 ^ 64)
  := by
  rw [create]
  split
  · exact Or.inl rfl
  · next x news hnews =>
      split
      · right
        use x
        constructor
        · rw [add, hnews, List.tail_cons]
        · assumption
      · exact Or.inl rfl

/-- Free memory is not a block. -/
theorem Free.lookup {size : ℕ} (h : m.Free x size) :
  m.blocks.lookup x = none
  := by
  rw [Finmap.lookup_eq_none, ← Finmap.mem_keys]
  apply h.2.2.2.2.1

theorem Free.ne {size : ℕ} (h : m.Free x size) (hy : m.blocks.lookup y = some b) :
  y ≠ x
  := by
  rintro rfl
  rw [h.lookup] at hy
  cases hy

theorem Free.apart {size : ℕ} (h : m.Free x size) (hy : m.blocks.lookup y = some b) :
  x + size ≤ y ∨ y + b.size ≤ x
  := by
  apply h.2.2.2.2.2 y _ b hy
  rw [Finmap.mem_keys]
  apply Finmap.mem_of_lookup_eq_some hy

/-- A pointer of a block is changed. -/
theorem Sane.setNext {p : Option ℕ} (h : m.Sane) (hb : m.blocks.lookup x = some b) :
  Sane { m with blocks := m.blocks.insert x { b with next := p } }
  := by
  have hold : ∀ {y c}, (m.blocks.insert x { b with next := p }).lookup y = some c →
      ∃ c', m.blocks.lookup y = some c' ∧ c'.size = c.size ∧ c'.serial = c.serial ∧
        c'.capacity = c.capacity := by
    intro y c hc
    rcases Classical.em (y = x) with rfl | hne
    · rw [Finmap.lookup_insert] at hc
      obtain rfl := Option.some.inj hc
      exact ⟨b, hb, rfl, rfl, rfl⟩
    · rw [Finmap.lookup_insert_of_ne _ hne] at hc
      exact ⟨c, hc, rfl, rfl, rfl⟩
  constructor
  · intro y c hc
    obtain ⟨c', hc', hsize, -, -⟩ := hold hc
    rw [← hsize]
    apply h.aligned y c' hc'
  · intro y z c d hc hd hne
    obtain ⟨c', hc', hsize, -, -⟩ := hold hc
    obtain ⟨d', hd', hsize', -, -⟩ := hold hd
    rw [← hsize, ← hsize']
    apply h.apart y z c' d' hc' hd' hne
  · intro y z c d hc hd heq
    obtain ⟨c', hc', -, hserial, -⟩ := hold hc
    obtain ⟨d', hd', -, hserial', -⟩ := hold hd
    apply h.serial y z c' d' hc' hd'
    rw [hserial, hserial', heq]
  · intro y c hc
    obtain ⟨c', hc', -, hserial, hcapacity⟩ := hold hc
    rw [← hserial, ← hcapacity]
    apply h.recorded y c' hc'
  · intro n y k hn
    obtain ⟨hlt, heq⟩ := h.created n y k hn
    use hlt
    intro z c hc hserial
    obtain ⟨c', hc', -, hserial', hcapacity⟩ := hold hc
    rw [← hcapacity]
    apply heq z c' hc'
    rw [hserial', hserial]
  · intro y c hc
    obtain ⟨c', hc', -, hserial, -⟩ := hold hc
    rw [← hserial]
    apply h.live y c' hc'
  · intro n hn hnone
    apply h.gone n hn
    intro y c hc heq
    rcases Classical.em (y = x) with rfl | hne
    · obtain rfl := Option.some.inj (hb.symm.trans hc)
      apply hnone y _ (Finmap.lookup_insert _)
      apply heq
    · apply hnone y c _ heq
      rw [Finmap.lookup_insert_of_ne _ hne]
      apply hc
  · apply h.unborn

/-- A block is made in free memory. -/
theorem Sane.add (h : m.Sane) (hfree : m.Free x ((sizeofBlock + capacity) % 2 ^ 64)) :
  (m.add x capacity).Sane
  := by
  have hcases : ∀ {y c}, (m.add x capacity).blocks.lookup y = some c →
      (y = x ∧ c = ⟨m.made, (sizeofBlock + capacity) % 2 ^ 64, capacity, none⟩) ∨
        y ≠ x ∧ m.blocks.lookup y = some c := by
    intro y c hc
    rw [lookup_add] at hc
    split at hc
    · next heq => exact Or.inl ⟨heq, (Option.some.inj hc).symm⟩
    · next hne => exact Or.inr ⟨hne, hc⟩
  have htrace : ∀ {e}, e ∈ (m.add x capacity).trace ↔
      e ∈ m.trace ∨ e = .created m.made x capacity := by
    intro e
    rw [Memory.add, List.mem_append, List.mem_singleton]
  have hunborn : ∀ n y k, .created n y k ∈ m.trace → n ≠ m.made :=
    fun n y k hn => Nat.ne_of_lt (h.created n y k hn).1
  constructor
  · intro y c hc
    rcases hcases hc with ⟨rfl, rfl⟩ | ⟨-, hc⟩
    · exact ⟨hfree.2.1, hfree.2.2.1, hfree.2.2.2.1⟩
    · apply h.aligned y c hc
  · intro y z c d hc hd hne
    rcases hcases hc with ⟨rfl, rfl⟩ | ⟨-, hold⟩
    · rcases hcases hd with ⟨rfl, -⟩ | ⟨-, hold'⟩
      · apply absurd rfl hne
      · apply hfree.apart hold'
    · rcases hcases hd with ⟨rfl, rfl⟩ | ⟨-, hold'⟩
      · apply (hfree.apart hold).symm
      · apply h.apart y z c d hold hold' hne
  · intro y z c d hc hd heq
    rcases hcases hc with ⟨rfl, rfl⟩ | ⟨-, hold⟩
    · rcases hcases hd with ⟨rfl, -⟩ | ⟨-, hold'⟩
      · rfl
      · apply absurd heq.symm (Nat.ne_of_lt (h.serial_lt hold'))
    · rcases hcases hd with ⟨rfl, rfl⟩ | ⟨-, hold'⟩
      · apply absurd heq (Nat.ne_of_lt (h.serial_lt hold))
      · apply h.serial y z c d hold hold' heq
  · intro y c hc
    rcases hcases hc with ⟨rfl, rfl⟩ | ⟨-, hc⟩
    · apply htrace.mpr (Or.inr rfl)
    · apply htrace.mpr (Or.inl (h.recorded y c hc))
  · intro n y k hn
    rcases htrace.mp hn with hn | hn
    · obtain ⟨hlt, heq⟩ := h.created n y k hn
      use Nat.lt_succ_of_lt hlt
      intro z c hc hserial
      rcases hcases hc with ⟨-, rfl⟩ | ⟨-, hc⟩
      · apply absurd hserial.symm (Nat.ne_of_lt hlt)
      · apply heq z c hc hserial
    · obtain ⟨rfl, rfl, rfl⟩ : n = m.made ∧ y = x ∧ k = capacity := by simpa using hn
      use Nat.lt_succ_self _
      intro z c hc hserial
      rcases hcases hc with ⟨rfl, rfl⟩ | ⟨-, hc⟩
      · exact ⟨rfl, rfl⟩
      · apply absurd hserial (Nat.ne_of_lt (h.serial_lt hc))
  · intro y c hc hdel
    rcases htrace.mp hdel with hdel | hdel
    · rcases hcases hc with ⟨-, rfl⟩ | ⟨-, hc⟩
      · apply h.unborn _ (Nat.le_refl _) hdel
      · apply h.live y c hc hdel
    · cases hdel
  · intro n hn hnone
    rcases Nat.lt_succ_iff_lt_or_eq.mp hn with hn | rfl
    · rw [Memory.add, List.count_append, h.gone n hn]
      · simp
      · intro y c hc
        apply hnone y c
        rw [lookup_add, if_neg (hfree.ne hc), hc]
    · apply absurd rfl
      apply hnone x ⟨m.made, (sizeofBlock + capacity) % 2 ^ 64, capacity, none⟩
      rw [lookup_add, if_pos rfl]
  · intro n hn hdel
    rcases htrace.mp hdel with hdel | hdel
    · apply h.unborn n (Nat.le_of_succ_le hn) hdel
    · cases hdel

/-- A block is destroyed. -/
theorem Sane.erase (h : m.Sane) (hb : m.blocks.lookup x = some b) :
  (m.erase x b.serial).Sane
  := by
  have hold : ∀ {y c}, (m.erase x b.serial).blocks.lookup y = some c →
      y ≠ x ∧ m.blocks.lookup y = some c := by
    intro y c hc
    rw [lookup_erase] at hc
    split at hc
    · cases hc
    · next hne => exact ⟨hne, hc⟩
  have htrace : ∀ {e}, e ∈ (m.erase x b.serial).trace ↔
      e ∈ m.trace ∨ e = .destroyed b.serial := by
    intro e
    rw [Memory.erase, List.mem_append, List.mem_singleton]
  constructor
  · intro y c hc
    apply h.aligned y c (hold hc).2
  · intro y z c d hc hd
    apply h.apart y z c d (hold hc).2 (hold hd).2
  · intro y z c d hc hd
    apply h.serial y z c d (hold hc).2 (hold hd).2
  · intro y c hc
    apply htrace.mpr (Or.inl (h.recorded y c (hold hc).2))
  · intro n y k hn
    rcases htrace.mp hn with hn | hn
    · obtain ⟨hlt, heq⟩ := h.created n y k hn
      use hlt
      intro z c hc
      apply heq z c (hold hc).2
    · cases hn
  · intro y c hc hdel
    obtain ⟨hne, hc⟩ := hold hc
    rcases htrace.mp hdel with hdel | hdel
    · apply h.live y c hc hdel
    · apply hne
      apply h.serial y x c b hc hb (Effect.destroyed.inj hdel)
  · intro n hn hnone
    rw [Memory.erase, List.count_append]
    rcases Classical.em (n = b.serial) with rfl | hne
    · rw [List.count_eq_zero.mpr (h.live x b hb)]
      simp
    · have hother : ([.destroyed b.serial] : List Effect).count (.destroyed n) = 0 := by
        apply List.count_eq_zero.mpr
        intro hmem
        apply hne (Effect.destroyed.inj (List.mem_singleton.mp hmem))
      rw [hother, h.gone n hn]
      intro y c hc heq
      rcases Classical.em (y = x) with rfl | hyx
      · obtain rfl := Option.some.inj (hb.symm.trans hc)
        apply hne heq.symm
      · apply hnone y c _ heq
        rw [lookup_erase, if_neg hyx, hc]
  · intro n hn hdel
    rcases htrace.mp hdel with hdel | hdel
    · apply h.unborn n hn hdel
    · obtain rfl := Effect.destroyed.inj hdel
      apply Nat.lt_irrefl _ (Nat.lt_of_lt_of_le (h.serial_lt hb) hn)

/-- What is recorded of destructors does not concern the blocks. -/
theorem Sane.record (h : m.Sane) (hblocks : m'.blocks = m.blocks) (hmade : m'.made = m.made)
    (htrace : m'.trace = m.trace ++ es) (hes : ∀ e, e ∈ es → ¬ e.IsBlock) :
  m'.Sane
  := by
  have hmem : ∀ {e : Effect}, e.IsBlock → (e ∈ m'.trace ↔ e ∈ m.trace) := by
    intro e he
    rw [htrace, List.mem_append]
    constructor
    · rintro (hold | hnew)
      · apply hold
      · apply absurd he (hes e hnew)
    · exact Or.inl
  have hcreated : ∀ n y k, (Effect.created n y k).IsBlock := fun _ _ _ => trivial
  have hdestroyed : ∀ n, (Effect.destroyed n).IsBlock := fun _ => trivial
  constructor
  · rw [hblocks]
    apply h.aligned
  · rw [hblocks]
    apply h.apart
  · rw [hblocks]
    apply h.serial
  · intro y c hc
    rw [hblocks] at hc
    apply (hmem (hcreated _ _ _)).mpr (h.recorded y c hc)
  · intro n y k hn
    rw [hblocks, hmade]
    apply h.created n y k ((hmem (hcreated _ _ _)).mp hn)
  · intro y c hc
    rw [hblocks] at hc
    rw [hmem (hdestroyed _)]
    apply h.live y c hc
  · intro n hn hnone
    rw [hblocks] at hnone
    rw [hmade] at hn
    rw [htrace, List.count_append, h.gone n hn hnone, List.count_eq_zero.mpr]
    intro hdel
    apply hes _ hdel (hdestroyed n)
  · intro n hn
    rw [hmade] at hn
    rw [hmem (hdestroyed _)]
    apply h.unborn n hn

/-- `x->next`, null if there is no block. -/
def next (m : Memory) (x : ℕ) : Option ℕ :=
  (m.blocks.lookup x).bind MemoryBlock.next

end Memory

/-- The addresses of cells. -/
abbrev addrs (cells : List Cell) : List ℕ :=
  cells.map Cell.addr

/-- The block of a cell. -/
def Cell.block (c : Cell) (next : Option ℕ) : MemoryBlock :=
  ⟨c.serial, (sizeofBlock + c.capacity) % 2 ^ 64, c.capacity, next⟩

/-- The cells are blocks of the memory that are linked one to the next, and the last one to `p`. -/
structure Holds (m : Memory) (p : Option ℕ) (cells : List Cell) : Prop where
  linked : Leads m.next p (addrs cells)
  held : ∀ c, c ∈ cells → ∃ next, m.blocks.lookup c.addr = some (c.block next)
  nodup : (addrs cells).Nodup

variable {m m' m'' : Memory} {p q : Option ℕ} {b c : Cell} {cells cells' old mid new init : List Cell}
  {es es' : List Effect}

theorem addrs_cons :
  addrs (c :: cells) = c.addr :: addrs cells
  := rfl

theorem notMem_addrs {x : ℕ} :
  x ∉ addrs (init ++ c :: cells) ↔ x ∉ addrs init ∧ x ≠ c.addr ∧ x ∉ addrs cells
  := by
  simp [addrs]

theorem holds_nil :
  Holds m p []
  := ⟨trivial, nofun, List.nodup_nil⟩

/-- Only the blocks of the cells matter. -/
theorem Holds.congr (h : Holds m p cells)
    (heq : ∀ c, c ∈ cells → m'.blocks.lookup c.addr = m.blocks.lookup c.addr) :
  Holds m' p cells
  := by
  constructor
  · apply h.linked.congr
    intro x hx
    obtain ⟨c, hc, rfl⟩ := List.mem_map.mp hx
    rw [Memory.next, Memory.next, heq c hc]
  · intro c hc
    rw [heq c hc]
    apply h.held c hc
  · apply h.nodup

theorem holds_append :
  Holds m p (cells ++ cells') ↔
    Holds m ((addrs cells').head?.or p) cells ∧ Holds m p cells' ∧
      ∀ x, x ∈ addrs cells → x ∉ addrs cells'
  := by
  constructor
  · rintro ⟨hlinked, hheld, hnodup⟩
    rw [addrs, List.map_append] at hlinked hnodup
    obtain ⟨hinit, htail⟩ := leads_append.mp hlinked
    obtain ⟨hnodup, hnodup', hdisj⟩ := List.nodup_append.mp hnodup
    refine ⟨⟨hinit, ?_, hnodup⟩, ⟨htail, ?_, hnodup'⟩, ?_⟩
    · intro c hc
      apply hheld c (List.mem_append_left _ hc)
    · intro c hc
      apply hheld c (List.mem_append_right _ hc)
    · intro x hx hx'
      apply hdisj x hx x hx' rfl
  · rintro ⟨h, h', hdisj⟩
    constructor
    · rw [addrs, List.map_append]
      apply leads_append.mpr ⟨h.linked, h'.linked⟩
    · intro c hc
      rcases List.mem_append.mp hc with hc | hc
      · apply h.held c hc
      · apply h'.held c hc
    · rw [addrs, List.map_append]
      apply List.nodup_append.mpr
      refine ⟨h.nodup, h'.nodup, ?_⟩
      rintro x hx y hy rfl
      apply hdisj x hx hy

theorem holds_cons :
  Holds m p (c :: cells) ↔
    m.blocks.lookup c.addr = some (c.block ((addrs cells).head?.or p)) ∧ Holds m p cells ∧
      c.addr ∉ addrs cells
  := by
  constructor
  · rintro ⟨⟨hnext, hlinked⟩, hheld, hnodup⟩
    obtain ⟨hnot, hnodup⟩ := List.nodup_cons.mp hnodup
    refine ⟨?_, ⟨hlinked, ?_, hnodup⟩, hnot⟩
    · obtain ⟨next, hlookup⟩ := hheld c List.mem_cons_self
      rw [Memory.next, hlookup] at hnext
      rw [hlookup, ← hnext]
      rfl
    · intro d hd
      apply hheld d (List.mem_cons_of_mem c hd)
  · rintro ⟨hlookup, h, hnot⟩
    constructor
    · use by rw [Memory.next, hlookup]; rfl
      apply h.linked
    · intro d hd
      rcases List.mem_cons.mp hd with rfl | hd
      · exact ⟨_, hlookup⟩
      · apply h.held d hd
    · apply List.nodup_cons.mpr ⟨hnot, h.nodup⟩

/-- There are no more cells than blocks. -/
theorem Holds.length_le (h : Holds m p cells) :
  cells.length ≤ m.fuel
  := by
  have hsub : (addrs cells).toFinset ⊆ m.blocks.keys := by
    intro x hx
    obtain ⟨c, hc, rfl⟩ := List.mem_map.mp (List.mem_toFinset.mp hx)
    obtain ⟨next, hlookup⟩ := h.held c hc
    rw [Finmap.mem_keys]
    apply Finmap.mem_of_lookup_eq_some hlookup
  have hcard := Finset.card_le_card hsub
  rw [List.toFinset_card_of_nodup h.nodup, List.length_map] at hcard
  apply hcard

/-- The memory `m'` has the chain `new` where `m` has the chain `old`, the other blocks are the
same, and `es` is recorded. -/
structure Replaces (m m' : Memory) (old new : List Cell) (es : List Effect) : Prop where
  sane : m'.Sane
  holds : Holds m' none new
  frame : ∀ x b, m.blocks.lookup x = some b → x ∉ addrs old →
    m'.blocks.lookup x = some b ∧ x ∉ addrs new
  only : ∀ x b, m'.blocks.lookup x = some b → x ∉ addrs new →
    m.blocks.lookup x = some b ∧ x ∉ addrs old
  trace : m'.trace = m.trace ++ es
  registered : m'.registered = m.registered
  effects : ∀ e, e ∈ es → e.IsBlock

/-- Nothing is done. -/
theorem Replaces.refl (hsane : m.Sane) (h : Holds m none cells) :
  Replaces m m cells cells []
  := by
  constructor
  · apply hsane
  · apply h
  · intro x b hx hnot
    use hx, hnot
  · intro x b hx hnot
    use hx, hnot
  · rw [List.append_nil]
  · rfl
  · nofun

/-- One thing is done after the other. -/
theorem Replaces.trans (h : Replaces m m' old mid es) (h' : Replaces m' m'' mid new es') :
  Replaces m m'' old new (es ++ es')
  := by
  constructor
  · apply h'.sane
  · apply h'.holds
  · intro x b hx hnot
    obtain ⟨hx, hnot⟩ := h.frame x b hx hnot
    apply h'.frame x b hx hnot
  · intro x b hx hnot
    obtain ⟨hx, hnot⟩ := h'.only x b hx hnot
    apply h.only x b hx hnot
  · rw [h'.trace, h.trace, List.append_assoc]
  · rw [h'.registered, h.registered]
  · intro e he
    rcases List.mem_append.mp he with he | he
    · apply h.effects e he
    · apply h'.effects e he

/-- A block that is not on the chain is destroyed. -/
theorem Replaces.destroy {next : Option ℕ} (h : Replaces m m' old new es)
    (hc : m'.blocks.lookup c.addr = some (c.block next)) (hnot : c.addr ∉ addrs new) :
  ∃ m'', m'.destroy c.addr = .ok m'' ∧ Replaces m m'' (c :: old) new (es ++ freed [c])
  := by
  have hsame : ∀ x, x ≠ c.addr →
      (m'.erase c.addr c.serial).blocks.lookup x = m'.blocks.lookup x := by
    intro x hx
    rw [Memory.lookup_erase, if_neg hx]
  use m'.erase c.addr c.serial, Memory.destroy_eq hc
  constructor
  · apply h.sane.erase hc
  · apply h.holds.congr
    intro d hd
    apply hsame
    intro heq
    apply hnot
    rw [← heq]
    apply List.mem_map_of_mem hd
  · intro x b hx hold
    rw [addrs_cons, List.mem_cons, not_or] at hold
    rw [hsame x hold.1]
    apply h.frame x b hx hold.2
  · intro x b hx hnew
    rw [Memory.lookup_erase] at hx
    split at hx
    · cases hx
    · next hne =>
        rw [addrs_cons, List.mem_cons, not_or]
        obtain ⟨hx, hold⟩ := h.only x b hx hnew
        use hx, hne
  · rw [Memory.erase, h.trace, List.append_assoc]
    rfl
  · apply h.registered
  · intro e he
    rcases List.mem_append.mp he with he | he
    · apply h.effects e he
    · obtain rfl := List.mem_singleton.mp he
      trivial

/-- The first block of a chain is destroyed. -/
theorem Holds.destroy (hsane : m.Sane) (h : Holds m none (c :: cells)) :
  ∃ m', m.destroy c.addr = .ok m' ∧ Replaces m m' (c :: cells) cells (freed [c])
  := by
  obtain ⟨hlookup, hcells, hnot⟩ := holds_cons.mp h
  apply (Replaces.refl hsane hcells).destroy hlookup hnot

/-- A block is put before a chain. -/
theorem Replaces.cons (h : Replaces m m' old new es) (hsane : m''.Sane)
    (hfree : m'.blocks.lookup c.addr = none)
    (hlookup : ∀ x, m''.blocks.lookup x =
      if x = c.addr then some (c.block (addrs new).head?) else m'.blocks.lookup x)
    (htrace : m''.trace = m'.trace ++ c.made) (hregistered : m''.registered = m'.registered) :
  Replaces m m'' old (c :: new) (es ++ c.made)
  := by
  have hne : ∀ {x b}, m'.blocks.lookup x = some b → x ≠ c.addr := by
    rintro x b hx rfl
    rw [hfree] at hx
    cases hx
  have hne' : ∀ d, d ∈ new → d.addr ≠ c.addr := by
    intro d hd
    obtain ⟨next, hd⟩ := h.holds.held d hd
    apply hne hd
  constructor
  · apply hsane
  · rw [holds_cons, hlookup, if_pos rfl, Option.or_none]
    refine ⟨rfl, ?_, ?_⟩
    · apply h.holds.congr
      intro d hd
      rw [hlookup, if_neg (hne' d hd)]
    · intro hmem
      obtain ⟨d, hd, heq⟩ := List.mem_map.mp hmem
      apply hne' d hd heq
  · intro x b hx hold
    obtain ⟨hx, hnot⟩ := h.frame x b hx hold
    rw [hlookup, if_neg (hne hx), addrs_cons, List.mem_cons, not_or]
    exact ⟨hx, hne hx, hnot⟩
  · intro x b hx hnew
    rw [addrs_cons, List.mem_cons, not_or] at hnew
    rw [hlookup, if_neg hnew.1] at hx
    apply h.only x b hx hnew.2
  · rw [htrace, h.trace, List.append_assoc]
  · rw [hregistered, h.registered]
  · intro e he
    rcases List.mem_append.mp he with he | he
    · apply h.effects e he
    · obtain rfl := List.mem_singleton.mp he
      trivial

/-- A new block is a chain of its own. -/
theorem Replaces.create (h : Replaces m m' old [] es) (capacity : ℕ) :
  Yields (m'.create capacity) fun r =>
    ∃ d, r.1 = d.addr ∧ d.capacity = capacity ∧ Replaces m r.2 old [d] (es ++ d.made)
  := by
  rcases m'.create_cases capacity with hbad | ⟨x, hcreate, hfree⟩
  · exact Or.inl hbad
  · rw [hcreate]
    apply Yields.ok
    use ⟨m'.made, x, capacity⟩, rfl, rfl
    apply h.cons (c := ⟨m'.made, x, capacity⟩) (h.sane.add hfree) hfree.lookup
    · apply m'.lookup_add
    · rfl
    · rfl

/-- A new block is put before a chain. -/
theorem Replaces.push (h : Replaces m m' old new es) (capacity : ℕ) :
  Yields (m'.create capacity) fun r =>
    ∃ d m'', r.1 = d.addr ∧ d.capacity = capacity ∧
      r.2.setNext d.addr (addrs new).head? = .ok m'' ∧
      Replaces m m'' old (d :: new) (es ++ d.made)
  := by
  rcases m'.create_cases capacity with hbad | ⟨x, hcreate, hfree⟩
  · exact Or.inl hbad
  · have hnew := m'.lookup_add x capacity x
    rw [if_pos rfl] at hnew
    have hsane := h.sane.add hfree
    rw [hcreate]
    apply Yields.ok
    refine ⟨⟨m'.made, x, capacity⟩, _, rfl, rfl, Memory.setNext_eq hnew, ?_⟩
    apply h.cons (c := ⟨m'.made, x, capacity⟩) (hsane.setNext hnew) hfree.lookup
    · intro y
      split
      · next heq =>
          rw [heq]
          apply Finmap.lookup_insert
      · next hne =>
          apply (Finmap.lookup_insert_of_ne _ hne).trans
          rw [m'.lookup_add, if_neg hne]
    · rfl
    · rfl

/-- A chain of which the last part was replaced is linked to the new part. -/
theorem Replaces.relink (h : Replaces m m' old new es) (hholds : Holds m none (init ++ c :: old)) :
  ∃ m'', m'.setNext c.addr (addrs new).head? = .ok m'' ∧
    Replaces m m'' (init ++ c :: old) (init ++ c :: new) es
  := by
  obtain ⟨hinit, htail, hdisj⟩ := holds_append.mp hholds
  obtain ⟨hlookup, hold, hcold⟩ := holds_cons.mp htail
  obtain ⟨hc, hcnew⟩ := h.frame _ _ hlookup hcold
  have hframe : ∀ d, d ∈ init → d.addr ≠ c.addr ∧
      m'.blocks.lookup d.addr = m.blocks.lookup d.addr ∧ d.addr ∉ addrs new := by
    intro d hd
    have hnot := hdisj d.addr (List.mem_map_of_mem hd)
    rw [addrs_cons, List.mem_cons, not_or] at hnot
    obtain ⟨next, hlookup⟩ := hinit.held d hd
    obtain ⟨hd', hdnew⟩ := h.frame _ _ hlookup hnot.2
    exact ⟨hnot.1, hd'.trans hlookup.symm, hdnew⟩
  have hother : ∀ x, x ≠ c.addr →
      (m'.blocks.insert c.addr (c.block (addrs new).head?)).lookup x = m'.blocks.lookup x :=
    fun x hx => Finmap.lookup_insert_of_ne _ hx
  use { m' with blocks := m'.blocks.insert c.addr (c.block (addrs new).head?) },
    Memory.setNext_eq hc
  constructor
  · apply h.sane.setNext hc
  · rw [holds_append, holds_cons]
    refine ⟨?_, ⟨?_, ?_, hcnew⟩, ?_⟩
    · apply hinit.congr
      intro d hd
      rw [hother _ (hframe d hd).1, (hframe d hd).2.1]
    · rw [Finmap.lookup_insert, Option.or_none]
    · apply h.holds.congr
      intro d hd
      apply hother
      intro heq
      apply hcnew
      rw [← heq]
      apply List.mem_map_of_mem hd
    · intro x hx
      obtain ⟨d, hd, rfl⟩ := List.mem_map.mp hx
      rw [addrs_cons, List.mem_cons, not_or]
      exact ⟨(hframe d hd).1, (hframe d hd).2.2⟩
  · intro x b hx hnot
    rw [notMem_addrs] at hnot ⊢
    obtain ⟨hx, hxnew⟩ := h.frame x b hx hnot.2.2
    rw [hother x hnot.2.1]
    exact ⟨hx, hnot.1, hnot.2.1, hxnew⟩
  · intro x b hx hnot
    rw [notMem_addrs] at hnot ⊢
    rw [hother x hnot.2.1] at hx
    obtain ⟨hx, hxold⟩ := h.only x b hx hnot.2.2
    exact ⟨hx, hnot.1, hnot.2.1, hxold⟩
  · apply h.trace
  · apply h.registered
  · apply h.effects

/-! ### The loops over blocks -/

/-- `destroy_blocks_start_from` destroys the whole chain. -/
theorem destroyBlocks_eq {fuel : ℕ} (hsane : m.Sane) (h : Holds m none cells)
    (hfuel : cells.length ≤ fuel) :
  ∃ m', destroyBlocks fuel (addrs cells).head? m = .ok m' ∧
    Replaces m m' cells [] (freed cells)
  := by
  induction cells generalizing m fuel with
  | nil =>
      use m
      constructor
      · cases fuel <;> rfl
      · apply Replaces.refl hsane h
  | cons c cells ih =>
      obtain ⟨fuel, rfl⟩ := Nat.exists_eq_add_one.mpr (Nat.zero_lt_of_lt hfuel)
      obtain ⟨hlookup, -, -⟩ := holds_cons.mp h
      obtain ⟨m₁, hdestroy, hfirst⟩ := h.destroy hsane
      obtain ⟨m', hrest, hreplaces⟩ := ih hfirst.sane hfirst.holds (Nat.le_of_succ_le_succ hfuel)
      use m'
      constructor
      · rw [addrs_cons, List.head?_cons, destroyBlocks, Memory.get_eq hlookup, ok_bind, hdestroy,
          ok_bind, Cell.block, Option.or_none, hrest]
      · apply hfirst.trans hreplaces

/-- The loop of `compact_block` destroys the blocks of the cells that are taken. -/
theorem compactLoop_eq (blockSize fuel capacity : ℕ) (hsane : m.Sane) (h : Holds m none cells)
    (hfuel : cells.length ≤ fuel) :
  ∃ m', compactLoop blockSize fuel capacity (addrs cells).head? m =
      .ok ((addrs (dropFilled blockSize capacity cells)).head?, m') ∧
    Replaces m m' cells (dropFilled blockSize capacity cells)
      (freed (takeFilled blockSize capacity cells))
  := by
  induction cells generalizing m fuel capacity with
  | nil =>
      use m
      constructor
      · cases fuel <;> rfl
      · apply Replaces.refl hsane h
  | cons c cells ih =>
      obtain ⟨fuel, rfl⟩ := Nat.exists_eq_add_one.mpr (Nat.zero_lt_of_lt hfuel)
      obtain ⟨hlookup, -, -⟩ := holds_cons.mp h
      rw [addrs_cons, List.head?_cons, compactLoop, takeFilled, dropFilled]
      split
      · obtain ⟨m₁, hdestroy, hfirst⟩ := h.destroy hsane
        obtain ⟨m', hrest, hreplaces⟩ := ih fuel
          ((capacity + c.capacity) % 2 ^ 64) hfirst.sane hfirst.holds (Nat.le_of_succ_le_succ hfuel)
        use m'
        constructor
        · rw [Memory.get_eq hlookup, ok_bind, hdestroy, ok_bind, Cell.block, Option.or_none, hrest]
        · apply hfirst.trans hreplaces
      · use m, rfl
        apply Replaces.refl hsane h

/-- `compact_block` compacts the cell. -/
theorem compactBlock_spec {blockSize : ℕ} (hsane : m.Sane) (h : Holds m none (c :: cells)) :
  Yields (compactBlock blockSize c.addr m) fun r =>
    ∃ c' cells' es, r.1 = c'.addr ∧ Compacts blockSize c cells c' cells' es ∧
      Replaces m r.2 (c :: cells) (c' :: cells') es
  := by
  obtain ⟨hlookup, hcells, hnot⟩ := holds_cons.mp h
  rw [compactBlock, Memory.get_eq hlookup, ok_bind]
  simp only [Cell.block, Option.or_none]
  rcases Nat.lt_or_ge c.capacity blockSize with hsmall | hlarge
  · have hlength := h.length_le
    rw [List.length_cons] at hlength
    obtain ⟨m₁, hloop, htaken⟩ := compactLoop_eq blockSize m.fuel c.capacity
      hsane hcells (Nat.le_of_succ_le hlength)
    obtain ⟨hlookup', hnot'⟩ := htaken.frame _ _ hlookup hnot
    obtain ⟨m₂, hdestroy, hgone⟩ := htaken.destroy hlookup' hnot'
    rw [if_neg (Nat.not_le.mpr hsmall), hloop, ok_bind]
    simp only
    rw [hdestroy, ok_bind]
    apply (hgone.push blockSize).bind
    rintro ⟨y, m₃⟩ ⟨d, m', rfl, hd, hset, hpush⟩
    rw [hset, ok_bind]
    apply Yields.ok
    exact ⟨d, dropFilled blockSize c.capacity cells, _, rfl, .merges d hsmall hd, hpush⟩
  · rw [if_pos hlarge]
    apply Yields.ok
    exact ⟨c, cells, [], rfl, .keeps hlarge, Replaces.refl hsane h⟩

end StaticMemoryPool
