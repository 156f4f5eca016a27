import CppFreshman.Pool.Release

/-!
# The blocks of the objects

`HeldBy` says of a record which block an object was in when its destructor was registered, and
`Ordered` that the block was not destroyed before the destructor had run.  It holds of programs in
which no sum wraps around and destructors are registered where their objects are (`Backed`): the
cells in use, which the objects are in, are destroyed only after the cleaners have run.
-/

namespace StaticMemoryPool

/-! ### What is recorded of objects -/

/-- The destructor number `k` was registered for an object in the data of the block number `n`. -/
def HeldBy (trace : List Effect) (k n : ℕ) : Prop :=
  ∃ a p b x c, trace = a ++ .registered k p :: b ∧ .created n x c ∈ a ∧ .destroyed n ∉ a ∧
    x + sizeofBlock ≤ p ∧ p < x + sizeofBlock + c

/-- Every destructor has run before the block of its object is destroyed. -/
def Ordered (trace : List Effect) : Prop :=
  ∀ a n b, trace = a ++ .destroyed n :: b → ∀ k, HeldBy a k n → .destructed k ∈ a

variable {t es : List Effect} {k n : ℕ}

theorem HeldBy.append (h : HeldBy t k n) (es : List Effect) :
  HeldBy (t ++ es) k n
  := by
  obtain ⟨a, p, b, x, c, rfl, hheld⟩ := h
  use a, p, b ++ es, x, c
  rw [List.append_assoc, List.cons_append]
  use rfl

theorem HeldBy.registered_mem (h : HeldBy t k n) :
  ∃ p, .registered k p ∈ t
  := by
  obtain ⟨a, p, b, x, c, rfl, -⟩ := h
  use p
  apply List.mem_append_right _ List.mem_cons_self

/-- What an element stands behind in a list is the same in a shorter one that it is in. -/
theorem split_of_append {e : Effect} {a b : List Effect} (h : t ++ es = a ++ e :: b)
    (he : e ∉ es) :
  ∃ b', t = a ++ e :: b'
  := by
  rcases List.append_eq_append_iff.mp h with ⟨a', rfl, hes⟩ | ⟨b', ht, hb⟩
  · apply absurd _ he
    rw [hes]
    apply List.mem_append_right _ List.mem_cons_self
  · cases b' with
    | nil =>
        apply absurd _ he
        rw [← List.nil_append es, ← hb]
        apply List.mem_cons_self
    | cons f b' =>
        obtain ⟨rfl, -⟩ := List.cons.inj hb
        use b', ht

theorem HeldBy.of_append (h : HeldBy (t ++ es) k n) (hk : ∀ p, .registered k p ∉ es) :
  HeldBy t k n
  := by
  obtain ⟨a, p, b, x, c, heq, hheld⟩ := h
  obtain ⟨b', rfl⟩ := split_of_append heq (hk p)
  use a, p, b', x, c, rfl

/-- The block of an object whose destructor has just been registered was not destroyed before. -/
theorem HeldBy.last {p : ℕ} (h : HeldBy (t ++ [.registered k p]) k n)
    (hk : ∀ q, .registered k q ∉ t) :
  ∃ x c, .created n x c ∈ t ∧ .destroyed n ∉ t ∧
    x + sizeofBlock ≤ p ∧ p < x + sizeofBlock + c
  := by
  obtain ⟨a, q, b, x, c, heq, hheld⟩ := h
  rcases List.append_eq_append_iff.mp heq with ⟨a', rfl, hes⟩ | ⟨b', rfl, hb⟩
  · cases a' with
    | nil =>
        obtain ⟨he, -⟩ := List.cons.inj hes
        obtain ⟨-, rfl⟩ := Effect.registered.inj he
        rw [List.append_nil] at hheld
        use x, c
    | cons e a' =>
        obtain ⟨-, htail⟩ := List.cons.inj hes
        apply absurd htail
        simp
  · cases b' with
    | nil =>
        obtain ⟨he, -⟩ := List.cons.inj hb
        obtain ⟨-, rfl⟩ := Effect.registered.inj he
        rw [List.append_nil] at *
        use x, c
    | cons e b' =>
        obtain ⟨rfl, -⟩ := List.cons.inj hb
        apply absurd _ (hk q)
        apply List.mem_append_right _ List.mem_cons_self

/-- A block that was created and has not been destroyed is there. -/
theorem Memory.Sane.lookup_of_created {m : Memory} {x c : ℕ} (h : m.Sane)
    (hc : .created n x c ∈ m.trace) (hd : .destroyed n ∉ m.trace) :
  ∃ b, m.blocks.lookup x = some b ∧ b.serial = n ∧ b.capacity = c
  := by
  obtain ⟨hlt, hplace⟩ := h.created n x c hc
  have hexists : ∃ y b, m.blocks.lookup y = some b ∧ b.serial = n := by
    by_contra hnone
    have hone := h.gone n hlt fun y b hb hn => hnone ⟨y, b, hb, hn⟩
    rw [List.count_eq_zero.mpr hd] at hone
    cases hone
  obtain ⟨y, b, hb, hn⟩ := hexists
  obtain ⟨rfl, hcapacity⟩ := hplace y b hb hn
  exact ⟨b, hb, hn, hcapacity⟩

/-- The destructors of a pool run before anything is recorded of blocks. -/
theorem Accounts.before {cs cs' : List Cleaner} {a b : List Effect} (h : Accounts cs cs' es)
    (heq : es = a ++ .destroyed n :: b) (hk : .destructed k ∈ es) :
  .destructed k ∈ a
  := by
  cases h with
  | keeps hes => apply absurd (hes _ hk) id
  | adds hes hc =>
      rcases List.mem_append.mp hk with hk | hk
      · apply absurd (hes _ hk) id
      · cases List.mem_singleton.mp hk
  | runs hes =>
      have hrun : .destructed k ∈ cs.flatMap Cleaner.run := by
        rcases List.mem_append.mp hk with hk | hk
        · exact hk
        · apply absurd (hes _ hk) id
      rcases List.append_eq_append_iff.mp heq with ⟨a', rfl, -⟩ | ⟨b', hb', htail⟩
      · apply List.mem_append_left _ hrun
      · cases b' with
        | nil =>
            rw [List.append_nil] at hb'
            rw [← hb']
            exact hrun
        | cons e b' =>
            obtain ⟨rfl, -⟩ := List.cons.inj htail
            have hmem : .destroyed n ∈ cs.flatMap Cleaner.run := by
              rw [hb']
              apply List.mem_append_right _ List.mem_cons_self
            apply absurd trivial (run_effects _ _ hmem).1

/-! ### The cells in use -/

/-- The ledger has handed out the region of an object at `x`, and the cell number `n` is in
use. -/
structure Ledger.Holding (l : Ledger) (x n : ℕ) : Prop where
  cell : ∃ d, d ∈ l.arena.used ∧ d.serial = n
  region : ∃ r, r ∈ l.regions ∧ r.Contains x

variable {grow : ℕ → ℕ} {align size start x : ℕ} {a a' : Arena} {c : Chain} {l l' : Ledger}

theorem Arena.used_of_chain (hc : a.chain = some c) :
  a.used = c.used
  := by
  rw [Arena.used, hc]

theorem Arena.used_mk (blockSize pos : ℕ) (c : Chain) :
  (Arena.mk blockSize pos (some c)).used = c.used
  := rfl

theorem Arena.used_setPos (a : Arena) (pos : ℕ) :
  (a.setPos pos).used = a.used
  := rfl

theorem Arena.giveBack_used (a : Arena) (buffer size align : ℕ) :
  (a.giveBack buffer size align).used = a.used
  := by
  rw [giveBack]
  split
  · rfl
  · split
    · apply used_setPos
    · rfl

theorem Chain.used_subset (c : Chain) :
  c.used ⊆ c.cells
  := by
  intro d hd
  rw [Chain.cells, List.append_cons]
  apply List.mem_append_left _ hd

theorem Arena.used_subset (a : Arena) :
  a.used ⊆ a.cells
  := by
  rw [Arena.used, Arena.cells]
  split
  · apply List.Subset.refl
  · apply Chain.used_subset

theorem Opens.used_subset (h : Opens a c es) :
  a.used ⊆ c.used
  := by
  cases h with
  | has h =>
      rw [Arena.used_of_chain h]
      apply List.Subset.refl
  | first d h hd =>
      rw [Arena.used, h]
      apply List.nil_subset

theorem Allocates.used_subset (h : Allocates grow align size a c a' start es) :
  c.used ⊆ a'.used
  := by
  cases h with
  | bump h =>
      rw [Arena.used_mk]
      apply List.Subset.refl
  | reuse h hn hafter hnext =>
      rw [Arena.used_mk]
      apply List.subset_append_left
  | fresh d h hn hafter hd =>
      rw [Arena.used_mk]
      apply List.subset_append_left
  | own d h hn hd =>
      rw [Arena.used_mk]
      apply List.subset_cons_self

/-- The cells in use stay in use when bytes are allocated. -/
theorem Grants.used_subset {align : Pool.Alignment} (h : Grants grow a size align a' start es) :
  a.used ⊆ a'.used
  := by
  cases h with
  | small hopen h => apply List.Subset.trans hopen.used_subset h.used_subset
  | large hopen h =>
      rw [Arena.giveBack_used]
      apply List.Subset.trans hopen.used_subset h.used_subset

theorem Ledger.Holding.handOut {r : Region} (h : l.Holding x n) (hused : l.arena.used ⊆ a.used) :
  (l.handOut a r).Holding x n
  := by
  obtain ⟨⟨d, hd, hn⟩, r', hr', hx⟩ := h
  exact ⟨⟨d, hused hd, hn⟩, r', List.mem_append_left _ hr', hx⟩

theorem Ledger.Holding.resize (h : l.Holding x n) (blockSize : ℕ) :
  Ledger.Holding { l with arena := l.arena.resize blockSize } x n
  := by
  obtain ⟨hcell, hregion⟩ := h
  exact ⟨hcell, hregion⟩

/-- An object is in a chain that is used. -/
theorem Ledger.Sound.not_empty (hs : l.Sound) (hc : l.arena.chain = some c)
    (hbefore : c.before = []) (hpos : l.arena.pos = 0) :
  ¬ l.Holding x n
  := by
  rintro ⟨-, r, hr, hx⟩
  have hempty := (hs.frees hc hbefore hpos).empty r (List.mem_append_right _ hr)
  rw [Region.Contains, hempty] at hx
  omega

/-- As long as the cleaners have not run, the objects stay where they are. -/
theorem Ledger.Step.holding {op : Op} (hstep : l.Step grow op l' es) (hs : l.Sound)
    (h : l.Holding x n) :
  l'.cleaners = [] ∨ l'.Holding x n
  := by
  cases hstep with
  | createBuffer hgrants => exact Or.inr (h.handOut hgrants.used_subset)
  | createAligned hgrants => exact Or.inr (h.handOut hgrants.used_subset)
  | createTrivial hgrants => exact Or.inr (h.handOut hgrants.used_subset)
  | createObject hgrants =>
      obtain ⟨hcell, hregion⟩ := h.handOut hgrants.used_subset
      exact Or.inr ⟨hcell, hregion⟩
  | registerDestructor => exact Or.inr ⟨h.cell, h.region⟩
  | setBlockSize blockSize =>
      right
      apply h.resize
  | shrinkNothing hnone =>
      obtain ⟨⟨d, hd, -⟩, -⟩ := h
      rw [Arena.used, hnone] at hd
      cases hd
  | shrinkFrees hc hbefore hpos => apply absurd h (hs.not_empty hc hbefore hpos)
  | shrinkTrims hc hused =>
      obtain ⟨⟨d, hd, hn⟩, hregion⟩ := h
      rw [Arena.used_of_chain hc] at hd
      exact Or.inr ⟨⟨d, hd, hn⟩, hregion⟩
  | minNothing hnone => exact Or.inr h
  | minFrees hsome hclear => exact Or.inl rfl
  | minTrims hc hmin hafter =>
      obtain ⟨⟨d, hd, hn⟩, hregion⟩ := h
      rw [Arena.used_of_chain hc] at hd
      exact Or.inr ⟨⟨d, hd, hn⟩, hregion⟩
  | clear hclears => exact Or.inl rfl

/-! ### What the programs may do -/

/-- `x` is in the data of no block. -/
def Memory.Outside (m : Memory) (x : ℕ) : Prop :=
  ∀ y, y ∈ m.blocks.keys → ∀ b, b ∈ m.blocks.lookup y →
    ¬ (y + sizeofBlock ≤ x ∧ x < y + sizeofBlock + b.capacity)

instance (m : Memory) (x : ℕ) : Decidable (m.Outside x) := by
  unfold Memory.Outside
  infer_instance

instance Region.decidableContains (r : Region) (x : ℕ) : Decidable (r.Contains x) := by
  unfold Region.Contains
  infer_instance

/-- A destructor is registered for an object in a region that the pool has handed out, or for one
that is in no block of any pool. -/
def Registers (regions : List Region) (m : Memory) : Op → Prop
  | .registerDestructor _ pointer _ => (∃ r, r ∈ regions ∧ r.Contains pointer) ∨ m.Outside pointer
  | _ => True

instance {regions : List Region} {m : Memory} : ∀ op, Decidable (Registers regions m op)
  | .registerDestructor _ pointer _ => inferInstanceAs
      (Decidable ((∃ r, r ∈ regions ∧ r.Contains pointer) ∨ m.Outside pointer))
  | .createBuffer _ => isTrue trivial
  | .createAligned _ _ => isTrue trivial
  | .createObject _ _ _ _ => isTrue trivial
  | .setBlockSize _ => isTrue trivial
  | .shrinkToFit => isTrue trivial
  | .shrinkToFitMin _ => isTrue trivial
  | .clear => isTrue trivial

/-- The operation on the pool, if that is there, computes no sum that wraps around, and registers
a destructor where its object is. -/
def Member.OpOk (grow : ℕ → ℕ) (m : Memory) (op : Op) (news : List ℕ) : Option Member → Prop
  | none => True
  | some s => OpFits grow (s, m) (op, news) ∧ Registers s.regions m op

instance {grow : ℕ → ℕ} {m : Memory} {op : Op} {news : List ℕ} :
    ∀ s, Decidable (Member.OpOk grow m op news s)
  | none => isTrue trivial
  | some s => inferInstanceAs (Decidable (OpFits grow (s, m) (op, news) ∧ Registers s.regions m op))

/-- The event computes no sum that wraps around, and registers a destructor where its object
is. -/
def World.EventOk {κ : Type} (grow : ℕ → ℕ) (w : World κ) : Event κ × List ℕ → Prop
  | (.construct _ blockSize, _) => blockSize + 4095 < 2 ^ 64
  | (.run k op, news) => Member.OpOk grow w.memory op news (w.members k)
  | (.moveConstruct _ _, _) => True
  | (.moveAssign _ _, _) => True
  | (.destroy _, _) => True

instance {κ : Type} {grow : ℕ → ℕ} {w : World κ} : ∀ e, Decidable (World.EventOk grow w e)
  | (.construct _ blockSize, _) => inferInstanceAs (Decidable (blockSize + 4095 < 2 ^ 64))
  | (.run k op, news) => inferInstanceAs (Decidable (Member.OpOk grow w.memory op news (w.members k)))
  | (.moveConstruct _ _, _) => isTrue trivial
  | (.moveAssign _ _, _) => isTrue trivial
  | (.destroy _, _) => isTrue trivial

theorem World.EventOk.fits {κ : Type} {grow : ℕ → ℕ} {w : World κ} {e : Event κ × List ℕ}
    (h : World.EventOk grow w e) :
  World.EventFits grow w e
  := by
  obtain ⟨e, news⟩ := e
  cases e with
  | construct k blockSize => apply h
  | run k op =>
      rw [World.EventOk] at h
      rw [World.EventFits]
      rcases hs : w.members k with _ | s
      · trivial
      · rw [hs] at h
        apply h.1
  | _ => trivial

/-! ### What the cleaners are for -/

variable {κ : Type} {m m' : Memory} {w w' : World κ} {L L' : Ledgers κ} {e : Event κ}
  {news : List ℕ} {p : ℕ} {i : κ}

/-- Every ledger has the property. -/
def Ledgers.Every (P : Ledger → Prop) (L : Ledgers κ) : Prop :=
  ∀ i l, L i = some l → P l

/-- The ledgers are sound. -/
def Good (L : Ledgers κ) : Prop :=
  Ledgers.Every (fun l => l.arena.Ok ∧ l.Sound) L

/-- What the cleaners are for is in cells in use. -/
def Ledger.Backs (t : List Effect) (l : Ledger) : Prop :=
  ∀ c, c ∈ l.cleaners → ∀ n, HeldBy t c.serial n → l.Holding c.pointer n

/-- What the cleaners of the pools are for is in cells in use of theirs. -/
def Backed (m : Memory) (L : Ledgers κ) : Prop :=
  Ledgers.Every (Ledger.Backs m.trace) L

/-- Without cleaners there is nothing that they are for. -/
theorem Ledger.backs_nil (hnil : l.cleaners = []) :
  l.Backs t
  := by
  intro c hc
  rw [hnil] at hc
  cases hc

/-- The blocks have their sizes. -/
theorem Tracks.size_eq (h : Tracks w L) (hgood : Good L) {b : MemoryBlock}
    (hb : w.memory.blocks.lookup x = some b) :
  b.size = sizeofBlock + b.capacity
  := by
  obtain ⟨i, l, hl, hx⟩ := h.covers x b hb
  obtain ⟨d, hd, rfl⟩ := List.mem_map.mp hx
  obtain ⟨s, -, hrep⟩ := h.member hl
  obtain ⟨next, hlookup⟩ := hrep.shows.holds.held d hd
  obtain rfl := Option.some.inj (hlookup.symm.trans hb)
  apply Nat.mod_eq_of_lt ((hgood i l hl).1.fits d hd)

/-- An object in a region of the pool that is in the data of a block is in a cell in use. -/
theorem Tracks.holding (h : Tracks w L) (hgood : Good L) (hl : L i = some l) {r : Region}
    (hr : r ∈ l.regions) (hp : r.Contains p) {b : MemoryBlock}
    (hb : w.memory.blocks.lookup x = some b) (hdata : x + sizeofBlock ≤ p)
    (hlimit : p < x + sizeofBlock + b.capacity) :
  l.Holding p b.serial
  := by
  obtain ⟨hok, hs⟩ := hgood i l hl
  obtain ⟨c, hc, hplaced⟩ := hs.placed r hr
  obtain ⟨d, hd, hwithin⟩ := hplaced.within
  have hmem : d ∈ l.arena.cells := by
    rw [Arena.cells_of_chain hc]
    apply c.used_subset hd
  obtain ⟨s, -, hrep⟩ := h.member hl
  obtain ⟨next, hlookup⟩ := hrep.shows.holds.held d hmem
  have hsize := h.size_eq hgood hb
  have hsize' := h.size_eq hgood hlookup
  have hsame : d.addr = x := by
    by_contra hne
    have hapart := h.sane.apart _ _ _ _ hlookup hb hne
    have hcapacity : (d.block next).capacity = d.capacity := rfl
    rw [hsize, hsize', hcapacity] at hapart
    simp only [Region.Within, Cell.limit, Cell.data] at hwithin
    rw [Region.Contains] at hp
    omega
  rw [hsame] at hlookup
  obtain rfl := Option.some.inj (hlookup.symm.trans hb)
  constructor
  · rw [Arena.used_of_chain hc]
    use d, hd
    rfl
  · exact ⟨r, hr, hp⟩

theorem Recorded.registered_le (h : Recorded m m' es) (hk : .registered k p ∈ es) :
  m.registered ≤ k
  := by
  obtain ⟨j, hj, -⟩ := h.registers
  have hmem : k ∈ registrations es := List.mem_filterMap.mpr ⟨_, hk, rfl⟩
  rw [hj] at hmem
  apply (List.mem_range'_1.mp hmem).1

/-- What the cleaners are for that were there before an event is where it was. -/
theorem Backed.old (h : Backed m L) (hbooked : Booked m (cleanersOf ∘ L))
    (hrec : Recorded m m' es) :
  Backed m' L
  := by
  intro i l hl c hc n hheld
  rw [hrec.trace] at hheld
  apply h i l hl c hc n
  apply hheld.of_append
  intro p hp
  have hlt : c.serial < m.registered := by
    apply hbooked.serial_lt (k := i)
    rw [Function.comp_apply, hl]
    exact hc
  apply absurd (hrec.registered_le hp) (Nat.not_le.mpr hlt)

/-- A destructor is registered for an object in a cell in use. -/
theorem Registers.holding {destructor : ℕ} {grows : Bool} (h : Tracks w L) (hgood : Good L)
    (hl : L i = some l) (hreg : Registers l.regions w.memory (.registerDestructor destructor p grows))
    (hx : .created n x k ∈ w.memory.trace) (hn : .destroyed n ∉ w.memory.trace)
    (hdata : x + sizeofBlock ≤ p) (hlimit : p < x + sizeofBlock + k) :
  l.Holding p n
  := by
  obtain ⟨b, hb, rfl, rfl⟩ := h.sane.lookup_of_created hx hn
  rcases hreg with ⟨r, hr, hp⟩ | houtside
  · apply h.holding hgood hl hr hp hb hdata hlimit
  · have hkey : x ∈ w.memory.blocks.keys := by
      rw [Finmap.mem_keys]
      apply Finmap.mem_of_lookup_eq_some hb
    apply absurd ⟨hdata, hlimit⟩ (houtside x hkey b hb)

/-- An operation keeps what the cleaners of the pool are for in cells in use. -/
theorem Ledger.Step.backed {op : Op} (hstep : l.Step grow op l' es) (h : Tracks w L)
    (h' : Tracks w' L') (hgood : Good L) (hgood' : Good L') (hl : L i = some l)
    (hl' : L' i = some l') (hbacked : Backed w.memory L)
    (hbooked : Booked w.memory (cleanersOf ∘ L)) (hrec : Recorded w.memory w'.memory es)
    (hreg : Registers l.regions w.memory op) :
  l'.Backs w'.memory.trace
  := by
  intro c hc n hheld
  have hold : c ∈ l.cleaners → l'.Holding c.pointer n := by
    intro hmem
    have hholding := hbacked.old hbooked hrec i l hl c hmem n hheld
    rcases hstep.holding (hgood i l hl).2 hholding with hnil | hholding'
    · rw [hnil] at hc
      cases hc
    · exact hholding'
  have hfresh : ∀ {q}, .registered w.memory.registered q ∉ w.memory.trace := by
    intro q hq
    apply absurd (hbooked.known _ _ hq) (Nat.lt_irrefl _)
  have htrace := hrec.trace
  obtain ⟨j, hj, -⟩ := hrec.registers
  cases hstep with
  | createBuffer h => exact hold hc
  | createAligned h => exact hold hc
  | createTrivial h => exact hold hc
  | @createObject size start destructor serial align grows a es hgrants =>
      rcases List.mem_append.mp hc with hc | hc
      · apply hold hc
      · obtain rfl := List.mem_singleton.mp hc
        rw [registrations_append, registrations_blocks hgrants.isBlock] at hj
        have hlength := congrArg List.length hj
        rw [List.length_range'] at hlength
        obtain rfl : 1 = j := hlength
        obtain rfl : serial = w.memory.registered := (List.cons.inj hj).1
        rw [← List.append_assoc] at htrace
        rw [htrace] at hheld
        obtain ⟨x, k, hx, hn, hdata, hlimit⟩ := hheld.last (by
          intro q hq
          rcases List.mem_append.mp hq with hq | hq
          · apply hfresh hq
          · apply absurd (hgrants.isBlock _ hq) id)
        obtain ⟨b, hb, rfl, rfl⟩ := h'.sane.lookup_of_created (n := n) (x := x) (c := k)
          (by rw [htrace]; exact List.mem_append_left _ hx)
          (by rw [htrace]; simpa using hn)
        apply h'.holding hgood' hl' _ _ hb hdata hlimit
        · exact ⟨start, size.val, align.value⟩
        · apply List.mem_append_right _ List.mem_cons_self
        · use Nat.le_refl _
          apply Nat.lt_add_of_pos_right size.property
  | @registerDestructor destructor pointer serial grows =>
      rcases List.mem_append.mp hc with hc | hc
      · apply hold hc
      · obtain rfl := List.mem_singleton.mp hc
        have hlength := congrArg List.length hj
        rw [List.length_range'] at hlength
        obtain rfl : 1 = j := hlength
        obtain rfl : serial = w.memory.registered := (List.cons.inj hj).1
        rw [htrace] at hheld
        obtain ⟨x, k, hx, hn, hdata, hlimit⟩ := hheld.last fun q hq => hfresh hq
        obtain ⟨hcell, hregion⟩ := hreg.holding h hgood hl hx hn hdata hlimit
        exact ⟨hcell, hregion⟩
  | setBlockSize blockSize => exact hold hc
  | shrinkNothing h => exact hold hc
  | shrinkFrees h hbefore hpos => exact hold hc
  | shrinkTrims h hused => exact hold hc
  | minNothing h => exact hold hc
  | minFrees h hclear => cases hc
  | minTrims h hmin hafter => exact hold hc
  | clear h => cases hc

theorem Ledger.new_good {blockSize : ℕ} (h : blockSize + 4095 < 2 ^ 64) :
  (Ledger.new blockSize).arena.Ok ∧ (Ledger.new blockSize).Sound
  := by
  constructor
  · exact ⟨requested_lt h, nofun, nofun, fun _ => rfl⟩
  · exact ⟨nofun, nofun, List.Pairwise.nil, nofun⟩

theorem Ledger.movedFrom_good (h : l.arena.Ok) :
  l.movedFrom.arena.Ok ∧ l.movedFrom.Sound
  := by
  constructor
  · exact ⟨h.blockSize_lt, nofun, nofun, fun _ => rfl⟩
  · exact ⟨nofun, nofun, List.Pairwise.nil, nofun⟩

/-- The cells in use of the pools are not destroyed. -/
theorem Tracks.not_destroyed (h : Tracks w L) (hl : L i = some l) (hx : l.Holding x n) :
  .destroyed n ∉ w.memory.trace
  := by
  obtain ⟨⟨d, hd, rfl⟩, -⟩ := hx
  obtain ⟨s, -, hrep⟩ := h.member hl
  obtain ⟨next, hlookup⟩ := hrep.shows.holds.held d (l.arena.used_subset hd)
  apply h.sane.live _ _ hlookup

/-- Either a pool has no blocks or its current one is linked from its head, and no block is linked
from two pools. -/
structure World.WellLinked (w : World κ) : Prop where
  current : ∀ k s, w.members k = some s →
    s.pool.head = none ∧ s.pool.currentBlock = none ∨
      ∃ x, s.pool.currentBlock = some x ∧ s.pool.Linked w.memory x
  apart : ∀ k k' s s', w.members k = some s → w.members k' = some s' → k ≠ k' →
    ∀ x, s.pool.Linked w.memory x → ¬ s'.pool.Linked w.memory x

/-- Every block that was created was destroyed once, and every destructor that was registered has
run once. -/
structure Released (t : List Effect) : Prop where
  blocks : ∀ n x c, .created n x c ∈ t → t.count (.destroyed n) = 1
  destructors : ∀ n x, .registered n x ∈ t → t.count (.destructed n) = 1

theorem Shows.linked_iff {p : Pool} (h : Shows m p a) :
  p.Linked m x ↔ x ∈ addrs a.cells
  := by
  rw [Pool.Linked, h.head]
  apply h.holds.linked.reaches_iff

theorem Tracks.wellLinked (h : Tracks w L) :
  w.WellLinked
  := by
  constructor
  · intro k s hs
    obtain ⟨l, -, hrep⟩ := h.ledger hs
    rcases hc : l.arena.chain with _ | c
    · left
      rw [hrep.shows.head, hrep.shows.currentBlock, Arena.cells_of_none hc, hc]
      exact ⟨rfl, rfl⟩
    · right
      use c.current.addr, (hrep.shows.get_current hc).1
      apply hrep.shows.linked hc c.current_mem
  · intro k k' s s' hs hs' hne x hx
    obtain ⟨l, hl, hrep⟩ := h.ledger hs
    obtain ⟨l', hl', hrep'⟩ := h.ledger hs'
    rw [hrep'.shows.linked_iff]
    apply h.apart k k' l l' hl hl' hne x
    rw [← hrep.shows.linked_iff]
    exact hx

variable [DecidableEq κ]

theorem Ledgers.Every.update {P : Ledger → Prop} (h : Ledgers.Every P L) (hl : P l) :
  Ledgers.Every P (Function.update L i (some l))
  := by
  intro j l' hl'
  rcases Classical.em (j = i) with rfl | hne
  · rw [Function.update_self] at hl'
    obtain rfl := Option.some.inj hl'
    exact hl
  · rw [Function.update_of_ne hne] at hl'
    apply h j l' hl'

theorem Ledgers.Every.remove {P : Ledger → Prop} (h : Ledgers.Every P L) :
  Ledgers.Every P (Function.update L i none)
  := by
  intro j l hl
  rcases Classical.em (j = i) with rfl | hne
  · rw [Function.update_self] at hl
    cases hl
  · rw [Function.update_of_ne hne] at hl
    apply h j l hl

/-- The ledgers stay sound as long as no sum wraps around. -/
theorem Turn.good (hturn : Turn grow L e L' es) (h : Tracks w L) (h' : Tracks w' L')
    (hgood : Good L) (hfits : World.EventFits grow w (e, news)) :
  Good L'
  := by
  cases hturn with
  | construct hk => exact hgood.update (Ledger.new_good hfits)
  | @run i op l l' es hl hstep =>
      obtain ⟨s, hs, hrep⟩ := h.member hl
      obtain ⟨s', -, hrep'⟩ := h'.member (Function.update_self i (some l') L)
      rw [World.EventFits, hs] at hfits
      obtain ⟨hlok, hlsound⟩ := hgood i l hl
      apply hgood.update
      apply hstep.sound (hrep.fits.mp hfits) hlok hlsound (hrep'.shows.holds.laid h'.sane)
  | moveConstruct hk hother =>
      have hl := hgood _ _ hother
      apply (hgood.update hl).update (Ledger.movedFrom_good hl.1)
  | moveAssign hk hclears hne hother =>
      have hl := hgood _ _ hother
      apply (hgood.update hl).update (Ledger.movedFrom_good hl.1)
  | moveSelf hk hclears =>
      apply hgood.update (Ledger.movedFrom_good (hgood _ _ hk).1)
  | destroy hk => exact hgood.remove

/-- What the cleaners are for stays in cells in use. -/
theorem Turn.backed (hturn : Turn grow L e L' es) (h : Tracks w L) (h' : Tracks w' L')
    (hgood : Good L) (hgood' : Good L') (hbacked : Backed w.memory L)
    (hbooked : Booked w.memory (cleanersOf ∘ L)) (hrec : Recorded w.memory w'.memory es)
    (hok : World.EventOk grow w (e, news)) :
  Backed w'.memory L'
  := by
  have hold : Backed w'.memory L := hbacked.old hbooked hrec
  cases hturn with
  | construct hk => exact hold.update (Ledger.backs_nil rfl)
  | @run i op l l' es hl hstep =>
      obtain ⟨s, hs, hrep⟩ := h.member hl
      rw [World.EventOk, hs] at hok
      obtain ⟨-, hreg⟩ := hok
      rw [hrep.regions] at hreg
      apply hold.update
      apply hstep.backed h h' hgood hgood' hl (Function.update_self i (some l') L) hbacked hbooked
        hrec hreg
  | moveConstruct hk hother =>
      exact (hold.update (hold _ _ hother)).update (Ledger.backs_nil rfl)
  | moveAssign hk hclears hne hother =>
      exact (hold.update (hold _ _ hother)).update (Ledger.backs_nil rfl)
  | moveSelf hk hclears => exact hold.update (Ledger.backs_nil rfl)
  | destroy hk => exact hold.remove

/-! ### Programs -/

/-- What is recorded of an event is that of one pool's cleaners. -/
theorem Turn.accounts (hturn : Turn grow L e L' es) :
  ∃ cs cs', Accounts cs cs' es
  := by
  cases hturn with
  | construct hk => exact ⟨[], [], .keeps isBlock_nil⟩
  | run hk hstep => exact ⟨_, _, hstep.accounts⟩
  | moveConstruct hk hother => exact ⟨[], [], .keeps isBlock_nil⟩
  | @moveAssign k other l o a es hk hclears hne hother =>
      rw [List.append_assoc]
      exact ⟨_, _, .runs (isBlock_append hclears.isBlock (freed_isBlock a.cells))⟩
  | @moveSelf k l a es hk hclears =>
      rw [List.append_assoc]
      exact ⟨_, _, .runs (isBlock_append hclears.isBlock (freed_isBlock a.cells))⟩
  | destroy hk => exact ⟨_, _, .runs (freed_isBlock _)⟩

/-- What is recorded of an event does not destroy a block before the destructors of the objects in
it have run. -/
theorem Ordered.turn (hordered : Ordered w.memory.trace) (hturn : Turn grow L e L' es)
    (hrec : Recorded w.memory w'.memory es) (h' : Tracks w' L')
    (hbooked' : Booked w'.memory (cleanersOf ∘ L')) (hbacked' : Backed w'.memory L') :
  Ordered w'.memory.trace
  := by
  intro a n b heq k hheld
  obtain ⟨cs, cs', hacc⟩ := hturn.accounts
  have hdestroyed : .destroyed n ∈ w'.memory.trace := by
    rw [heq]
    apply List.mem_append_right _ List.mem_cons_self
  have hmem : .destructed k ∈ w'.memory.trace := by
    obtain ⟨p, hp⟩ := hheld.registered_mem
    have hlt : k < w'.memory.registered := by
      apply hbooked'.known k p
      rw [heq]
      apply List.mem_append_left _ hp
    apply List.count_pos_iff.mp
    rw [hbooked'.done k hlt]
    · apply Nat.one_pos
    · rintro i c hc rfl
      rcases hl : L' i with _ | l
      · rw [Function.comp_apply, hl] at hc
        cases hc
      · rw [Function.comp_apply, hl] at hc
        have hholding : l.Holding c.pointer n := by
          apply hbacked' i l hl c hc
          rw [heq]
          apply hheld.append
        apply h'.not_destroyed hl hholding hdestroyed
  rw [hrec.trace] at heq hmem
  rcases List.append_eq_append_iff.mp heq with ⟨a', rfl, hes⟩ | ⟨b', hb', hes⟩
  · rcases List.mem_append.mp hmem with hmem | hmem
    · apply List.mem_append_left _ hmem
    · apply List.mem_append_right _ (hacc.before hes hmem)
  · cases b' with
    | nil =>
        rw [List.append_nil] at hb'
        rw [List.nil_append] at hes
        rcases List.mem_append.mp hmem with hmem | hmem
        · rw [← hb']
          exact hmem
        · apply absurd (hacc.before (a := []) hes.symm hmem)
          nofun
    | cons f b' =>
        obtain ⟨rfl, -⟩ := List.cons.inj hes
        apply hordered a n b' hb' k hheld

/-- In a program that does not compute sums that wrap around, and registers destructors where
their objects are, every destructor runs before the block of its object is destroyed. -/
theorem run_ordered {events : List (Event κ × List ℕ)}
    (hok : (World.machine grow).Steps (World.EventOk grow) World.empty events)
    (hrun : (World.machine grow).run World.empty events = some w) :
  Ordered w.memory.trace
  := by
  have hinv := Machine.run_invariant_of_steps
    (I := fun w => ∃ L, Tracks w L ∧ Booked w.memory (cleanersOf ∘ L) ∧ Good L ∧
      Backed w.memory L ∧ Ordered w.memory.trace) ?_ hok ?_
  · obtain ⟨L, -, -, -, -, hordered⟩ := hinv.last hrun
    exact hordered
  · rintro t ⟨e, news⟩ u ⟨L, htracks, hbooked, hgood, hbacked, hordered⟩ hok hstep
    obtain ⟨L', es, hturn, htracks', hrec⟩ := step_tracks htracks hstep
    have hrec : Recorded t.memory u.memory es := ⟨hrec.trace, hrec.registers⟩
    have hbooked' := hturn.booked hbooked hrec
    have hgood' := hturn.good htracks htracks' hgood hok.fits
    have hbacked' := hturn.backed htracks htracks' hgood hgood' hbacked hbooked hrec hok
    exact ⟨L', htracks', hbooked', hgood', hbacked',
      hordered.turn hturn hrec htracks' hbooked' hbacked'⟩
  · refine ⟨_, empty_tracks, empty_booked, nofun, nofun, ?_⟩
    intro a n b heq
    cases a with
    | nil => cases heq
    | cons e a => cases heq

/-- In every state of a program the pools are linked as they should be, an event fails only if
`operator new` does or the program uses a pool that is not there, and when no pool is left,
everything has been released once; and the destructors run before the blocks of their objects are
destroyed, unless a sum wraps around or a pool has a destructor of an object in another one. -/
theorem released_inOrder {events : List (Event κ × List ℕ)}
    (hrun : (World.machine grow).run World.empty events = some w) :
  w.WellLinked ∧
    (∀ e news f, World.perform grow ⟨w.members, { w.memory with news := news }⟩ e = .error f →
      f = .badAlloc ∨ f = .noPool) ∧
    ((∀ k, w.members k = none) → Released w.memory.trace) ∧
    ((World.machine grow).Steps (World.EventOk grow) World.empty events → Ordered w.memory.trace)
  := by
  obtain ⟨L, htracks, hbooked⟩ := run_tracks hrun
  refine ⟨htracks.wellLinked, ?_, ?_, ?_⟩
  · intro e news f hf
    rcases perform_tracks grow (htracks.setNews news) e with hbad | hbad | ⟨r, hr, -⟩
    · rw [hbad] at hf
      right
      apply (Except.error.inj hf).symm
    · rw [hbad] at hf
      left
      apply (Except.error.inj hf).symm
    · rw [hr] at hf
      cases hf
  · intro hnone
    obtain ⟨hblocks, hdestructors⟩ := released_once htracks hbooked hnone
    exact ⟨hblocks, hdestructors⟩
  · intro hok
    apply run_ordered hok hrun

/-- Two pools, of which the second one takes over the blocks of the first. -/
def twoPools : List (Event Bool × List ℕ) :=
  [(.construct false 64, []), (.construct true 100, []),
    (.run false (.createObject ⟨24, by decide⟩ (.small 3) (some 1) true), [4096]),
    (.run true (.createBuffer 200), [8192, 12288]),
    (.run false (.registerDestructor 2 4120 true), []), (.moveAssign true false, [16384]),
    (.run true .shrinkToFit, []), (.run true (.shrinkToFitMin 0), []),
    (.destroy true, []), (.destroy false, [])]

theorem released_inOrder_twoPools :
  ∃ w, (World.machine (· * 11 / 10)).run World.empty twoPools = some w ∧
    (∀ k, w.members k = none) ∧ w.WellLinked ∧ Released w.memory.trace ∧
    Ordered w.memory.trace
  := by
  have hrun : ((World.machine (· * 11 / 10)).run World.empty twoPools).any fun w =>
      decide (w.members false = none ∧ w.members true = none) := by
    decide +kernel
  obtain ⟨w, hw, hmembers⟩ := Option.any_eq_true _ _ |>.mp hrun
  obtain ⟨hfalse, htrue⟩ := of_decide_eq_true hmembers
  have hnone : ∀ k, w.members k = none := by
    intro k
    cases k with
    | false => exact hfalse
    | true => exact htrue
  obtain ⟨hlinked, -, hreleased, hordered⟩ := released_inOrder hw
  exact ⟨w, hw, hnone, hlinked, hreleased hnone, hordered (by decide +kernel)⟩

/-- The block of an object is destroyed before its destructor runs. -/
theorem late_not_ordered :
  ¬ Ordered [.created 0 4096 48, .registered 0 4112, .destroyed 0, .destructed 0]
  := by
  intro hordered
  have hheld : HeldBy [.created 0 4096 48, .registered 0 4112] 0 0 :=
    ⟨[.created 0 4096 48], 4112, [], 4096, 48, rfl, by decide, by decide, by decide, by decide⟩
  have hmem := hordered [.created 0 4096 48, .registered 0 4112] 0 [.destructed 0] rfl 0 hheld
  simp at hmem

/-- A pool that is destroyed after another one in which its object is. -/
def otherPool : List (Event Bool × List ℕ) :=
  [(.construct false 64, []), (.construct true 64, []), (.run true (.createBuffer 8), [4096]),
    (.run false (.registerDestructor 1 4112 true), []), (.destroy true, []), (.destroy false, [])]

/-- A sum wraps around, so that the pool takes its block with the object to be unused. -/
def wrappedSum : List (Event Bool × List ℕ) :=
  [(.construct false 64, []),
    (.run false (.createObject ⟨8, by decide⟩ (.small 3) (some 1) true), [4096]),
    (.run false (.createBuffer (2 ^ 64 - 8)), []), (.run false .shrinkToFit, []),
    (.destroy false, [])]

/-- In both programs a block is destroyed before the destructor of the object in it has run. -/
theorem otherPool_wrappedSum_not_ordered :
  (∃ w, (World.machine (· * 11 / 10)).run World.empty otherPool = some w ∧
    (∀ k, w.members k = none) ∧ ¬ Ordered w.memory.trace) ∧
  ∃ w, (World.machine (· * 11 / 10)).run World.empty wrappedSum = some w ∧
    (∀ k, w.members k = none) ∧ ¬ Ordered w.memory.trace
  := by
  have hlate : ∀ {events : List (Event Bool × List ℕ)},
      ((World.machine (· * 11 / 10)).run World.empty events).any (fun w =>
        decide (w.members false = none ∧ w.members true = none ∧
          w.memory.trace =
            [.created 0 4096 48, .registered 0 4112, .destroyed 0, .destructed 0])) →
      ∃ w, (World.machine (· * 11 / 10)).run World.empty events = some w ∧
        (∀ k, w.members k = none) ∧ ¬ Ordered w.memory.trace := by
    intro events hrun
    obtain ⟨w, hw, h⟩ := Option.any_eq_true _ _ |>.mp hrun
    obtain ⟨hfalse, htrue, htrace⟩ := of_decide_eq_true h
    use w, hw
    constructor
    · intro k
      cases k with
      | false => exact hfalse
      | true => exact htrue
    · rw [htrace]
      apply late_not_ordered
  constructor
  · apply hlate
    decide +kernel
  · apply hlate
    decide +kernel

end StaticMemoryPool
