import CppFreshman.Pool.Runs

/-!
# Programs with pools

A `World` has any number of pools, named by `κ`, and one memory; an `Event` constructs or destroys
a pool, moves one into another, or is an operation on one.  `Tracks` says that the pools are chains
of cells that have no block in common and have all the blocks there are; every event keeps it, and
nothing goes wrong but that `operator new` does not return the next address, or that the program
uses a pool that is not there (`perform_tracks`).
-/

namespace StaticMemoryPool

/-- A pool that has been moved from. -/
def Pool.movedFrom (p : Pool) : Pool :=
  { p with pos := 0, head := none, currentBlock := none, cleaners := [] }

/-- The first lines of the move assignment: `clear` and the destruction of the blocks. -/
def Pool.release (p : Pool) (m : Memory) : Except Fault (Pool × Memory) := do
  let (p, m) ← p.clear m
  let m ← destroyBlocks m.fuel p.head m
  pure (p, m)

/-- The destructor. -/
def Pool.destruct (p : Pool) (m : Memory) : Except Fault Memory :=
  let (p, m) := p.runCleaners m
  destroyBlocks m.fuel p.head m

/-- A pool that has been moved from, with no regions. -/
def Member.movedFrom (s : Member) : Member :=
  ⟨s.pool.movedFrom, [], []⟩

/-- The pools there are, and the memory. -/
structure World (κ : Type) where
  members : κ → Option Member
  memory : Memory

/-- What a program may do. -/
inductive Event (κ : Type) where
  | construct (k : κ) (blockSize : ℕ)
  | run (k : κ) (op : Op)
  | moveConstruct (k other : κ)
  | moveAssign (k other : κ)
  | destroy (k : κ)

namespace World

variable {κ : Type}

/-- The pool named `k`. -/
def member (w : World κ) (k : κ) : Except Fault Member :=
  match w.members k with
  | some s => .ok s
  | none => .error .noPool

/-- There is no pool named `k` yet. -/
def unused (w : World κ) (k : κ) : Except Fault Unit :=
  match w.members k with
  | some _ => .error .noPool
  | none => .ok ()

variable [DecidableEq κ]

/-- The pool named `k` is another one. -/
def set (w : World κ) (k : κ) (s : Option Member) : World κ :=
  { w with members := Function.update w.members k s }

@[simp]
theorem members_set (w : World κ) (k : κ) (s : Option Member) :
  (w.set k s).members = Function.update w.members k s
  := rfl

@[simp]
theorem memory_set (w : World κ) (k : κ) (s : Option Member) :
  (w.set k s).memory = w.memory
  := rfl

theorem set_set (w : World κ) (k : κ) (s s' : Option Member) :
  (w.set k s).set k s' = w.set k s'
  := by
  rw [set, set, set, Function.update_idem]

theorem member_set_ne {w : World κ} {m : Memory} {k other : κ} (s : Option Member)
    (h : other ≠ k) :
  (set ⟨w.members, m⟩ k s).member other = w.member other
  := by
  rw [member, member, members_set, Function.update_of_ne h]

/-- What an event does.  The pool that is assigned to may be the one that is moved from. -/
def perform (grow : ℕ → ℕ) (w : World κ) : Event κ → Except Fault (World κ)
  | .construct k blockSize => do
      w.unused k
      pure (w.set k (some ⟨Pool.new blockSize, [], []⟩))
  | .run k op => do
      let s ← w.member k
      let (s, m) ← StaticMemoryPool.perform grow s w.memory op
      pure (set ⟨w.members, m⟩ k (some s))
  | .moveConstruct k other => do
      w.unused k
      let o ← w.member other
      pure ((w.set k (some o)).set other (some o.movedFrom))
  | .moveAssign k other => do
      let s ← w.member k
      let (p, m) ← s.pool.release w.memory
      let w := set ⟨w.members, m⟩ k (some ⟨p, [], []⟩)
      let o ← w.member other
      pure ((w.set k (some o)).set other (some o.movedFrom))
  | .destroy k => do
      let s ← w.member k
      let m ← s.pool.destruct w.memory
      pure (set ⟨w.members, m⟩ k none)

/-- No pools and no blocks. -/
def empty : World κ :=
  ⟨fun _ => none, .empty⟩

/-- The programs. -/
def machine (grow : ℕ → ℕ) : Machine (World κ) (Event κ × List ℕ) where
  step w e := (perform grow ⟨w.members, { w.memory with news := e.2 }⟩ e.1).toOption

end World

/-! ### Sums that wrap around -/

section

variable {κ : Type}

/-- No sum that the operation on the pool computes wraps around, if that is there. -/
def Member.Fits (grow : ℕ → ℕ) (m : Memory) (op : Op) (news : List ℕ) : Option Member → Prop
  | none => True
  | some s => OpFits grow (s, m) (op, news)

instance {grow : ℕ → ℕ} {m : Memory} {op : Op} {news : List ℕ} :
    ∀ s, Decidable (Member.Fits grow m op news s)
  | none => isTrue trivial
  | some s => inferInstanceAs (Decidable (OpFits grow (s, m) (op, news)))

/-- No sum that the event computes wraps around. -/
def World.EventFits (grow : ℕ → ℕ) (w : World κ) : Event κ × List ℕ → Prop
  | (.construct _ blockSize, _) => blockSize + 4095 < 2 ^ 64
  | (.run k op, news) => Member.Fits grow w.memory op news (w.members k)
  | (.moveConstruct _ _, _) => True
  | (.moveAssign _ _, _) => True
  | (.destroy _, _) => True

instance {grow : ℕ → ℕ} {w : World κ} : ∀ e, Decidable (World.EventFits grow w e)
  | (.construct _ blockSize, _) => inferInstanceAs (Decidable (blockSize + 4095 < 2 ^ 64))
  | (.run k op, news) => inferInstanceAs (Decidable (Member.Fits grow w.memory op news (w.members k)))
  | (.moveConstruct _ _, _) => isTrue trivial
  | (.moveAssign _ _, _) => isTrue trivial
  | (.destroy _, _) => isTrue trivial

end

/-- A ledger that has been moved from. -/
def Ledger.movedFrom (l : Ledger) : Ledger :=
  ⟨⟨l.arena.blockSize, 0, none⟩, [], [], []⟩

/-- The ledgers of the pools. -/
abbrev Ledgers (κ : Type) :=
  κ → Option Ledger

section

variable {κ : Type} {grow : ℕ → ℕ} {m m' : Memory} {w w' : World κ} {L L' : Ledgers κ}
  {l l' : Ledger} {s : Member} {k k' other : κ} {es : List Effect} {p : Pool} {a : Arena}

/-- The pools are the chains of the ledgers, which have no block in common and have all the
blocks. -/
structure Tracks (w : World κ) (L : Ledgers κ) : Prop where
  sane : w.memory.Sane
  represents : ∀ k, Option.Rel (Represents w.memory) (w.members k) (L k)
  apart : ∀ k k' l l', L k = some l → L k' = some l' → k ≠ k' →
    ∀ x, x ∈ addrs l.arena.cells → x ∉ addrs l'.arena.cells
  covers : ∀ x b, w.memory.blocks.lookup x = some b →
    ∃ k l, L k = some l ∧ x ∈ addrs l.arena.cells

theorem Tracks.ledger (h : Tracks w L) (hs : w.members k = some s) :
  ∃ l, L k = some l ∧ Represents w.memory s l
  := by
  have hrel := h.represents k
  rw [hs] at hrel
  rcases hl : L k with _ | l
  · rw [hl] at hrel
    cases hrel
  · rw [hl] at hrel
    cases hrel with
    | some hrep => exact ⟨l, rfl, hrep⟩

theorem Tracks.member (h : Tracks w L) (hl : L k = some l) :
  ∃ s, w.members k = some s ∧ Represents w.memory s l
  := by
  have hrel := h.represents k
  rw [hl] at hrel
  rcases hs : w.members k with _ | s
  · rw [hs] at hrel
    cases hrel
  · rw [hs] at hrel
    cases hrel with
    | some hrep => exact ⟨s, rfl, hrep⟩

theorem Tracks.ledger_none (h : Tracks w L) :
  w.members k = none ↔ L k = none
  := by
  have hrel := h.represents k
  constructor
  · intro hnone
    rw [hnone] at hrel
    generalize L k = o at hrel
    cases hrel
    rfl
  · intro hnone
    rw [hnone] at hrel
    generalize w.members k = o at hrel
    cases hrel
    rfl

theorem Represents.congr (h : Represents m s l)
    (heq : ∀ x, x ∈ addrs l.arena.cells → m'.blocks.lookup x = m.blocks.lookup x) :
  Represents m' s l
  := by
  obtain ⟨⟨hblockSize, hpos, hhead, hcurrent, hholds⟩, hcleaners, hregions, hlost⟩ := h
  refine ⟨⟨hblockSize, hpos, hhead, hcurrent, ?_⟩, hcleaners, hregions, hlost⟩
  apply hholds.congr
  intro c hc
  apply heq
  apply List.mem_map_of_mem hc

/-- The cells of a ledger that may be absent. -/
def cellsOf : Option Ledger → List Cell
  | none => []
  | some l => l.arena.cells

theorem World.member_eq (hs : w.members k = some s) :
  w.member k = .ok s
  := by
  rw [World.member, hs]

/-- The pool named `k` is there, or the program is wrong. -/
theorem World.member_cases (w : World κ) (k : κ) :
  w.member k = .error .noPool ∨ ∃ s, w.members k = some s ∧ w.member k = .ok s
  := by
  rcases hs : w.members k with _ | s
  · left
    rw [World.member, hs]
  · right
    use s, rfl
    rw [World.member, hs]

theorem World.unused_cases (w : World κ) (k : κ) :
  w.unused k = .error .noPool ∨ w.members k = none ∧ w.unused k = .ok ()
  := by
  rcases hs : w.members k with _ | s
  · right
    use rfl
    rw [World.unused, hs]
  · left
    rw [World.unused, hs]

variable [DecidableEq κ]

/-- One pool takes a step, or is made or destroyed in one, and the others are left alone. -/
theorem Tracks.update {s' : Option Member} {l' : Option Ledger} (h : Tracks w L)
    (hperforms : Performs w.memory m' (cellsOf (L k)) (cellsOf l') es)
    (hrep : Option.Rel (Represents m') s' l') :
  Tracks (World.set ⟨w.members, m'⟩ k s') (Function.update L k l')
  := by
  have hother : ∀ k' l'', k' ≠ k → L k' = some l'' → ∀ x, x ∈ addrs l''.arena.cells →
      x ∉ addrs (cellsOf (L k)) := by
    intro k' l'' hne hl'' x hx
    rcases hl : L k with _ | l
    · nofun
    · apply h.apart k' k l'' l hl'' hl hne x hx
  have hframe : ∀ k' l'', k' ≠ k → L k' = some l'' → ∀ x, x ∈ addrs l''.arena.cells →
      m'.blocks.lookup x = w.memory.blocks.lookup x ∧ x ∉ addrs (cellsOf l') := by
    intro k' l'' hne hl'' x hx
    obtain ⟨s, -, hrep''⟩ := h.member hl''
    obtain ⟨c, hc, rfl⟩ := List.mem_map.mp hx
    obtain ⟨next, hlookup⟩ := hrep''.shows.holds.held c hc
    obtain ⟨hlookup', hnot⟩ := hperforms.frame _ _ hlookup (hother k' l'' hne hl'' _ hx)
    use hlookup'.trans hlookup.symm, hnot
  constructor
  · apply hperforms.sane
  · intro k'
    rw [World.members_set, World.memory_set]
    rcases Classical.em (k' = k) with rfl | hne
    · rw [Function.update_self, Function.update_self]
      exact hrep
    · rw [Function.update_of_ne hne, Function.update_of_ne hne]
      have hrel := h.represents k'
      rcases hl : L k' with _ | l''
      · rw [hl] at hrel
        simp only
        rw [h.ledger_none.mpr hl]
        exact .none
      · obtain ⟨s, hs, hrep''⟩ := h.member hl
        simp only
        rw [hs]
        apply Option.Rel.some
        apply hrep''.congr
        intro x hx
        apply (hframe k' l'' hne hl x hx).1
  · intro k₁ k₂ l₁ l₂ h₁ h₂ hne x hx hx'
    rcases Classical.em (k₁ = k) with rfl | hne₁
    · rw [Function.update_self] at h₁
      rw [Function.update_of_ne (Ne.symm hne)] at h₂
      apply (hframe k₂ l₂ (Ne.symm hne) h₂ x hx').2
      rw [h₁]
      exact hx
    · rw [Function.update_of_ne hne₁] at h₁
      rcases Classical.em (k₂ = k) with rfl | hne₂
      · rw [Function.update_self] at h₂
        apply (hframe k₁ l₁ hne₁ h₁ x hx).2
        rw [h₂]
        exact hx'
      · rw [Function.update_of_ne hne₂] at h₂
        apply h.apart k₁ k₂ l₁ l₂ h₁ h₂ hne x hx hx'
  · intro x b hx
    rcases Classical.em (x ∈ addrs (cellsOf l')) with hmem | hnot
    · rcases l' with _ | l'
      · cases hmem
      · use k, l', Function.update_self k _ L, hmem
    · obtain ⟨hx, hnot⟩ := hperforms.only x b hx hnot
      obtain ⟨k', l'', hl'', hmem⟩ := h.covers x b hx
      have hne : k' ≠ k := by
        rintro rfl
        apply hnot
        rw [hl'']
        exact hmem
      use k', l''
      rw [Function.update_of_ne hne]
      use hl'', hmem

/-- A pool is moved into one without blocks. -/
theorem Tracks.move (h : Tracks w L) (hne : k ≠ other) (hk : cellsOf (L k) = [])
    (hs : w.members other = some s) (hl : L other = some l) (hrep : Represents w.memory s l) :
  Tracks ((w.set k (some s)).set other (some s.movedFrom))
    (Function.update (Function.update L k (some l)) other (some l.movedFrom))
  := by
  have hcases : ∀ {k' l'},
      Function.update (Function.update L k (some l)) other (some l.movedFrom) k' = some l' →
      l'.arena.cells = [] ∨ k' = k ∧ l' = l ∨ k' ≠ k ∧ k' ≠ other ∧ L k' = some l' := by
    intro k' l' hl'
    rcases Classical.em (k' = other) with rfl | hother
    · rw [Function.update_self] at hl'
      obtain rfl := Option.some.inj hl'
      exact Or.inl rfl
    · rw [Function.update_of_ne hother] at hl'
      rcases Classical.em (k' = k) with rfl | hk'
      · rw [Function.update_self] at hl'
        exact Or.inr (Or.inl ⟨rfl, (Option.some.inj hl').symm⟩)
      · rw [Function.update_of_ne hk'] at hl'
        exact Or.inr (Or.inr ⟨hk', hother, hl'⟩)
  constructor
  · apply h.sane
  · intro k'
    rw [World.members_set, World.members_set, World.memory_set, World.memory_set]
    rcases Classical.em (k' = other) with rfl | hother
    · rw [Function.update_self, Function.update_self]
      apply Option.Rel.some
      exact ⟨⟨hrep.shows.blockSize, rfl, rfl, rfl, holds_nil⟩, rfl, rfl, rfl⟩
    · rw [Function.update_of_ne hother, Function.update_of_ne hother]
      rcases Classical.em (k' = k) with rfl | hk'
      · rw [Function.update_self, Function.update_self]
        apply Option.Rel.some hrep
      · rw [Function.update_of_ne hk', Function.update_of_ne hk']
        apply h.represents k'
  · intro k₁ k₂ l₁ l₂ h₁ h₂ hne' x hx hx'
    rcases hcases h₁ with hnil | ⟨rfl, rfl⟩ | ⟨hk₁, ho₁, hold₁⟩
    · rw [hnil] at hx
      cases hx
    · rcases hcases h₂ with hnil | ⟨rfl, rfl⟩ | ⟨hk₂, ho₂, hold₂⟩
      · rw [hnil] at hx'
        cases hx'
      · apply hne' rfl
      · apply h.apart other k₂ l₁ l₂ hl hold₂ (Ne.symm ho₂) x hx hx'
    · rcases hcases h₂ with hnil | ⟨rfl, rfl⟩ | ⟨hk₂, ho₂, hold₂⟩
      · rw [hnil] at hx'
        cases hx'
      · apply h.apart k₁ other l₁ l₂ hold₁ hl ho₁ x hx hx'
      · apply h.apart k₁ k₂ l₁ l₂ hold₁ hold₂ hne' x hx hx'
  · intro x b hx
    obtain ⟨k', l', hl', hmem⟩ := h.covers x b hx
    rcases Classical.em (k' = other) with rfl | hother
    · obtain rfl := Option.some.inj (hl.symm.trans hl')
      use k, l
      rw [Function.update_of_ne hne, Function.update_self]
      use rfl, hmem
    · have hk' : k' ≠ k := by
        rintro rfl
        rw [hl'] at hk
        rw [cellsOf] at hk
        rw [hk] at hmem
        cases hmem
      use k', l'
      rw [Function.update_of_ne hother, Function.update_of_ne hk']
      use hl', hmem

/-- The blocks of a pool are destroyed after a `clear`. -/
theorem release_spec (hsane : m.Sane) (h : Shows m p a) :
  Yields (p.release m) fun r =>
    ∃ a' es, Clears a a' es ∧
      Performs m r.2 a.cells [] (p.cleaners.flatMap Cleaner.run ++ es ++ freed a'.cells) ∧
      r.1.blockSize = a.blockSize
  := by
  rw [Pool.release]
  apply (clear_spec hsane h).bind
  rintro ⟨p₁, m₁⟩ ⟨a', es, hclears, hshows, hperforms, -⟩
  simp only at hshows hperforms ⊢
  obtain ⟨m', hdestroy, hfreed⟩ := destroy_after hperforms.sane hshows.holds
  rw [hshows.head, hdestroy]
  apply Yields.ok
  have hsize : a'.blockSize = a.blockSize := by
    cases hclears <;> rfl
  exact ⟨a', es, hclears, hperforms.trans hfreed.performs, hshows.blockSize.trans hsize⟩

/-- The destructor runs the cleaners and destroys the blocks. -/
theorem destruct_spec (hsane : m.Sane) (h : Shows m p a) :
  ∃ m', p.destruct m = .ok m' ∧
    Performs m m' a.cells [] (p.cleaners.flatMap Cleaner.run ++ freed a.cells)
  := by
  obtain ⟨hshows, hruns, -⟩ := runCleaners_spec hsane h
  rw [Pool.destruct]
  generalize p.runCleaners m = r at hshows hruns
  obtain ⟨p₁, m₁⟩ := r
  simp only at hshows hruns ⊢
  obtain ⟨m', hdestroy, hfreed⟩ := destroy_after hruns.sane hshows.holds
  use m'
  rw [hshows.head, hdestroy]
  use rfl
  apply hruns.trans hfreed.performs

/-- What the events do to the ledgers and what is recorded of them. -/
inductive Turn (grow : ℕ → ℕ) (L : Ledgers κ) : Event κ → Ledgers κ → List Effect → Prop
  | construct {k : κ} {blockSize : ℕ} (hk : L k = none) :
      Turn grow L (.construct k blockSize) (Function.update L k (some (Ledger.new blockSize))) []
  | run {k : κ} {op : Op} {l l' : Ledger} {es : List Effect} (hk : L k = some l)
      (hstep : l.Step grow op l' es) :
      Turn grow L (.run k op) (Function.update L k (some l')) es
  | moveConstruct {k other : κ} {l : Ledger} (hk : L k = none) (hother : L other = some l) :
      Turn grow L (.moveConstruct k other)
        (Function.update (Function.update L k (some l)) other (some l.movedFrom)) []
  | moveAssign {k other : κ} {l o : Ledger} {a : Arena} {es : List Effect} (hk : L k = some l)
      (hclears : Clears l.arena a es) (hne : k ≠ other) (hother : L other = some o) :
      Turn grow L (.moveAssign k other)
        (Function.update (Function.update L k (some o)) other (some o.movedFrom))
        (l.cleaners.flatMap Cleaner.run ++ es ++ freed a.cells)
  | moveSelf {k : κ} {l : Ledger} {a : Arena} {es : List Effect} (hk : L k = some l)
      (hclears : Clears l.arena a es) :
      Turn grow L (.moveAssign k k) (Function.update L k (some l.movedFrom))
        (l.cleaners.flatMap Cleaner.run ++ es ++ freed a.cells)
  | destroy {k : κ} {l : Ledger} (hk : L k = some l) :
      Turn grow L (.destroy k) (Function.update L k none)
        (l.cleaners.flatMap Cleaner.run ++ freed l.arena.cells)

/-- `operator new` does not return the next address, the program uses a pool that is not there or
makes one that is, or there is a result with the property. -/
def Behaves {α : Type} (r : Except Fault α) (P : α → Prop) : Prop :=
  r = .error .noPool ∨ Yields r P

/-- What is recorded of an event: the trace is longer, and the destructors that are registered
have the numbers that are next. -/
structure Recorded (m m' : Memory) (es : List Effect) : Prop where
  trace : m'.trace = m.trace ++ es
  registers : ∃ k, registrations es = List.range' m.registered k ∧
    m'.registered = m.registered + k

theorem Performs.recorded {old new : List Cell} (h : Performs m m' old new es) :
  Recorded m m' es
  := ⟨h.trace, h.registers⟩

theorem Recorded.refl (m : Memory) :
  Recorded m m []
  := ⟨(List.append_nil _).symm, 0, rfl, rfl⟩

/-- A pool is made. -/
theorem construct_tracks (grow : ℕ → ℕ) (h : Tracks w L) (k : κ) (blockSize : ℕ) :
  Behaves (w.perform grow (.construct k blockSize)) fun w' =>
    ∃ L' es, Turn grow L (.construct k blockSize) L' es ∧ Tracks w' L' ∧ Recorded w.memory w'.memory es
  := by
  rw [World.perform]
  rcases w.unused_cases k with hbad | ⟨hnone, hunused⟩
  · rw [hbad]
    exact Or.inl rfl
  · right
    rw [hunused]
    apply Yields.ok
    have hk := h.ledger_none.mp hnone
    have hperforms : Performs w.memory w.memory (cellsOf (L k)) [] [] := by
      rw [hk]
      apply (Replaces.refl h.sane holds_nil).performs
    exact ⟨_, [], .construct hk,
      h.update hperforms (Option.Rel.some (new_represents w.memory blockSize)),
      Recorded.refl _⟩

/-- An operation on a pool. -/
theorem performOp_tracks (grow : ℕ → ℕ) (h : Tracks w L) (k : κ) (op : Op) :
  Behaves (w.perform grow (.run k op)) fun w' =>
    ∃ L' es, Turn grow L (.run k op) L' es ∧ Tracks w' L' ∧ Recorded w.memory w'.memory es
  := by
  rw [World.perform]
  rcases w.member_cases k with hbad | ⟨s, hs, hmember⟩
  · rw [hbad]
    exact Or.inl rfl
  · right
    obtain ⟨l, hl, hrep⟩ := h.ledger hs
    rw [hmember, ok_bind]
    apply (perform_refines _ op h.sane hrep).bind
    rintro ⟨s', m'⟩ ⟨l', es, hstep, hrep', hperforms⟩
    have hperforms' : Performs w.memory m' (cellsOf (L k)) l'.arena.cells es := by
      rw [hl]
      exact hperforms
    apply Yields.ok
    exact ⟨_, es, .run hl hstep, h.update hperforms' (Option.Rel.some hrep'),
      hperforms.recorded⟩

/-- A pool is made of the blocks of another one. -/
theorem moveConstruct_tracks (grow : ℕ → ℕ) (h : Tracks w L) (k other : κ) :
  Behaves (w.perform grow (.moveConstruct k other)) fun w' =>
    ∃ L' es, Turn grow L (.moveConstruct k other) L' es ∧ Tracks w' L' ∧ Recorded w.memory w'.memory es
  := by
  rw [World.perform]
  rcases w.unused_cases k with hbad | ⟨hnone, hunused⟩
  · rw [hbad]
    exact Or.inl rfl
  · rw [hunused, ok_bind]
    rcases w.member_cases other with hbad | ⟨s, hs, hmember⟩
    · rw [hbad]
      exact Or.inl rfl
    · right
      obtain ⟨l, hl, hrep⟩ := h.ledger hs
      have hk := h.ledger_none.mp hnone
      have hne : k ≠ other := by
        rintro rfl
        rw [hk] at hl
        cases hl
      rw [hmember]
      apply Yields.ok
      refine ⟨_, [], .moveConstruct hk hl, ?_, Recorded.refl _⟩
      apply h.move hne _ hs hl hrep
      rw [hk]
      rfl

/-- A pool takes over the blocks of another one, or of itself. -/
theorem moveAssign_tracks (grow : ℕ → ℕ) (h : Tracks w L) (k other : κ) :
  Behaves (w.perform grow (.moveAssign k other)) fun w' =>
    ∃ L' es, Turn grow L (.moveAssign k other) L' es ∧ Tracks w' L' ∧ Recorded w.memory w'.memory es
  := by
  rw [World.perform]
  rcases w.member_cases k with hbad | ⟨s, hs, hmember⟩
  · rw [hbad]
    exact Or.inl rfl
  · obtain ⟨l, hl, hrep⟩ := h.ledger hs
    rw [hmember, ok_bind]
    rcases release_spec h.sane hrep.shows with hbad | ⟨⟨p, m'⟩, hrelease, a, es, hclears,
      hperforms, hsize⟩
    · right
      rw [hbad]
      exact Or.inl rfl
    · simp only at hperforms hsize
      rw [hrep.cleaners] at hperforms
      rw [hrelease, ok_bind]
      simp only
      have hperforms' : Performs w.memory m' (cellsOf (L k)) []
          (l.cleaners.flatMap Cleaner.run ++ es ++ freed a.cells) := by
        rw [hl]
        exact hperforms
      rcases Classical.em (k = other) with rfl | hne
      · right
        have hself := World.member_eq (w := World.set ⟨w.members, m'⟩ k (some ⟨p, [], []⟩))
          (k := k) (Function.update_self _ _ _)
        have hrep' : Represents m' ⟨p.movedFrom, [], []⟩ l.movedFrom :=
          ⟨⟨hsize, rfl, rfl, rfl, holds_nil⟩, rfl, rfl, rfl⟩
        rw [hself, ok_bind, World.set_set, World.set_set]
        apply Yields.ok
        exact ⟨_, _, .moveSelf hl hclears, h.update hperforms' (Option.Rel.some hrep'),
          hperforms.recorded⟩
      · rcases w.member_cases other with hbad | ⟨o, ho, -⟩
        · left
          rw [World.member_set_ne _ (Ne.symm hne), hbad]
          rfl
        · right
          obtain ⟨lo, hlo, -⟩ := h.ledger ho
          have htracks := h.update hperforms' (Option.Rel.none (r := Represents m'))
          have ho' : (World.set ⟨w.members, m'⟩ k none).members other = some o := by
            rw [World.members_set, Function.update_of_ne (Ne.symm hne), ← ho]
          have hlo' : Function.update L k none other = some lo := by
            rw [Function.update_of_ne (Ne.symm hne), hlo]
          have hrep' : Represents m' o lo := by
            obtain ⟨lo', hlo'', hrep''⟩ := htracks.ledger ho'
            obtain rfl := Option.some.inj (hlo'.symm.trans hlo'')
            exact hrep''
          have hcells : cellsOf (Function.update L k none k) = [] := by
            rw [Function.update_self]
            rfl
          have hmove := htracks.move hne hcells ho' hlo' hrep'
          rw [Function.update_idem, World.set_set] at hmove
          rw [World.member_set_ne _ (Ne.symm hne), World.member_eq ho, ok_bind, World.set_set]
          apply Yields.ok
          exact ⟨_, _, .moveAssign hl hclears hne hlo, hmove, hperforms.recorded⟩

/-- A pool is destroyed. -/
theorem destroy_tracks (grow : ℕ → ℕ) (h : Tracks w L) (k : κ) :
  Behaves (w.perform grow (.destroy k)) fun w' =>
    ∃ L' es, Turn grow L (.destroy k) L' es ∧ Tracks w' L' ∧ Recorded w.memory w'.memory es
  := by
  rw [World.perform]
  rcases w.member_cases k with hbad | ⟨s, hs, hmember⟩
  · rw [hbad]
    exact Or.inl rfl
  · right
    obtain ⟨l, hl, hrep⟩ := h.ledger hs
    obtain ⟨m', hdestruct, hperforms⟩ := destruct_spec h.sane hrep.shows
    rw [hrep.cleaners] at hperforms
    have hperforms' : Performs w.memory m' (cellsOf (L k)) []
        (l.cleaners.flatMap Cleaner.run ++ freed l.arena.cells) := by
      rw [hl]
      exact hperforms
    rw [hmember, ok_bind, hdestruct]
    apply Yields.ok
    exact ⟨_, _, .destroy hl, h.update hperforms' Option.Rel.none, hperforms.recorded⟩

/-- Every event takes a turn of the ledgers. -/
theorem perform_tracks (grow : ℕ → ℕ) (h : Tracks w L) (e : Event κ) :
  Behaves (w.perform grow e) fun w' =>
    ∃ L' es, Turn grow L e L' es ∧ Tracks w' L' ∧ Recorded w.memory w'.memory es
  := by
  cases e with
  | construct k blockSize => exact construct_tracks grow h k blockSize
  | run k op => exact performOp_tracks grow h k op
  | moveConstruct k other => exact moveConstruct_tracks grow h k other
  | moveAssign k other => exact moveAssign_tracks grow h k other
  | destroy k => exact destroy_tracks grow h k

end

end StaticMemoryPool
