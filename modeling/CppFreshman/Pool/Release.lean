import CppFreshman.Pool.World

/-!
# What is released

`Booked` is the account of the destructors: each one that was registered is held by one pool and
has not run, or it has run once.  Every event keeps it (`Turn.booked`), and with the account of the
blocks that `Memory.Sane` is, everything has been released once when no pool is left
(`released_once`).
-/

namespace StaticMemoryPool

variable {κ : Type} {grow : ℕ → ℕ} {m m' : Memory} {w w' : World κ} {L L' : Ledgers κ}
  {l l' : Ledger} {k k' other : κ} {es : List Effect} {a a' : Arena} {cs cs' : List Cleaner}
  {C : κ → List Cleaner}

/-! ### What is recorded of cells -/

theorem isBlock_nil :
  ∀ e, e ∈ ([] : List Effect) → e.IsBlock
  := by
  intro e he
  cases he

theorem freed_isBlock (cells : List Cell) :
  ∀ e, e ∈ freed cells → e.IsBlock
  := by
  intro e he
  obtain ⟨c, -, rfl⟩ := List.mem_map.mp he
  trivial

theorem Cell.made_isBlock (c : Cell) :
  ∀ e, e ∈ c.made → e.IsBlock
  := by
  intro e he
  obtain rfl := List.mem_singleton.mp he
  trivial

theorem isBlock_append {es' : List Effect} (h : ∀ e, e ∈ es → e.IsBlock)
    (h' : ∀ e, e ∈ es' → e.IsBlock) :
  ∀ e, e ∈ es ++ es' → e.IsBlock
  := by
  intro e he
  rcases List.mem_append.mp he with he | he
  · apply h e he
  · apply h' e he

theorem Compacts.isBlock {blockSize : ℕ} {b b' : Cell} {rest rest' : List Cell}
    (h : Compacts blockSize b rest b' rest' es) :
  ∀ e, e ∈ es → e.IsBlock
  := by
  cases h with
  | keeps h => nofun
  | merges d h hd =>
      apply isBlock_append _ (Cell.made_isBlock _)
      apply isBlock_append (freed_isBlock _) (freed_isBlock _)

theorem Opens.isBlock {c : Chain} (h : Opens a c es) :
  ∀ e, e ∈ es → e.IsBlock
  := by
  cases h with
  | has h => nofun
  | first d h hd => exact Cell.made_isBlock _

theorem Allocates.isBlock {align n buffer : ℕ} {c : Chain}
    (h : Allocates grow align n a c a' buffer es) :
  ∀ e, e ∈ es → e.IsBlock
  := by
  cases h with
  | bump h => nofun
  | reuse h hn hafter hnext => exact hnext.isBlock
  | fresh d h hn hafter hd => exact Cell.made_isBlock _
  | own d h hn hd => exact Cell.made_isBlock _

theorem Grants.isBlock {n buffer : ℕ} {align : Pool.Alignment}
    (h : Grants grow a n align a' buffer es) :
  ∀ e, e ∈ es → e.IsBlock
  := by
  cases h with
  | small hopen h => exact isBlock_append hopen.isBlock h.isBlock
  | large hopen h => exact isBlock_append hopen.isBlock h.isBlock

theorem Clears.isBlock (h : Clears a a' es) :
  ∀ e, e ∈ es → e.IsBlock
  := by
  cases h with
  | nothing h => nofun
  | first h hcells hb => exact hb.isBlock

/-! ### The account of the destructors -/

/-- What an event does to the cleaners of a pool: it leaves them alone, adds one, or runs them
all. -/
inductive Accounts (cs : List Cleaner) : List Cleaner → List Effect → Prop
  | keeps {es : List Effect} (h : ∀ e, e ∈ es → e.IsBlock) : Accounts cs cs es
  | adds {es : List Effect} {c : Cleaner} (h : ∀ e, e ∈ es → e.IsBlock)
      (hc : c.destructor ≠ none) :
      Accounts cs (cs ++ [c]) (es ++ [.registered c.serial c.pointer])
  | runs {es : List Effect} (h : ∀ e, e ∈ es → e.IsBlock) :
      Accounts cs [] (cs.flatMap Cleaner.run ++ es)

theorem Ledger.Step.accounts {op : Op} (hstep : l.Step grow op l' es) :
  Accounts l.cleaners l'.cleaners es
  := by
  cases hstep with
  | createBuffer h => exact .keeps h.isBlock
  | createAligned h => exact .keeps h.isBlock
  | createTrivial h => exact .keeps h.isBlock
  | @createObject n start destructor serial align grows a es h =>
      exact .adds (c := ⟨some destructor, start, serial⟩) h.isBlock nofun
  | @registerDestructor destructor pointer serial grows =>
      have hnil : ∀ e, e ∈ ([] : List Effect) → e.IsBlock := nofun
      exact .adds (c := ⟨some destructor, pointer, serial⟩) hnil nofun
  | setBlockSize blockSize => exact .keeps nofun
  | shrinkNothing h => exact .keeps nofun
  | shrinkFrees h hbefore hpos => exact .keeps (freed_isBlock _)
  | shrinkTrims h hused => exact .keeps (freed_isBlock _)
  | minNothing h => exact .keeps nofun
  | minFrees h hclear =>
      rw [List.append_assoc]
      exact .runs (isBlock_append hclear.isBlock (freed_isBlock _))
  | minTrims h hmin hafter => exact .keeps (freed_isBlock _)
  | clear h => exact .runs h.isBlock

/-- The cleaners of the pools are different and have not run; every other destructor that was
registered has run once. -/
structure Booked (m : Memory) (C : κ → List Cleaner) : Prop where
  live : ∀ k c, c ∈ C k → c.destructor ≠ none ∧ .registered c.serial c.pointer ∈ m.trace ∧
    .destructed c.serial ∉ m.trace
  nodup : ∀ k, ((C k).map Cleaner.serial).Nodup
  apart : ∀ k k', k ≠ k' → ∀ c, c ∈ C k → ∀ c', c' ∈ C k' → c.serial ≠ c'.serial
  known : ∀ n x, .registered n x ∈ m.trace → n < m.registered
  done : ∀ n, n < m.registered → (∀ k c, c ∈ C k → c.serial ≠ n) →
    m.trace.count (.destructed n) = 1
  unknown : ∀ n, m.registered ≤ n → .destructed n ∉ m.trace

theorem Booked.serial_lt (h : Booked m C) {c : Cleaner} (hc : c ∈ C k) :
  c.serial < m.registered
  := h.known _ _ (h.live k c hc).2.1

/-- The destructors of cleaners that have not been moved from run in turn. -/
theorem run_eq (h : ∀ c, c ∈ cs → c.destructor ≠ none) :
  cs.flatMap Cleaner.run = cs.map fun c => .destructed c.serial
  := by
  induction cs with
  | nil => rfl
  | cons c cs ih =>
      have hrun : c.run = [.destructed c.serial] := by
        rw [Cleaner.run]
        rcases hd : c.destructor with _ | d
        · apply absurd hd (h c List.mem_cons_self)
        · rfl
      rw [List.flatMap_cons, List.map_cons, hrun, List.singleton_append,
        ih fun d hd => h d (List.mem_cons_of_mem c hd)]

theorem mem_run {n : ℕ} (h : ∀ c, c ∈ cs → c.destructor ≠ none) :
  .destructed n ∈ cs.flatMap Cleaner.run ↔ ∃ c, c ∈ cs ∧ c.serial = n
  := by
  rw [run_eq h, List.mem_map]
  simp

/-- Each destructor of different cleaners runs once. -/
theorem count_run {n : ℕ} (h : ∀ c, c ∈ cs → c.destructor ≠ none)
    (hnodup : (cs.map Cleaner.serial).Nodup) (hn : ∃ c, c ∈ cs ∧ c.serial = n) :
  (cs.flatMap Cleaner.run).count (.destructed n) = 1
  := by
  have hmap : cs.map (fun c => Effect.destructed c.serial) =
      (cs.map Cleaner.serial).map Effect.destructed := by
    rw [List.map_map]
    rfl
  obtain ⟨c, hc, rfl⟩ := hn
  rw [run_eq h, hmap]
  apply List.count_eq_one_of_mem
  · apply hnodup.map
    intro x y hxy
    apply Effect.destructed.inj hxy
  · apply List.mem_map_of_mem
    apply List.mem_map_of_mem hc

theorem notMem_blocks {e : Effect} (h : ∀ e, e ∈ es → e.IsBlock) (he : ¬ e.IsBlock) :
  e ∉ es
  := by
  intro hmem
  apply he (h e hmem)

/-- What is recorded of blocks does not concern the account. -/
theorem Booked.record (h : Booked m C) (hes : ∀ e, e ∈ es → e.IsBlock)
    (htrace : m'.trace = m.trace ++ es) (hregistered : m'.registered = m.registered) :
  Booked m' C
  := by
  have hmem : ∀ {e : Effect}, ¬ e.IsBlock → (e ∈ m'.trace ↔ e ∈ m.trace) := by
    intro e he
    rw [htrace, List.mem_append, or_iff_left (notMem_blocks hes he)]
  constructor
  · intro k c hc
    obtain ⟨hsome, hold, hnot⟩ := h.live k c hc
    rw [hmem id, hmem id]
    exact ⟨hsome, hold, hnot⟩
  · apply h.nodup
  · apply h.apart
  · intro n x hn
    rw [hregistered]
    apply h.known n x ((hmem id).mp hn)
  · intro n hn hnone
    rw [hregistered] at hn
    rw [htrace, List.count_append, h.done n hn hnone,
      List.count_eq_zero.mpr (notMem_blocks hes id)]
  · intro n hn
    rw [hregistered] at hn
    rw [hmem id]
    apply h.unknown n hn

/-- No destructor is registered, so that there are as many as before. -/
theorem Recorded.registered_eq (h : Recorded m m' es) (hes : registrations es = []) :
  m'.registered = m.registered
  := by
  obtain ⟨k, hk, hregistered⟩ := h.registers
  rw [hes] at hk
  have hlength := congrArg List.length hk
  rw [List.length_range'] at hlength
  rw [hregistered, ← hlength]
  rfl

/-- The cleaners of a ledger that may be absent. -/
def cleanersOf : Option Ledger → List Cleaner
  | none => []
  | some l => l.cleaners

theorem empty_tracks :
  Tracks (World.empty : World κ) (fun _ => none)
  := by
  constructor
  · apply Memory.empty_sane
  · intro k
    exact .none
  · nofun
  · intro x b hx
    rw [World.empty, Memory.empty, Finmap.lookup_empty] at hx
    cases hx

theorem empty_booked :
  Booked Memory.empty (cleanersOf ∘ (fun _ => none : Ledgers κ))
  := by
  constructor
  · nofun
  · intro k
    apply List.nodup_nil
  · nofun
  · nofun
  · nofun
  · nofun

theorem Tracks.setNews (h : Tracks w L) (news : List ℕ) :
  Tracks ⟨w.members, { w.memory with news := news }⟩ L
  := by
  constructor
  · apply h.sane.setNews
  · intro k
    have hrel := h.represents k
    generalize w.members k = s at hrel
    generalize L k = l at hrel
    cases hrel with
    | none => exact .none
    | some hrep => exact .some (hrep.setNews news)
  · apply h.apart
  · apply h.covers

theorem Booked.setNews (h : Booked m C) (news : List ℕ) :
  Booked { m with news := news } C
  := ⟨h.live, h.nodup, h.apart, h.known, h.done, h.unknown⟩

/-- When no pool is left, every block was destroyed once and every destructor has run once. -/
theorem released_once (htracks : Tracks w L) (hbooked : Booked w.memory (cleanersOf ∘ L))
    (hnone : ∀ k, w.members k = none) :
  (∀ n x c, .created n x c ∈ w.memory.trace → w.memory.trace.count (.destroyed n) = 1) ∧
    ∀ n x, .registered n x ∈ w.memory.trace → w.memory.trace.count (.destructed n) = 1
  := by
  have hledger : ∀ k, L k = none := fun k => htracks.ledger_none.mp (hnone k)
  constructor
  · intro n x c hn
    apply htracks.sane.gone n (htracks.sane.created n x c hn).1
    intro y b hb
    obtain ⟨k, l, hl, -⟩ := htracks.covers y b hb
    rw [hledger k] at hl
    cases hl
  · intro n x hn
    apply hbooked.done n (hbooked.known n x hn)
    intro k c hc
    rw [Function.comp_apply, hledger k] at hc
    cases hc

variable [DecidableEq κ]

/-- The cleaners of the other pools are the same ones. -/
theorem mem_update {c : Cleaner} (hc : c ∈ Function.update C k cs k') :
  k' = k ∧ c ∈ cs ∨ k' ≠ k ∧ c ∈ C k'
  := by
  rcases Classical.em (k' = k) with rfl | hne
  · rw [Function.update_self] at hc
    exact Or.inl ⟨rfl, hc⟩
  · rw [Function.update_of_ne hne] at hc
    exact Or.inr ⟨hne, hc⟩

/-- A destructor is registered. -/
theorem Booked.add {c : Cleaner} (h : Booked m C) (hc : c.destructor ≠ none)
    (hserial : c.serial = m.registered)
    (htrace : m'.trace = m.trace ++ [.registered c.serial c.pointer])
    (hregistered : m'.registered = m.registered + 1) :
  Booked m' (Function.update C k (C k ++ [c]))
  := by
  have hcases : ∀ {k' d}, d ∈ Function.update C k (C k ++ [c]) k' →
      d ∈ C k' ∨ k' = k ∧ d = c := by
    intro k' d hd
    rcases mem_update hd with ⟨rfl, hd⟩ | ⟨-, hd⟩
    · rcases List.mem_append.mp hd with hd | hd
      · exact Or.inl hd
      · exact Or.inr ⟨rfl, List.mem_singleton.mp hd⟩
    · exact Or.inl hd
  have hmem : ∀ {n}, .destructed n ∈ m'.trace ↔ .destructed n ∈ m.trace := by
    intro n
    rw [htrace, List.mem_append]
    simp
  have hne : ∀ {k' d}, d ∈ C k' → d.serial ≠ c.serial := by
    intro k' d hd
    rw [hserial]
    apply Nat.ne_of_lt (h.serial_lt hd)
  constructor
  · intro k' d hd
    rw [hmem, htrace, List.mem_append, List.mem_singleton]
    rcases hcases hd with hd | ⟨rfl, rfl⟩
    · obtain ⟨hsome, hold, hnot⟩ := h.live k' d hd
      exact ⟨hsome, Or.inl hold, hnot⟩
    · refine ⟨hc, Or.inr rfl, ?_⟩
      rw [hserial]
      apply h.unknown _ (Nat.le_refl _)
  · intro k'
    rcases Classical.em (k' = k) with rfl | hk
    · rw [Function.update_self, List.map_append, List.nodup_append]
      refine ⟨h.nodup k', List.nodup_singleton _, ?_⟩
      rintro x hx y hy rfl
      obtain ⟨d, hd, rfl⟩ := List.mem_map.mp hx
      apply hne hd (List.mem_singleton.mp hy)
    · rw [Function.update_of_ne hk]
      apply h.nodup k'
  · intro k₁ k₂ hk d hd d' hd'
    rcases hcases hd with hold | ⟨rfl, rfl⟩
    · rcases hcases hd' with hold' | ⟨rfl, rfl⟩
      · apply h.apart k₁ k₂ hk d hold d' hold'
      · apply hne hold
    · rcases hcases hd' with hold' | ⟨rfl, rfl⟩
      · apply Ne.symm (hne hold')
      · apply absurd rfl hk
  · intro n x hn
    rw [hregistered]
    rw [htrace, List.mem_append, List.mem_singleton] at hn
    rcases hn with hn | hn
    · apply Nat.lt_succ_of_lt (h.known n x hn)
    · obtain ⟨rfl, -⟩ := Effect.registered.inj hn
      rw [hserial]
      apply Nat.lt_succ_self
  · intro n hn hnone
    have hold : n ≠ m.registered := by
      rintro rfl
      apply hnone k c _ hserial
      rw [Function.update_self]
      apply List.mem_append_right _ List.mem_cons_self
    rw [hregistered] at hn
    rw [htrace, List.count_append, h.done n (by omega)]
    · simp
    · intro k' d hd
      apply hnone k' d
      rcases Classical.em (k' = k) with rfl | hk
      · rw [Function.update_self]
        apply List.mem_append_left _ hd
      · rw [Function.update_of_ne hk]
        exact hd
  · intro n hn
    rw [hregistered] at hn
    rw [hmem]
    apply h.unknown n (Nat.le_of_succ_le hn)

/-- The cleaners of a pool run. -/
theorem Booked.run (h : Booked m C) (htrace : m'.trace = m.trace ++ (C k).flatMap Cleaner.run)
    (hregistered : m'.registered = m.registered) :
  Booked m' (Function.update C k [])
  := by
  have hsome : ∀ c, c ∈ C k → c.destructor ≠ none := fun c hc => (h.live k c hc).1
  have hcases : ∀ {k' d}, d ∈ Function.update C k [] k' → k' ≠ k ∧ d ∈ C k' := by
    intro k' d hd
    rcases mem_update hd with ⟨rfl, hnil⟩ | hother
    · cases hnil
    · exact hother
  have hmem : ∀ {n}, .destructed n ∈ m'.trace ↔
      .destructed n ∈ m.trace ∨ ∃ c, c ∈ C k ∧ c.serial = n := by
    intro n
    rw [htrace, List.mem_append, mem_run hsome]
  have hregs : ∀ {n x}, .registered n x ∈ m'.trace ↔ .registered n x ∈ m.trace := by
    intro n x
    rw [htrace, List.mem_append, or_iff_left]
    intro hrun
    apply (run_effects _ _ hrun).2 n x rfl
  constructor
  · intro k' d hd
    obtain ⟨hk', hd⟩ := hcases hd
    obtain ⟨hd', hold, hnot⟩ := h.live k' d hd
    rw [hregs, hmem, not_or]
    refine ⟨hd', hold, hnot, ?_⟩
    rintro ⟨c, hc, heq⟩
    apply h.apart k' k hk' d hd c hc heq.symm
  · intro k'
    rcases Classical.em (k' = k) with rfl | hk
    · rw [Function.update_self]
      apply List.nodup_nil
    · rw [Function.update_of_ne hk]
      apply h.nodup k'
  · intro k₁ k₂ hk d hd d' hd'
    apply h.apart k₁ k₂ hk d (hcases hd).2 d' (hcases hd').2
  · intro n x hn
    rw [hregistered]
    apply h.known n x (hregs.mp hn)
  · intro n hn hnone
    rw [hregistered] at hn
    rw [htrace, List.count_append]
    rcases Classical.em (∃ c, c ∈ C k ∧ c.serial = n) with hrun | hrun
    · obtain ⟨c, hc, rfl⟩ := hrun
      rw [count_run hsome (h.nodup k) ⟨c, hc, rfl⟩,
        List.count_eq_zero.mpr (h.live k c hc).2.2]
    · rw [h.done n hn]
      · rw [List.count_eq_zero.mpr]
        rw [mem_run hsome]
        exact hrun
      · intro k' c hc heq
        rcases Classical.em (k' = k) with rfl | hk
        · apply hrun ⟨c, hc, heq⟩
        · apply hnone k' c _ heq
          rw [Function.update_of_ne hk]
          exact hc
  · intro n hn
    rw [hregistered] at hn
    rw [hmem, not_or]
    use h.unknown n hn
    rintro ⟨c, hc, rfl⟩
    apply Nat.lt_irrefl _ (Nat.lt_of_lt_of_le (h.serial_lt hc) hn)

/-- The cleaners of a pool are moved to one without any. -/
theorem Booked.move (h : Booked m C) (hne : k ≠ other) (hk : C k = []) :
  Booked m (Function.update (Function.update C k (C other)) other [])
  := by
  have hcases : ∀ {k' c}, c ∈ Function.update (Function.update C k (C other)) other [] k' →
      ∃ k₀, c ∈ C k₀ ∧ (k₀ = other ∧ k' = k ∨ k₀ = k' ∧ k' ≠ k ∧ k' ≠ other) := by
    intro k' c hc
    rcases mem_update hc with ⟨rfl, hnil⟩ | ⟨hother, hrest⟩
    · cases hnil
    · rcases mem_update hrest with ⟨rfl, hmoved⟩ | ⟨hk', hold⟩
      · exact ⟨other, hmoved, Or.inl ⟨rfl, rfl⟩⟩
      · exact ⟨k', hold, Or.inr ⟨rfl, hk', hother⟩⟩
  constructor
  · intro k' c hc
    obtain ⟨k₀, hc, -⟩ := hcases hc
    apply h.live k₀ c hc
  · intro k'
    rcases Classical.em (k' = other) with rfl | hother
    · rw [Function.update_self]
      apply List.nodup_nil
    · rw [Function.update_of_ne hother]
      rcases Classical.em (k' = k) with rfl | hk'
      · rw [Function.update_self]
        apply h.nodup other
      · rw [Function.update_of_ne hk']
        apply h.nodup k'
  · intro k₁ k₂ hk₁₂ c hc c' hc'
    obtain ⟨k₀, hc, hcase⟩ := hcases hc
    obtain ⟨k₀', hc', hcase'⟩ := hcases hc'
    apply h.apart k₀ k₀' _ c hc c' hc'
    rcases hcase with ⟨rfl, rfl⟩ | ⟨rfl, hk₁, ho₁⟩
    · rcases hcase' with ⟨rfl, rfl⟩ | ⟨rfl, hk₂, ho₂⟩
      · apply absurd rfl hk₁₂
      · apply Ne.symm ho₂
    · rcases hcase' with ⟨rfl, rfl⟩ | ⟨rfl, hk₂, ho₂⟩
      · apply ho₁
      · apply hk₁₂
  · apply h.known
  · intro n hn hnone
    apply h.done n hn
    intro k' c hc
    rcases Classical.em (k' = other) with rfl | hother
    · apply hnone k c
      rw [Function.update_of_ne hne, Function.update_self]
      exact hc
    · apply hnone k' c
      have hk' : k' ≠ k := by
        rintro rfl
        rw [hk] at hc
        cases hc
      rw [Function.update_of_ne hother, Function.update_of_ne hk']
      exact hc
  · apply h.unknown

/-- The account is kept by what an event does to the cleaners of a pool. -/
theorem Booked.accounts (h : Booked m C) (hk : C k = cs) (hacc : Accounts cs cs' es)
    (hrec : Recorded m m' es) :
  Booked m' (Function.update C k cs')
  := by
  subst hk
  cases hacc with
  | keeps hes =>
      rw [Function.update_eq_self]
      apply h.record hes hrec.trace (hrec.registered_eq (registrations_blocks hes))
  | @adds es c hes hc =>
      have hfirst : Booked { m with trace := m.trace ++ es } C := h.record hes rfl rfl
      obtain ⟨i, hi, hregistered⟩ := hrec.registers
      have hlength := congrArg List.length hi
      rw [registrations_append, registrations_blocks hes, List.nil_append] at hi hlength
      rw [List.length_range'] at hlength
      obtain rfl : 1 = i := hlength
      have htrace := hrec.trace
      rw [← List.append_assoc] at htrace
      apply hfirst.add hc (List.cons.inj hi).1 htrace hregistered
  | @runs es hes =>
      have hregistered := hrec.registered_eq (by
        rw [registrations_append, registrations_run, registrations_blocks hes]
        rfl)
      have hfirst : Booked { m with trace := m.trace ++ (C k).flatMap Cleaner.run }
          (Function.update C k []) := h.run rfl rfl
      have htrace := hrec.trace
      rw [← List.append_assoc] at htrace
      apply hfirst.record hes htrace hregistered

/-- Every event keeps the account. -/
theorem Turn.booked {e : Event κ} (hturn : Turn grow L e L' es)
    (h : Booked m (cleanersOf ∘ L)) (hrec : Recorded m m' es) :
  Booked m' (cleanersOf ∘ L')
  := by
  have hof : ∀ {k : κ} {l : Option Ledger}, L k = l → (cleanersOf ∘ L) k = cleanersOf l := by
    rintro k l rfl
    rfl
  cases hturn with
  | construct hk =>
      rw [Function.comp_update]
      apply h.accounts (hof hk) (.keeps isBlock_nil) hrec
  | run hk hstep =>
      rw [Function.comp_update]
      apply h.accounts (hof hk) hstep.accounts hrec
  | moveConstruct hk hother =>
      have hsame : Booked m' (cleanersOf ∘ L) :=
        h.record isBlock_nil hrec.trace (hrec.registered_eq rfl)
      have hne : ∀ {k other : κ} {l : Ledger}, L k = none → L other = some l → k ≠ other := by
        rintro k _ l hk hl rfl
        rw [hk] at hl
        cases hl
      rw [Function.comp_update, Function.comp_update, ← hother]
      apply hsame.move (hne hk hother) (hof hk)
  | @moveAssign k other l o a es hk hclears hne hother =>
      rw [List.append_assoc] at hrec
      have hruns := h.accounts (hof hk)
        (.runs (isBlock_append hclears.isBlock (freed_isBlock a.cells))) hrec
      have hmove := hruns.move hne (Function.update_self _ _ _)
      rw [Function.update_idem, Function.update_of_ne (Ne.symm hne)] at hmove
      rw [Function.comp_update, Function.comp_update, ← hother]
      apply hmove
  | @moveSelf k l a es hk hclears =>
      rw [List.append_assoc] at hrec
      rw [Function.comp_update]
      apply h.accounts (hof hk)
        (.runs (isBlock_append hclears.isBlock (freed_isBlock a.cells))) hrec
  | destroy hk =>
      rw [Function.comp_update]
      apply h.accounts (hof hk) (.runs (freed_isBlock _)) hrec

/-! ### Programs -/

variable {e : Event κ} {news : List ℕ} {events : List (Event κ × List ℕ)}

/-- A step of a program is a turn of the ledgers. -/
theorem step_tracks (h : Tracks w L)
    (hstep : (World.machine grow).step w (e, news) = some w') :
  ∃ L' es, Turn grow L e L' es ∧ Tracks w' L' ∧
    Recorded { w.memory with news := news } w'.memory es
  := by
  have hbehaves := perform_tracks grow (h.setNews news) e
  rw [World.machine] at hstep
  simp only at hstep
  rcases hbehaves with hbad | hbad | ⟨r, hok, hr⟩
  · rw [hbad] at hstep
    cases hstep
  · rw [hbad] at hstep
    cases hstep
  · rw [hok] at hstep
    obtain rfl := Option.some.inj hstep
    exact hr

/-- The accounts stay in order. -/
theorem run_tracks_from (h : Tracks w L) (hbooked : Booked w.memory (cleanersOf ∘ L))
    (hrun : (World.machine grow).run w events = some w') :
  ∃ L', Tracks w' L' ∧ Booked w'.memory (cleanersOf ∘ L')
  := by
  apply (World.machine grow).run_invariant
    (I := fun w => ∃ L, Tracks w L ∧ Booked w.memory (cleanersOf ∘ L)) _ hrun ⟨L, h, hbooked⟩
  rintro t ⟨e, news⟩ u ⟨L, htracks, hbooked⟩ hstep
  obtain ⟨L', es, hturn, htracks', hrec⟩ := step_tracks htracks hstep
  exact ⟨L', htracks', hturn.booked (hbooked.setNews news) hrec⟩

/-- The accounts are in order in every state that a program reaches. -/
theorem run_tracks (hrun : (World.machine grow).run World.empty events = some w) :
  ∃ L, Tracks w L ∧ Booked w.memory (cleanersOf ∘ L)
  := by
  apply run_tracks_from empty_tracks empty_booked hrun

end StaticMemoryPool
