import CppFreshman.Pool.Release

/-!
# Constructors that throw

`create_object` registers the destructor of an object before it calls the constructor.  What a
constructor that throws has allocated from the pool and registered in it is not undone, and
neither is the registration of the object itself: its destructor is run like every other one.
-/

namespace StaticMemoryPool

/-- The operations that a constructor may use of the pool that its object is created in. -/
def Op.Creates : Op → Prop
  | .createBuffer _ => True
  | .createAligned _ _ => True
  | .createObject _ _ _ _ => True
  | .registerDestructor _ _ _ => True
  | _ => False

variable {κ : Type} [DecidableEq κ] {grow : ℕ → ℕ} {w w' : World κ} {L : Ledgers κ}
  {l l' : Ledger} {k : κ} {es : List Effect} {events : List (Event κ × List ℕ)} {news : List ℕ}
  {n : ℕ}

/-- `create_object` in the pool `k`, for a type whose destructor is not trivial and whose
constructor throws, leads from `w` to `w'`. -/
def World.Throws (grow : ℕ → ℕ) (k : κ) (w w' : World κ) : Prop :=
  ∃ size align destructor grows news w₁ body,
    (machine grow).step w (.run k (.createObject size align (some destructor) grows), news) =
      some w₁ ∧
    (∀ e, e ∈ body → ∃ op, e.1 = .run k op ∧ op.Creates) ∧
    (machine grow).run w₁ body = some w'

/-- Nothing that happens later runs the destructor that was registered as number `n`. -/
def World.NeverRuns (grow : ℕ → ℕ) (n : ℕ) (w : World κ) : Prop :=
  ∀ events w', (machine grow).run w events = some w' → .destructed n ∉ w'.memory.trace

/-- What a constructor does leaves the cleaners in the pool. -/
theorem Ledger.Step.cleaners_mono {op : Op} (hstep : l.Step grow op l' es) (hop : op.Creates)
    {c : Cleaner} (hc : c ∈ l.cleaners) :
  c ∈ l'.cleaners
  := by
  cases hstep with
  | createBuffer h => exact hc
  | createAligned h => exact hc
  | createTrivial h => exact hc
  | createObject h => exact List.mem_append_left _ hc
  | registerDestructor => exact List.mem_append_left _ hc
  | setBlockSize blockSize => exact hc
  | shrinkNothing h => exact hc
  | shrinkFrees h hbefore hpos => exact hc
  | shrinkTrims h hused => exact hc
  | minNothing h => exact hc
  | minFrees h hclear => cases hop
  | minTrims h hmin hafter => exact hc
  | clear h => cases hop

/-- The pool `k` has the cleaner of the destructor that was registered as number `n`. -/
def Keeps (L : Ledgers κ) (k : κ) (n : ℕ) : Prop :=
  ∃ l, L k = some l ∧ ∃ c, c ∈ l.cleaners ∧ c.serial = n

/-- The destructor of an object is registered as soon as there is memory for it. -/
theorem createObject_keeps {size : {n : ℕ // 0 < n}} {align : Pool.Alignment}
    {destructor : ℕ} {grows : Bool} (h : Tracks w L) (hbooked : Booked w.memory (cleanersOf ∘ L))
    (hstep : (World.machine grow).step w
      (.run k (.createObject size align (some destructor) grows), news) = some w') :
  ∃ L', Tracks w' L' ∧ Booked w'.memory (cleanersOf ∘ L') ∧ Keeps L' k w.memory.registered
  := by
  obtain ⟨L', es, hturn, htracks, hrec⟩ := step_tracks h hstep
  use L', htracks, hturn.booked (hbooked.setNews news) hrec
  obtain ⟨i, hi, -⟩ := hrec.registers
  cases hturn with
  | @run k op l l' es hk hstep =>
      cases hstep with
      | @createObject n start destructor serial align grows a es hgrants =>
          rw [registrations_append, registrations_blocks hgrants.isBlock] at hi
          have hlength := congrArg List.length hi
          rw [List.length_range'] at hlength
          obtain rfl : 1 = i := hlength
          refine ⟨_, Function.update_self _ _ _, ⟨some destructor, start, serial⟩, ?_, ?_⟩
          · apply List.mem_append_right _ List.mem_cons_self
          · apply (List.cons.inj hi).1

/-- The cleaner stays in the pool while the constructor runs. -/
theorem step_keeps {op : Op} (h : Tracks w L) (hbooked : Booked w.memory (cleanersOf ∘ L))
    (hkeeps : Keeps L k n) (hop : op.Creates)
    (hstep : (World.machine grow).step w (.run k op, news) = some w') :
  ∃ L', Tracks w' L' ∧ Booked w'.memory (cleanersOf ∘ L') ∧ Keeps L' k n
  := by
  obtain ⟨L', es, hturn, htracks, hrec⟩ := step_tracks h hstep
  use L', htracks, hturn.booked (hbooked.setNews news) hrec
  obtain ⟨l, hl, c, hc, hserial⟩ := hkeeps
  cases hturn with
  | @run k op l₁ l' es hk hstep =>
      obtain rfl := Option.some.inj (hl.symm.trans hk)
      use l', Function.update_self _ _ _
      use c, hstep.cleaners_mono hop hc

/-- A constructor that throws leaves the cleaner of its object in the pool. -/
theorem Throws.keeps (h : Tracks w L) (hbooked : Booked w.memory (cleanersOf ∘ L))
    (hthrows : World.Throws grow k w w') :
  ∃ L', Tracks w' L' ∧ Booked w'.memory (cleanersOf ∘ L') ∧ Keeps L' k w.memory.registered
  := by
  obtain ⟨size, align, destructor, grows, news, w₁, body, hstep, hbody, hrun⟩ := hthrows
  have hsteps : (World.machine grow).Steps
      (fun _ e => ∃ op, e.1 = .run k op ∧ op.Creates) w₁ body := by
    intro fs e t hfs ht
    apply hbody e (hfs.subset (List.mem_append_right _ List.mem_cons_self))
  apply (Machine.run_invariant_of_steps
    (I := fun w' => ∃ L', Tracks w' L' ∧ Booked w'.memory (cleanersOf ∘ L') ∧
      Keeps L' k w.memory.registered)
    _ hsteps (createObject_keeps h hbooked hstep)).last hrun
  rintro t ⟨e, news⟩ u ⟨L₁, htracks, hbooked, hkeeps⟩ ⟨op, rfl, hop⟩ hstep
  apply step_keeps htracks hbooked hkeeps hop hstep

/-- A pool that is there can be destroyed, and its cleaners run. -/
theorem destroy_runs (grow : ℕ → ℕ) (h : Tracks w L) (hl : L k = some l) :
  ∃ w', (World.machine grow).step w (.destroy k, []) = some w' ∧
    w'.memory.trace = w.memory.trace ++ (l.cleaners.flatMap Cleaner.run ++ freed l.arena.cells)
  := by
  obtain ⟨s, hs, hrep⟩ := (h.setNews []).member hl
  obtain ⟨m', hdestruct, hperforms⟩ := destruct_spec (h.setNews []).sane hrep.shows
  rw [hrep.cleaners] at hperforms
  use World.set ⟨w.members, m'⟩ k none
  constructor
  · rw [World.machine]
    simp only [World.perform]
    rw [World.member_eq hs, ok_bind, hdestruct]
    rfl
  · apply hperforms.trace

/-- The destructor of an object whose constructor has thrown is run when the pool is destroyed, in
every state that a program reaches; and so is every other destructor, each of them once. -/
theorem throwing_notNeverRuns (hrun : (World.machine grow).run World.empty events = some w)
    (hthrows : World.Throws grow k w w') :
  ¬ World.NeverRuns grow w.memory.registered w' ∧
    ∀ later w'', (World.machine grow).run w' later = some w'' →
      (∀ k, w''.members k = none) → ∀ n x, .registered n x ∈ w''.memory.trace →
      w''.memory.trace.count (.destructed n) = 1
  := by
  obtain ⟨L, htracks, hbooked⟩ := run_tracks hrun
  obtain ⟨L', htracks', hbooked', l, hl, c, hc, hserial⟩ := Throws.keeps htracks hbooked hthrows
  constructor
  · intro hnever
    obtain ⟨w'', hdestroy, htrace⟩ := destroy_runs grow htracks' hl
    have hone : (World.machine grow).run w' [(.destroy k, [])] = some w'' := by
      rw [Machine.run_cons, hdestroy]
      rfl
    apply hnever _ w'' hone
    have hlive : ∀ c, c ∈ l.cleaners → c.destructor ≠ none := by
      intro c hc
      apply (hbooked'.live k c _).1
      rw [Function.comp_apply, hl]
      exact hc
    rw [htrace, List.mem_append, List.mem_append, mem_run hlive]
    exact Or.inr (Or.inl ⟨c, hc, hserial⟩)
  · intro later w'' hlater hnone
    obtain ⟨L'', htracks'', hbooked''⟩ := run_tracks_from htracks' hbooked' hlater
    apply (released_once htracks'' hbooked'' hnone).2

/-- An object is created, whose constructor creates another one and throws. -/
def thrown : Event Unit × List ℕ :=
  (.run () (.createObject ⟨8, Nat.succ_pos _⟩ (.small 3) (some 1) false), [4096])

/-- What its constructor does. -/
def thrownBody : List (Event Unit × List ℕ) :=
  [(.run () (.createObject ⟨24, Nat.succ_pos _⟩ (.small 3) (some 2) true), [])]

/-- The destructor of the object is run by `clear`. -/
theorem thrown_destructed :
  ∃ w w' w'', (World.machine (· * 11 / 10)).run World.empty [(.construct () 64, [])] = some w ∧
    World.Throws (· * 11 / 10) () w w' ∧
    (World.machine (· * 11 / 10)).run w' [(.run () .clear, [])] = some w'' ∧
    .destructed w.memory.registered ∈ w''.memory.trace
  := by
  have hrun : ((World.machine (· * 11 / 10)).run World.empty [(.construct () 64, [])]).any fun w =>
      ((World.machine (· * 11 / 10)).step w thrown).any fun w₁ =>
        ((World.machine (· * 11 / 10)).run w₁ thrownBody).any fun w' =>
          ((World.machine (· * 11 / 10)).run w' [(.run () .clear, [])]).any fun w'' =>
            decide (.destructed w.memory.registered ∈ w''.memory.trace) := by
    decide +kernel
  obtain ⟨w, hw, hrun⟩ := Option.any_eq_true _ _ |>.mp hrun
  obtain ⟨w₁, hw₁, hrun⟩ := Option.any_eq_true _ _ |>.mp hrun
  obtain ⟨w', hw', hrun⟩ := Option.any_eq_true _ _ |>.mp hrun
  obtain ⟨w'', hw'', hmem⟩ := Option.any_eq_true _ _ |>.mp hrun
  refine ⟨w, w', w'', hw, ?_, hw'', of_decide_eq_true hmem⟩
  refine ⟨_, _, _, _, _, w₁, thrownBody, hw₁, ?_, hw'⟩
  intro e he
  obtain rfl := List.mem_singleton.mp he
  exact ⟨_, rfl, trivial⟩

theorem throwing_notNeverRuns_thrown :
  ∃ w w', (World.machine (· * 11 / 10)).run World.empty [(.construct () 64, [])] = some w ∧
    World.Throws (· * 11 / 10) () w w' ∧
    ¬ World.NeverRuns (· * 11 / 10) w.memory.registered w' ∧
    ∀ later w'', (World.machine (· * 11 / 10)).run w' later = some w'' →
      (∀ k, w''.members k = none) → ∀ n x, .registered n x ∈ w''.memory.trace →
      w''.memory.trace.count (.destructed n) = 1
  := by
  have hrun : ((World.machine (· * 11 / 10)).run World.empty [(.construct () 64, [])]).any fun w =>
      ((World.machine (· * 11 / 10)).step w thrown).isSome := by
    decide +kernel
  obtain ⟨w, hw, hrun⟩ := Option.any_eq_true _ _ |>.mp hrun
  obtain ⟨w', hw'⟩ := Option.isSome_iff_exists.mp hrun
  have hthrows : World.Throws (· * 11 / 10) () w w' := ⟨_, _, _, _, _, w', [], hw', nofun, rfl⟩
  exact ⟨w, w', hw, hthrows, throwing_notNeverRuns hw hthrows⟩

end StaticMemoryPool
