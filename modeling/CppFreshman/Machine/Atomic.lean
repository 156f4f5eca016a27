import CppFreshman.Machine.Alone
import CppFreshman.Machine.Trace

/-!
# Atomic objects

An `Atomic.Object` says what each operation on an object does to its value, and what it returns,
when operations are carried out one after the other.  `Object.threads` are threads that call its
operations at the same time: a call begins, takes effect at one instant, and returns what it was
to return at that instant.

A history, the calls and returns that are seen of an implementation, is `Linearizable` if these
threads have it: each operation in it can be thought of as taking effect at one instant between
its call and its return.  The operations of such a history are in an order in which they could
have been carried out one after the other, and in which one that has returned comes before all
that are called later (`Linearizable.sequential`).

The histories of the runs of other threads are linearizable if the value of the object and the
place of each thread in its call can be read off the configurations, and for every step there are
instants of the thread's call that go with it (`Explanation.linearizable`).
-/

universe u v w x y z z'

namespace Atomic

/-- What an operation does to the value of an object, and what it returns. -/
structure Object (κ : Type u) (ο : Type v) (ρ : Type w) where
  apply : κ → ο → κ × ρ

/-- What is seen of a thread: it calls an operation, or its call returns. -/
inductive Act (ο : Type v) (ρ : Type w) where
  | call (op : ο)
  | ret (r : ρ)

/-- The instants of a call: what is seen of it, and that at which it takes effect. -/
inductive Instant (ο : Type v) (ρ : Type w) where
  | act (a : Act ο ρ)
  | effect

/-- Where a thread stands: in no call, in one that has not taken effect, or in one that has and
is to return `r`. -/
inductive Status (ο : Type v) (ρ : Type w) where
  | idle
  | called (op : ο)
  | done (r : ρ)

section Objects

variable {κ : Type u} {ο : Type v} {ρ : Type w} (O : Object κ ο ρ)

/-- Carried out one after the other from the value `q` on, the operations return the results and
lead to the value `q'`. -/
def Object.Leads (q : κ) : List (ο × ρ) → κ → Prop
  | [], q' => q = q'
  | (op, r) :: ops, q' => (O.apply q op).2 = r ∧ Object.Leads (O.apply q op).1 ops q'

variable {O}

theorem Object.Leads.concat {q q' : κ} {ops : List (ο × ρ)} (h : O.Leads q ops q') (op : ο) :
  O.Leads q (ops ++ [(op, (O.apply q' op).2)]) (O.apply q' op).1
  := by
  induction ops generalizing q with
  | nil =>
      obtain rfl : q = q' := h
      exact ⟨rfl, rfl⟩
  | cons p ops ih =>
      obtain ⟨hr, hrest⟩ := h
      exact ⟨hr, ih hrest⟩

variable [DecidableEq ρ]

/-- What an instant of a call does. -/
def Object.step (O : Object κ ο ρ) (a : Instant ο ρ) (q : κ) (l : Status ο ρ) :
    Option (κ × Status ο ρ) :=
  match l, a with
  | .idle, .act (.call op) => some (q, .called op)
  | .called op, .effect => some ((O.apply q op).1, .done (O.apply q op).2)
  | .done r, .act (.ret r') => if r = r' then some (q, .idle) else none
  | _, _ => none

/-- One thread alone. -/
def Object.alone (O : Object κ ο ρ) : Machine (κ × Status ο ρ) (Instant ο ρ) where
  step s a := O.step a s.1 s.2

/-- The threads that use the object. -/
def Object.threads (O : Object κ ο ρ) (ι : Type x) : Threads ι κ (Status ο ρ) (Instant ο ρ) where
  step _ a q l := O.step a q l

end Objects

/-! ### Histories -/

section Histories

variable {ι : Type x} {ο : Type v} {ρ : Type w}

/-- What is seen of an instant. -/
def Instant.seen : Instant ο ρ → List (Act ο ρ)
  | .act a => [a]
  | .effect => []

/-- What is seen of an instant of a thread's call. -/
def seen {τ : Type y} (_ : τ) (e : ι × Instant ο ρ) (_ : τ) : List (ι × Act ο ρ) :=
  e.2.seen.map (Prod.mk e.1)

variable [DecidableEq ι]

/-- The operations that the thread `i` calls. -/
def calls (i : ι) (h : List (ι × Act ο ρ)) : List ο :=
  h.filterMap fun e => if e.1 = i then match e.2 with
    | .call op => some op
    | .ret _ => none
  else none

/-- The results of the calls of the thread `i` that return. -/
def returns (i : ι) (h : List (ι × Act ο ρ)) : List ρ :=
  h.filterMap fun e => if e.1 = i then match e.2 with
    | .call _ => none
    | .ret r => some r
  else none

/-- The operations of the thread `i`, with their results. -/
def own (i : ι) (ops : List (ι × ο × ρ)) : List (ο × ρ) :=
  ops.filterMap fun e => if e.1 = i then some e.2 else none

end Histories

/-- What was seen of a thread and what it has done, where it stands at `l`: the results that its
calls returned are those of its operations, and the operations are those that it called, but for
the call it is in. -/
def Status.Accounts {ο : Type v} {ρ : Type w} (calls : List ο) (returns : List ρ)
    (ops : List (ο × ρ)) : Status ο ρ → Prop
  | .idle => ops.map Prod.snd = returns ∧ ops.map Prod.fst = calls
  | .called op => ops.map Prod.snd = returns ∧ ops.map Prod.fst ++ [op] = calls
  | .done r => ops.map Prod.snd = returns ++ [r] ∧ ops.map Prod.fst = calls

/-- The results that were returned are among those of the operations, and the operations among
those that were called. -/
theorem Status.Accounts.isPrefix {ο : Type v} {ρ : Type w} {calls : List ο} {returns : List ρ}
    {ops : List (ο × ρ)} {l : Status ο ρ} (hl : l.Accounts calls returns ops) :
  returns <+: ops.map Prod.snd ∧ ops.map Prod.fst <+: calls
  := by
  cases l with
  | idle =>
      obtain ⟨rfl, rfl⟩ := hl
      exact ⟨List.prefix_refl _, List.prefix_refl _⟩
  | called op =>
      obtain ⟨rfl, rfl⟩ := hl
      exact ⟨List.prefix_refl _, List.prefix_append _ _⟩
  | done r =>
      obtain ⟨hr, rfl⟩ := hl
      rw [hr]
      exact ⟨List.prefix_append _ _, List.prefix_refl _⟩

variable {ι : Type x} {κ : Type u} {ο : Type v} {ρ : Type w} {O : Object κ ο ρ} {q : κ}
  {h h' : List (ι × Act ο ρ)}

/-- The object with the value `q`, and no thread in a call. -/
def start (ι : Type x) (ο : Type v) (ρ : Type w) (q : κ) : Threads.Config ι κ (Status ο ρ) :=
  ⟨q, fun _ => .idle⟩

/-! ### The order of the operations -/

/-- The operation that takes effect in a step, with its result. -/
def taken (O : Object κ ο ρ) (c : Threads.Config ι κ (Status ο ρ)) (e : ι × Instant ο ρ)
    (_ : Threads.Config ι κ (Status ο ρ)) : List (ι × ο × ρ) :=
  match e.2, c.locals e.1 with
  | .effect, .called op => [(e.1, op, (O.apply c.shared op).2)]
  | _, _ => []

section Appending

variable [DecidableEq ι] (i : ι) (h h' : List (ι × Act ο ρ)) (ops ops' : List (ι × ο × ρ))

theorem calls_append :
  calls i (h ++ h') = calls i h ++ calls i h'
  := by
  apply List.filterMap_append

theorem returns_append :
  returns i (h ++ h') = returns i h ++ returns i h'
  := by
  apply List.filterMap_append

theorem own_append :
  own i (ops ++ ops') = own i ops ++ own i ops'
  := by
  apply List.filterMap_append

end Appending

variable [DecidableEq ι]

/-- A step changes nothing that concerns another thread. -/
theorem seen_of_ne {i j : ι} (hne : j ≠ i) (c : Threads.Config ι κ (Status ο ρ))
    (a : Instant ο ρ) :
  calls j (seen c (i, a) c) = [] ∧ returns j (seen c (i, a) c) = [] ∧
    own j (taken O c (i, a) c) = []
  := by
  refine ⟨?_, ?_, ?_⟩
  · rcases a with a | _ <;> simp [calls, seen, Instant.seen, hne.symm]
  · rcases a with a | _ <;> simp [returns, seen, Instant.seen, hne.symm]
  · rw [taken]
    split <;> simp [own, hne.symm]

variable [DecidableEq ρ]

/-- What a step of the object does to what it leads to and to what the thread accounts for. -/
theorem step_accounts {c : Threads.Config ι κ (Status ο ρ)} {i : ι} {a : Instant ο ρ} {q' : κ}
    {l' : Status ο ρ} {calls' : List ο} {returns' : List ρ} {ops : List (ο × ρ)}
    {all : List (ο × ρ)} (hstep : O.step a c.shared (c.locals i) = some (q', l'))
    (hleads : O.Leads q all c.shared) (hl : (c.locals i).Accounts calls' returns' ops) :
  O.Leads q (all ++ (taken O c (i, a) c).map Prod.snd) q' ∧
    l'.Accounts (calls' ++ calls i (seen c (i, a) c)) (returns' ++ returns i (seen c (i, a) c))
      (ops ++ own i (taken O c (i, a) c))
  := by
  rcases hc : c.locals i with _ | op | r
  · rw [hc] at hstep hl
    rcases a with ⟨op | r⟩ | _
    · obtain ⟨rfl, rfl⟩ := Prod.mk.inj (Option.some.inj hstep)
      obtain ⟨rfl, rfl⟩ := hl
      simp [taken, calls, returns, own, seen, Instant.seen, Status.Accounts, hleads]
    · cases hstep
    · cases hstep
  · rw [hc] at hstep hl
    rcases a with ⟨op | r⟩ | _
    · cases hstep
    · cases hstep
    · obtain ⟨rfl, rfl⟩ := Prod.mk.inj (Option.some.inj hstep)
      obtain ⟨rfl, rfl⟩ := hl
      constructor
      · simp only [taken, hc, List.map_cons, List.map_nil]
        apply hleads.concat op
      · simp [taken, hc, calls, returns, own, seen, Instant.seen, Status.Accounts]
  · rw [hc] at hstep hl
    rcases a with ⟨op | r'⟩ | _
    · cases hstep
    · obtain ⟨rfl, hr⟩ := Option.ite_none_right_eq_some.mp hstep
      obtain ⟨rfl, rfl⟩ := Prod.mk.inj (Option.some.inj hr)
      obtain ⟨hr, rfl⟩ := hl
      simp [taken, calls, returns, own, seen, Instant.seen, Status.Accounts, hr, hleads]
    · cases hstep

/-- The history is one of threads that use the object, which has the value `q` at first. -/
def Linearizable (O : Object κ ο ρ) (q : κ) (h : List (ι × Act ο ρ)) : Prop :=
  ∃ es c, (O.threads ι).machine.run (start ι ο ρ q) es = some c ∧
    (O.threads ι).machine.trace seen (start ι ο ρ q) es = h

/-- The operations that take effect in a run could have been carried out one after the other, and
account for what is seen of every thread. -/
theorem run_accounts {es : List (ι × Instant ο ρ)} {c : Threads.Config ι κ (Status ο ρ)}
    (hrun : (O.threads ι).machine.run (start ι ο ρ q) es = some c) :
  O.Leads q (((O.threads ι).machine.trace (taken O) (start ι ο ρ q) es).map Prod.snd) c.shared ∧
    ∀ i, (c.locals i).Accounts
      (calls i ((O.threads ι).machine.trace seen (start ι ο ρ q) es))
      (returns i ((O.threads ι).machine.trace seen (start ι ο ρ q) es))
      (own i ((O.threads ι).machine.trace (taken O) (start ι ο ρ q) es))
  := by
  apply (O.threads ι).machine.run_induction (P := fun es c =>
    O.Leads q (((O.threads ι).machine.trace (taken O) (start ι ο ρ q) es).map Prod.snd)
      c.shared ∧
    ∀ i, (c.locals i).Accounts
      (calls i ((O.threads ι).machine.trace seen (start ι ο ρ q) es))
      (returns i ((O.threads ι).machine.trace seen (start ι ο ρ q) es))
      (own i ((O.threads ι).machine.trace (taken O) (start ι ο ρ q) es))) _ _ hrun
  · constructor
    · rfl
    · intro i
      exact ⟨rfl, rfl⟩
  · rintro es c ⟨i, a⟩ c' hes ⟨hleads, haccounts⟩ hstep
    rw [Machine.trace_append hes, Machine.trace_append hes, Machine.trace_singleton hstep,
      Machine.trace_singleton hstep, List.map_append]
    obtain ⟨q', l', hop, rfl⟩ := (O.threads ι).machine_step_eq_some.mp hstep
    obtain ⟨hleads', hl'⟩ := step_accounts hop hleads (haccounts i)
    constructor
    · exact hleads'
    · intro j
      rw [calls_append, returns_append, own_append]
      rcases Classical.em (j = i) with rfl | hne
      · rw [Threads.Config.set_locals_self]
        exact hl'
      · obtain ⟨hcalls, hreturns, hown⟩ := seen_of_ne (O := O) hne c a
        rw [Threads.Config.set_locals_of_ne c hne]
        change (c.locals j).Accounts (_ ++ calls j (seen c (i, a) c))
          (_ ++ returns j (seen c (i, a) c)) (_ ++ own j (taken O c (i, a) c))
        rw [hcalls, hreturns, hown, List.append_nil, List.append_nil, List.append_nil]
        exact haccounts j

/-- The operations of a linearizable history are in an order in which they could have been carried
out one after the other; and for every beginning of the history there is one of the operations in
this order that has all that have returned by then, and none that has not been called. -/
theorem Linearizable.sequential (hlin : Linearizable O q h) :
  ∃ ops q', O.Leads q (ops.map Prod.snd) q' ∧
    ∀ h', h' <+: h → ∃ ops', ops' <+: ops ∧ ∀ i,
      returns i h' <+: (own i ops').map Prod.snd ∧ (own i ops').map Prod.fst <+: calls i h'
  := by
  obtain ⟨es, c, hrun, rfl⟩ := hlin
  use (O.threads ι).machine.trace (taken O) (start ι ο ρ q) es, c.shared,
    (run_accounts hrun).1
  intro h' hpre
  have hone : ∀ (c : Threads.Config ι κ (Status ο ρ)) (e : ι × Instant ο ρ) c',
      (seen c e c').length ≤ 1 := by
    rintro c ⟨i, a | _⟩ c'
    · exact Nat.le_refl 1
    · exact Nat.zero_le 1
  obtain ⟨fs, ⟨gs, rfl⟩, rfl⟩ := Machine.exists_trace_eq_of_isPrefix hone hpre
  rw [Machine.run_append] at hrun
  obtain ⟨d, hd, -⟩ := Option.bind_eq_some_iff.mp hrun
  use (O.threads ι).machine.trace (taken O) (start ι ο ρ q) fs
  constructor
  · rw [Machine.trace_append hd]
    apply List.prefix_append
  · intro i
    apply ((run_accounts hd).2 i).isPrefix

/-! ### Implementations -/

variable {σ : Type y} {ℓ : Type z} {α : Type z'}

/-- The instants of a thread's call, in a row. -/
theorem run_alone {c : Threads.Config ι κ (Status ο ρ)} (i : ι) {is : List (Instant ο ρ)} {q' : κ}
    {l' : Status ο ρ} (hrun : O.alone.run (c.shared, c.locals i) is = some (q', l')) :
  (O.threads ι).machine.run c (is.map (Prod.mk i)) = some (c.set i q' l') ∧
    (O.threads ι).machine.trace seen c (is.map (Prod.mk i)) =
      (is.flatMap Instant.seen).map (Prod.mk i)
  := by
  induction is generalizing c with
  | nil =>
      obtain ⟨rfl, rfl⟩ := Prod.mk.inj (Option.some.inj hrun)
      rw [Threads.Config.set_self]
      exact ⟨rfl, rfl⟩
  | cons a is ih =>
      obtain ⟨⟨q₁, l₁⟩, hstep, hrest⟩ := Option.bind_eq_some_iff.mp hrun
      have hset : (O.threads ι).machine.step c (i, a) = some (c.set i q₁ l₁) :=
        (O.threads ι).machine_step_eq_some.mpr ⟨q₁, l₁, hstep, rfl⟩
      have hih := ih (c := c.set i q₁ l₁) (by simpa using hrest)
      rw [Threads.Config.set_set] at hih
      constructor
      · rw [List.map_cons, Machine.run_cons, hset]
        exact hih.1
      · rw [List.map_cons, Machine.trace_cons hset, hih.2, List.flatMap_cons, List.map_append]
        rfl

/-- What is seen of a step of threads, of which `obs` says what is seen of a step from one local
state to another. -/
def observe (obs : α → ℓ → ℓ → List (Act ο ρ)) (c : Threads.Config ι σ ℓ) (e : ι × α)
    (c' : Threads.Config ι σ ℓ) : List (ι × Act ο ρ) :=
  (obs e.2 (c.locals e.1) (c'.locals e.1)).map (Prod.mk e.1)

/-- How the steps of threads explain the instants of the calls of an object: an invariant of the
configurations, in which `value` reads off the value of the object and `status` where a thread
stands in its call, such that there are instants of the thread's call for every step. -/
structure Explanation (T : Threads ι σ ℓ α) (O : Object κ ο ρ)
    (obs : α → ℓ → ℓ → List (Act ο ρ)) where
  inv : Threads.Config ι σ ℓ → Prop
  value : σ → κ
  status : σ → ℓ → Status ο ρ
  keeps : ∀ {c e c'}, inv c → T.machine.step c e = some c' → inv c'
  instants : ∀ {c i a s l}, inv c → T.step i a c.shared (c.locals i) = some (s, l) →
    ∃ is, O.alone.run (value c.shared, status c.shared (c.locals i)) is =
        some (value s, status s l) ∧
      is.flatMap Instant.seen = obs a (c.locals i) l
  others : ∀ {c i a s l}, inv c → T.step i a c.shared (c.locals i) = some (s, l) →
    ∀ j, j ≠ i → status s (c.locals j) = status c.shared (c.locals j)

/-- The object as it is read off a configuration. -/
def Explanation.view {T : Threads ι σ ℓ α} {obs : α → ℓ → ℓ → List (Act ο ρ)}
    (E : Explanation T O obs) (c : Threads.Config ι σ ℓ) : Threads.Config ι κ (Status ο ρ) :=
  ⟨E.value c.shared, fun i => E.status c.shared (c.locals i)⟩

/-- The histories of threads whose steps are explained are linearizable. -/
theorem Explanation.linearizable {T : Threads ι σ ℓ α} {obs : α → ℓ → ℓ → List (Act ο ρ)}
    (E : Explanation T O obs) {c c' : Threads.Config ι σ ℓ} {es : List (ι × α)} (hinv : E.inv c)
    (hidle : ∀ i, E.status c.shared (c.locals i) = .idle)
    (hrun : T.machine.run c es = some c') :
  Linearizable O (E.value c.shared) (T.machine.trace (observe obs) c es)
  := by
  have hview : E.view c = start ι ο ρ (E.value c.shared) := by
    rw [Explanation.view, start]
    congr 1
    funext i
    apply hidle
  have hstep : ∀ c e c' t, E.inv c ∧ t = E.view c → T.machine.step c e = some c' →
      ∃ ds t', (O.threads ι).machine.run t ds = some t' ∧
        (O.threads ι).machine.trace seen t ds = observe obs c e c' ∧
        (E.inv c' ∧ t' = E.view c') := by
    rintro c ⟨i, a⟩ c' _ ⟨hinv, rfl⟩ hstep
    have hinv' := E.keeps hinv hstep
    obtain ⟨s, l, hl, rfl⟩ := T.machine_step_eq_some.mp hstep
    obtain ⟨is, his, hseen⟩ := E.instants hinv hl
    obtain ⟨hrun, htrace⟩ := run_alone (c := E.view c) i his
    have hset : (E.view c).set i (E.value s) (E.status s l) = E.view (c.set i s l) := by
      rw [Explanation.view, Explanation.view, Threads.Config.set]
      congr 1
      funext j
      rcases Classical.em (j = i) with rfl | hne
      · rw [Function.update_self, Threads.Config.set_locals_self, Threads.Config.set_shared]
      · rw [Function.update_of_ne hne, Threads.Config.set_locals_of_ne c hne,
          Threads.Config.set_shared, E.others hinv hl j hne]
    rw [hset] at hrun
    refine ⟨_, _, hrun, ?_, hinv', rfl⟩
    rw [htrace, hseen, observe, Threads.Config.set_locals_self]
  obtain ⟨ds, t, hds, htrace, -⟩ := Machine.run_follows hstep ⟨hinv, rfl⟩ hrun
  use ds, t
  rw [← hview]
  exact ⟨hds, htrace⟩

/-- It is enough that the steps of the threads in `G` are explained if all are in `G`. -/
theorem Explanation.linearizable_of_steps {T : Threads ι σ ℓ α}
    {obs : α → ℓ → ℓ → List (Act ο ρ)} {G : ι → α → σ → ℓ → Prop}
    [∀ i a s l, Decidable (G i a s l)] (E : Explanation (T.restrict G) O obs)
    {c c' : Threads.Config ι σ ℓ} {es : List (ι × α)} (hinv : E.inv c)
    (hidle : ∀ i, E.status c.shared (c.locals i) = .idle)
    (hsteps : T.machine.Steps (fun c e => G e.1 e.2 c.shared (c.locals e.1)) c es)
    (hrun : T.machine.run c es = some c') :
  Linearizable O (E.value c.shared) (T.machine.trace (observe obs) c es)
  := by
  have hstep : ∀ (c : Threads.Config ι σ ℓ) (e : ι × α), G e.1 e.2 c.shared (c.locals e.1) →
      (T.restrict G).machine.step c e = T.machine.step c e := by
    intro c e hG
    rw [Threads.machine, Threads.machine, Threads.restrict]
    simp only [if_pos hG]
  obtain ⟨hrun', htrace⟩ := Machine.run_eq_of_steps (observe obs) hstep hsteps
  rw [← htrace]
  apply E.linearizable hinv hidle (hrun'.trans hrun)

end Atomic
