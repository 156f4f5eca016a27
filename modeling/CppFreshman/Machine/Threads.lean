import CppFreshman.Machine.Run
import Mathlib.Logic.Function.Basic

/-!
# Threads over a shared state

`Threads ι σ ℓ α` are threads named by `ι`, each with a local state in `ℓ`, that take atomic
steps on a shared state in `σ`; `α` are the choices a step leaves open.  `T.machine` is the
machine of all interleavings of their steps.

An `Outline` is a proof outline for such threads: an assertion about the shared state, an
assertion about the shared state and the local state of one thread, and one about the local
states of two different threads.  It asks that a step keeps what is said of the thread that
takes it (`step`) and of every other one (`free`).  What an outline asserts is an invariant of
all interleavings (`Outline.holds_of_run`).

An outline of the threads restricted to the steps with a property `G` holds along the
interleavings whose steps all have it (`Outline.along_of_steps`).
-/

universe u v w x

/-- Threads named by `ι` with local states in `ℓ` over a shared state in `σ`: what the
thread's next atomic step does, if it is possible with the given choice. -/
structure Threads (ι : Type u) (σ : Type v) (ℓ : Type w) (α : Type x) where
  step : ι → α → σ → ℓ → Option (σ × ℓ)

namespace Threads

/-- The shared state together with the local state of every thread. -/
structure Config (ι : Type u) (σ : Type v) (ℓ : Type w) where
  shared : σ
  locals : ι → ℓ

variable {ι : Type u} {σ : Type v} {ℓ : Type w} {α : Type x} [DecidableEq ι]
  (T : Threads ι σ ℓ α)

/-- The configuration after thread `i` has changed the shared state to `s` and its own local
state to `l`. -/
def Config.set (c : Config ι σ ℓ) (i : ι) (s : σ) (l : ℓ) : Config ι σ ℓ :=
  ⟨s, Function.update c.locals i l⟩

@[simp]
theorem Config.set_shared (c : Config ι σ ℓ) (i : ι) (s : σ) (l : ℓ) :
  (c.set i s l).shared = s
  := rfl

@[simp]
theorem Config.set_locals_self (c : Config ι σ ℓ) (i : ι) (s : σ) (l : ℓ) :
  (c.set i s l).locals i = l
  := by
  apply Function.update_self

@[simp]
theorem Config.set_locals_of_ne (c : Config ι σ ℓ) {i j : ι} (h : j ≠ i) (s : σ) (l : ℓ) :
  (c.set i s l).locals j = c.locals j
  := by
  apply Function.update_of_ne h

/-- The machine whose events are the steps of the threads, in any order. -/
def machine : Machine (Config ι σ ℓ) (ι × α) where
  step c e := (T.step e.1 e.2 c.shared (c.locals e.1)).map fun r => c.set e.1 r.1 r.2

/-- A step of the machine is a step of one thread, which changes the shared state and the
local state of that thread only. -/
theorem machine_step_eq_some {c c' : Config ι σ ℓ} {i : ι} {a : α} :
  T.machine.step c (i, a) = some c' ↔
    ∃ s l, T.step i a c.shared (c.locals i) = some (s, l) ∧ c' = c.set i s l
  := by
  simp only [machine, Option.map_eq_some_iff, Prod.exists]
  constructor
  · rintro ⟨s, l, h, rfl⟩
    use s, l
  · rintro ⟨s, l, h, rfl⟩
    use s, l

variable {T} in
/-- A thread stays where it is while only others take steps. -/
theorem locals_of_run {c c' : Config ι σ ℓ} {i : ι} {es : List (ι × α)}
    (h : T.machine.run c es = some c') (hes : ∀ e, e ∈ es → e.1 ≠ i) :
  c'.locals i = c.locals i
  := by
  induction es generalizing c with
  | nil =>
      obtain rfl := Option.some.inj h
      rfl
  | cons e es ih =>
      obtain ⟨d, hstep, h⟩ := Option.bind_eq_some_iff.mp h
      obtain ⟨s, l, -, rfl⟩ := T.machine_step_eq_some.mp hstep
      rw [ih h fun e' he' => hes e' (List.mem_cons_of_mem e he')]
      apply Config.set_locals_of_ne c (hes e List.mem_cons_self).symm

/-- A proof outline: assertions about the shared state, about each thread and about each
two threads, kept by every step. -/
structure Outline where
  shared : σ → Prop
  own : ι → σ → ℓ → Prop
  apart : ℓ → ℓ → Prop
  symm : ∀ {l k}, apart l k → apart k l
  step : ∀ {i a s l s' l'}, shared s → own i s l → T.step i a s l = some (s', l') →
    shared s' ∧ own i s' l'
  free : ∀ {i a s l s' l' j k}, shared s → own i s l → T.step i a s l = some (s', l') →
    i ≠ j → own j s k → apart l k → own j s' k ∧ apart l' k

variable {T}

/-- What the outline asserts of a shared state and the local states of all threads. -/
structure Outline.Holds (O : Outline T) (c : Config ι σ ℓ) : Prop where
  shared : O.shared c.shared
  own : ∀ i, O.own i c.shared (c.locals i)
  apart : ∀ i j, i ≠ j → O.apart (c.locals i) (c.locals j)

/-- What an outline asserts is kept by the step of any thread. -/
theorem Outline.holds_step (O : Outline T) {c c' : Config ι σ ℓ} {e : ι × α} (h : O.Holds c)
    (hstep : T.machine.step c e = some c') :
  O.Holds c'
  := by
  obtain ⟨i, a⟩ := e
  obtain ⟨s, l, hl, rfl⟩ := T.machine_step_eq_some.mp hstep
  have hown := O.step h.shared (h.own i) hl
  have hfree : ∀ j, i ≠ j → O.own j s (c.locals j) ∧ O.apart l (c.locals j) :=
    fun j hij => O.free h.shared (h.own i) hl hij (h.own j) (h.apart i j hij)
  constructor
  · apply hown.1
  · intro j
    by_cases hij : j = i
    · subst hij
      simpa using hown.2
    · simpa [hij] using (hfree j (Ne.symm hij)).1
  · intro j k hjk
    by_cases hij : j = i
    · subst hij
      simpa [hjk.symm] using (hfree k hjk).2
    · by_cases hik : k = i
      · subst hik
        simpa [hij] using O.symm (hfree j hjk.symm).2
      · simpa [hij, hik] using h.apart j k hjk

/-- What an outline asserts holds wherever an interleaving leads, if it holds at its start. -/
theorem Outline.holds_of_run (O : Outline T) {c c' : Config ι σ ℓ} {es : List (ι × α)}
    (h : T.machine.run c es = some c') (start : O.Holds c) :
  O.Holds c'
  := by
  apply T.machine.run_invariant (fun _ _ _ => O.holds_step) h start

/-- The threads whose steps are possible only where `G` relates the thread, the choice, the
shared and the local state. -/
def restrict (T : Threads ι σ ℓ α) (G : ι → α → σ → ℓ → Prop)
    [∀ i a s l, Decidable (G i a s l)] : Threads ι σ ℓ α where
  step i a s l := if G i a s l then T.step i a s l else none

/-- What an outline of the restricted threads asserts holds along every interleaving whose steps
are all in `G`. -/
theorem Outline.along_of_steps {G : ι → α → σ → ℓ → Prop} [∀ i a s l, Decidable (G i a s l)]
    (O : Outline (T.restrict G)) {c : Config ι σ ℓ} {es : List (ι × α)} (start : O.Holds c)
    (h : T.machine.Steps (fun c e => G e.1 e.2 c.shared (c.locals e.1)) c es) :
  T.machine.Along O.Holds c es
  := by
  apply T.machine.run_invariant_of_steps _ h start
  rintro c ⟨i, a⟩ c' hO hG hstep
  obtain ⟨s, l, hl, rfl⟩ := T.machine_step_eq_some.mp hstep
  apply O.holds_step hO (e := (i, a))
  apply (T.restrict G).machine_step_eq_some.mpr
  use s, l
  constructor
  · simp only [restrict]
    rw [if_pos hG, hl]
  · rfl

end Threads
