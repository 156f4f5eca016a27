import CppFreshman.Machine.Run

/-!
# What is seen of a run

`M.trace obs s es` is what an observer `obs` of the steps of a machine sees of the run of `es`
from `s`.

A machine whose every step is followed by a run of another one that looks the same has only
traces of the other one (`run_follows`); a function from states to states that says where the
other machine is makes for the simplest of these simulations.
-/

universe u v w x y

namespace Machine

variable {σ : Type u} {ε : Type v} {ω : Type w} (M : Machine σ ε) (obs : σ → ε → σ → List ω)

/-- What `obs` sees of the run of the events from `s`, as far as they are possible. -/
def trace (s : σ) : List ε → List ω
  | [] => []
  | e :: es =>
      match M.step s e with
      | none => []
      | some t => obs s e t ++ trace t es

@[simp]
theorem trace_nil (s : σ) :
  M.trace obs s [] = []
  := rfl

variable {M obs}

theorem trace_cons {s t : σ} {e : ε} (h : M.step s e = some t) (es : List ε) :
  M.trace obs s (e :: es) = obs s e t ++ M.trace obs t es
  := by
  rw [trace, h]

theorem trace_append {s t : σ} {es : List ε} (h : M.run s es = some t) (fs : List ε) :
  M.trace obs s (es ++ fs) = M.trace obs s es ++ M.trace obs t fs
  := by
  induction es generalizing s with
  | nil =>
      obtain rfl := Option.some.inj h
      rfl
  | cons e es ih =>
      obtain ⟨s', hstep, h⟩ := Option.bind_eq_some_iff.mp h
      rw [List.cons_append, trace_cons hstep, trace_cons hstep, ih h, List.append_assoc]

theorem trace_singleton {s t : σ} {e : ε} (h : M.step s e = some t) :
  M.trace obs s [e] = obs s e t
  := by
  rw [trace_cons h, trace_nil, List.append_nil]

/-- If no step is seen more than once, the beginnings of a trace are traces of the beginnings of
the run. -/
theorem exists_trace_eq_of_isPrefix {s : σ} {es : List ε} {h : List ω}
    (hone : ∀ s e t, (obs s e t).length ≤ 1) (hpre : h <+: M.trace obs s es) :
  ∃ fs, fs <+: es ∧ M.trace obs s fs = h
  := by
  induction es generalizing s h with
  | nil =>
      obtain rfl := List.prefix_nil.mp hpre
      use []
      exact ⟨List.prefix_refl [], rfl⟩
  | cons e es ih =>
      rcases hstep : M.step s e with _ | t
      · rw [trace, hstep] at hpre
        obtain rfl := List.prefix_nil.mp hpre
        use []
        exact ⟨List.nil_prefix, rfl⟩
      · rw [trace_cons hstep] at hpre
        rcases hobs : obs s e t with _ | ⟨a, as⟩
        · rw [hobs, List.nil_append] at hpre
          obtain ⟨fs, hfs, rfl⟩ := ih hpre
          use e :: fs, (List.prefix_cons_inj e).mpr hfs
          rw [trace_cons hstep, hobs, List.nil_append]
        · have hlen := hone s e t
          rw [hobs] at hlen
          have hnil : as.length = 0 := Nat.le_zero.mp (Nat.le_of_succ_le_succ hlen)
          obtain rfl := List.length_eq_zero_iff.mp hnil
          cases h with
          | nil =>
              use []
              exact ⟨List.nil_prefix, rfl⟩
          | cons b h =>
              rw [hobs] at hpre
              obtain ⟨rfl, htail⟩ := List.cons_prefix_cons.mp hpre
              obtain ⟨fs, hfs, rfl⟩ := ih htail
              use e :: fs, (List.prefix_cons_inj e).mpr hfs
              rw [trace_cons hstep, hobs]
              rfl

/-- A machine with the steps of another one that are in `G` runs as that does where all steps are
in `G`, and the runs look the same. -/
theorem run_eq_of_steps (see : σ → ε → σ → List ω) {N : Machine σ ε} {G : σ → ε → Prop}
    (hstep : ∀ s e, G s e → N.step s e = M.step s e) {s : σ} {es : List ε}
    (h : M.Steps G s es) :
  N.run s es = M.run s es ∧ N.trace see s es = M.trace see s es
  := by
  induction es generalizing s with
  | nil => exact ⟨rfl, rfl⟩
  | cons e es ih =>
      obtain ⟨he, hrest⟩ := steps_cons.mp h
      have heq := hstep s e he
      rcases ht : M.step s e with _ | t
      · rw [ht] at heq
        rw [run_cons, run_cons, heq, ht, trace, trace, heq, ht]
        exact ⟨rfl, rfl⟩
      · obtain ⟨hrun, htrace⟩ := ih (hrest t ht)
        rw [ht] at heq
        rw [run_cons, run_cons, heq, ht, trace_cons heq, trace_cons ht, htrace]
        exact ⟨hrun, rfl⟩

section Simulation

variable {τ : Type x} {δ : Type y} {N : Machine τ δ} {obs' : τ → δ → τ → List ω}

/-- If from related states every step of `M` is followed by a run of `N` that looks the same and
leads to related states, then so is every run of `M`. -/
theorem run_follows {R : σ → τ → Prop}
    (step : ∀ s e s' t, R s t → M.step s e = some s' →
      ∃ ds t', N.run t ds = some t' ∧ N.trace obs' t ds = obs s e s' ∧ R s' t')
    {s s' : σ} {t : τ} {es : List ε} (hR : R s t) (h : M.run s es = some s') :
  ∃ ds t', N.run t ds = some t' ∧ N.trace obs' t ds = M.trace obs s es ∧ R s' t'
  := by
  induction es generalizing s t with
  | nil =>
      obtain rfl := Option.some.inj h
      use [], t, rfl, rfl
  | cons e es ih =>
      obtain ⟨s₁, hstep, h⟩ := Option.bind_eq_some_iff.mp h
      obtain ⟨ds, t₁, hds, htrace, hR₁⟩ := step s e s₁ t hR hstep
      obtain ⟨ds', t', hds', htrace', hR'⟩ := ih hR₁ h
      use ds ++ ds', t'
      refine ⟨?_, ?_, hR'⟩
      · rw [run_append, hds]
        exact hds'
      · rw [trace_append hds, trace_cons hstep, htrace, htrace']

end Simulation

end Machine
