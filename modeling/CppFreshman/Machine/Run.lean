import Mathlib.Data.List.Infix
import Mathlib.Data.Option.Basic

/-!
# Machines and their runs

A `Machine` over states `σ` and events `ε` is a partial step function: an event either leads
from a state to a state or is not possible there.  `M.run s es` is the state the events `es`
lead to from `s`, if every one of them is possible in turn.

`M.Along P s es` says that `P` holds in every state the run of `es` from `s` passes through,
and `M.Steps G s es` that every event of the run is taken in a state with which `G` relates
it.  An invariant kept by every step of a run holds along it (`run_invariant`,
`run_invariant_of_steps`), and `along_iff_steps` gives the exact condition on the steps of a
run for a property to hold along it.
-/

universe u v

/-- A machine over the states `σ` and the events `ε`: `step s e` is the state the event `e`
leads to from `s`, if `e` is possible in `s`. -/
structure Machine (σ : Type u) (ε : Type v) where
  step : σ → ε → Option σ

namespace Machine

variable {σ : Type u} {ε : Type v} (M : Machine σ ε)

/-- The state the events lead to from `s`, if each of them is possible in turn. -/
def run (s : σ) : List ε → Option σ
  | [] => some s
  | e :: es => (M.step s e).bind fun t => run t es

@[simp]
theorem run_nil (s : σ) :
  M.run s [] = some s
  := rfl

@[simp]
theorem run_cons (s : σ) (e : ε) (es : List ε) :
  M.run s (e :: es) = (M.step s e).bind fun t => M.run t es
  := rfl

theorem run_append (s : σ) (es fs : List ε) :
  M.run s (es ++ fs) = (M.run s es).bind fun t => M.run t fs
  := by
  induction es generalizing s with
  | nil => rfl
  | cons e es ih =>
      rw [List.cons_append, run_cons, run_cons, Option.bind_assoc]
      congr 1
      funext t
      apply ih

/-- A run of `es` followed by `e` is a run of `es` and a step by `e` from where it leads. -/
theorem run_concat_eq_some {s u : σ} {es : List ε} {e : ε} :
  M.run s (es ++ [e]) = some u ↔ ∃ t, M.run s es = some t ∧ M.step t e = some u
  := by
  simp [run_append, Option.bind_eq_some_iff]

/-- What holds of the empty run and is kept by appending a step holds of every run. -/
theorem run_induction {s : σ} {P : List ε → σ → Prop} (start : P [] s)
    (next : ∀ es t e u, M.run s es = some t → P es t → M.step t e = some u → P (es ++ [e]) u) :
  ∀ {es : List ε} {t : σ}, M.run s es = some t → P es t
  := by
  intro es
  induction es using List.reverseRecOn with
  | nil =>
      intro t h
      obtain rfl := Option.some.inj h
      apply start
  | append_singleton es e ih =>
      intro u h
      obtain ⟨t, ht, hu⟩ := M.run_concat_eq_some.mp h
      apply next es t e u ht (ih ht) hu

/-- An invariant of every step holds where a run leads if it holds where the run starts. -/
theorem run_invariant {I : σ → Prop} (keeps : ∀ t e u, I t → M.step t e = some u → I u)
    {s t : σ} {es : List ε} (h : M.run s es = some t) (start : I s) :
  I t
  := by
  apply M.run_induction (P := fun _ t => I t) start _ h
  intro _ t e u _ ht hu
  apply keeps t e u ht hu

/-- `P` holds in every state the run of `es` from `s` passes through. -/
def Along (P : σ → Prop) (s : σ) (es : List ε) : Prop :=
  ∀ fs t, fs <+: es → M.run s fs = some t → P t

/-- In the run of `es` from `s` the event `e` is taken after the events `fs`, and leads from `t`
to `u`. -/
structure Takes (s : σ) (es fs : List ε) (e : ε) (t u : σ) : Prop where
  events : fs ++ [e] <+: es
  run : M.run s fs = some t
  step : M.step t e = some u

/-- Every event of the run of `es` from `s` is taken in a state `G` relates it with. -/
def Steps (G : σ → ε → Prop) (s : σ) (es : List ε) : Prop :=
  ∀ fs e t, fs ++ [e] <+: es → M.run s fs = some t → G t e

variable {M}

/-- What lies between two events of a run. -/
theorem Takes.between {s : σ} {es fs gs : List ε} {e e' : ε} {t u v w : σ}
    (h : M.Takes s es fs e t u) (h' : M.Takes s es (fs ++ e :: gs) e' v w) :
  M.run u gs = some v
  := by
  have hrun := h'.run
  rw [run_append, h.run, Option.bind_some, run_cons, h.step] at hrun
  apply hrun

theorem Along.last {P : σ → Prop} {s t : σ} {es : List ε} (h : M.Along P s es)
    (ht : M.run s es = some t) :
  P t
  := by
  apply h es t (List.prefix_refl es) ht

theorem Along.of_isPrefix {P : σ → Prop} {s : σ} {es fs : List ε} (h : M.Along P s es)
    (hfs : fs <+: es) :
  M.Along P s fs
  := by
  intro gs t hgs
  apply h gs t (hgs.trans hfs)

/-- A property holds along a run that begins with `e` if it holds where the run starts and along
the rest of it. -/
theorem Along.cons {P : σ → Prop} {s t : σ} {e : ε} {es : List ε} (hs : P s)
    (ht : M.step s e = some t) (h : M.Along P t es) :
  M.Along P s (e :: es)
  := by
  intro fs u hfs hu
  cases fs with
  | nil =>
      obtain rfl := Option.some.inj hu
      apply hs
  | cons f fs =>
      obtain ⟨rfl, htail⟩ := List.cons_prefix_cons.mp hfs
      rw [run_cons, ht] at hu
      apply h fs u htail hu

theorem Along.append {P : σ → Prop} {s t : σ} {es fs : List ε} (h : M.Along P s es)
    (ht : M.run s es = some t) (h' : M.Along P t fs) :
  M.Along P s (es ++ fs)
  := by
  induction es generalizing s with
  | nil =>
      obtain rfl := Option.some.inj ht
      apply h'
  | cons e es ih =>
      obtain ⟨s', hstep, ht⟩ := Option.bind_eq_some_iff.mp ht
      apply Along.cons (h [] s List.nil_prefix rfl) hstep
      apply ih _ ht
      intro gs u hgs hu
      apply h (e :: gs) u ((List.prefix_cons_inj e).mpr hgs)
      rw [run_cons, hstep]
      apply hu

theorem Steps.of_isPrefix {G : σ → ε → Prop} {s : σ} {es fs : List ε} (h : M.Steps G s es)
    (hfs : fs <+: es) :
  M.Steps G s fs
  := by
  intro gs e t hgs
  apply h gs e t (hgs.trans hfs)

theorem steps_nil (G : σ → ε → Prop) (s : σ) :
  M.Steps G s []
  := by
  intro fs e t h
  simp at h

/-- The steps of a run that begins with `e` are `e` and those of the rest of the run. -/
theorem steps_cons {G : σ → ε → Prop} {s : σ} {e : ε} {es : List ε} :
  M.Steps G s (e :: es) ↔ G s e ∧ ∀ t, M.step s e = some t → M.Steps G t es
  := by
  constructor
  · intro h
    constructor
    · apply h [] e s (List.prefix_append [e] es) rfl
    · intro t ht fs f u hfs hu
      apply h (e :: fs) f u ((List.prefix_cons_inj e).mpr hfs)
      rw [run_cons, ht]
      apply hu
  · rintro ⟨he, h⟩ fs f u hfs hu
    cases fs with
    | nil =>
        obtain rfl := Option.some.inj hu
        obtain ⟨rfl, -⟩ := List.cons_prefix_cons.mp hfs
        apply he
    | cons e' fs =>
        obtain ⟨rfl, htail⟩ := List.cons_prefix_cons.mp hfs
        obtain ⟨t, ht, hu⟩ := Option.bind_eq_some_iff.mp hu
        apply h t ht fs f u htail hu

instance decidableSteps {G : σ → ε → Prop} [∀ s e, Decidable (G s e)] :
    ∀ (s : σ) (es : List ε), Decidable (M.Steps G s es)
  | s, [] => isTrue (steps_nil G s)
  | s, e :: es =>
      match h : M.step s e with
      | none => decidable_of_iff (G s e) (by simp [steps_cons, h])
      | some t =>
          have := decidableSteps (G := G) t es
          decidable_of_iff (G s e ∧ M.Steps G t es) (by simp [steps_cons, h])

/-- The steps of a run followed by `e` are those of the run and `e`. -/
theorem Steps.concat {G : σ → ε → Prop} {s t : σ} {es : List ε} {e : ε} (h : M.Steps G s es)
    (ht : M.run s es = some t) (he : G t e) :
  M.Steps G s (es ++ [e])
  := by
  intro fs f t' hfs ht'
  rcases List.prefix_concat_iff.mp hfs with heq | hpre
  · obtain ⟨rfl, hf⟩ := List.append_inj' heq rfl
    obtain rfl := List.singleton_inj.mp hf
    obtain rfl := Option.some.inj (ht.symm.trans ht')
    apply he
  · apply h fs f t' hpre ht'

theorem steps_concat_iff {G : σ → ε → Prop} {s t : σ} {es : List ε} {e : ε}
    (ht : M.run s es = some t) :
  M.Steps G s (es ++ [e]) ↔ M.Steps G s es ∧ G t e
  := by
  constructor
  · intro h
    exact ⟨h.of_isPrefix (List.prefix_append es [e]), h es e t (List.prefix_refl _) ht⟩
  · rintro ⟨h, he⟩
    apply h.concat ht he

/-- Conditions that agree on the steps that can be reached hold of the same runs. -/
theorem steps_congr {G G' : σ → ε → Prop} {s : σ} {es : List ε}
    (h : ∀ fs t e, M.run s fs = some t → (G t e ↔ G' t e)) :
  M.Steps G s es ↔ M.Steps G' s es
  := by
  constructor
  · intro hG fs e t hfs ht
    apply (h fs t e ht).mp (hG fs e t hfs ht)
  · intro hG fs e t hfs ht
    apply (h fs t e ht).mpr (hG fs e t hfs ht)

/-- An invariant kept by the steps of a run holds along the run. -/
theorem run_invariant_of_steps {I : σ → Prop} {G : σ → ε → Prop}
    (keeps : ∀ t e u, I t → G t e → M.step t e = some u → I u) {s : σ} {es : List ε}
    (h : M.Steps G s es) (start : I s) :
  M.Along I s es
  := by
  intro fs t hfs ht
  have key : ∀ {gs : List ε} {u : σ}, M.run s gs = some u → gs <+: es → I u := by
    intro gs u
    apply M.run_induction (P := fun gs u => gs <+: es → I u) (fun _ => start)
    intro gs t e u hgs ih hu hpre
    apply keeps t e u (ih ((List.prefix_append gs [e]).trans hpre)) (h gs e t hpre hgs) hu
  apply key ht hfs

/-- If the steps in `G` can be taken from the invariant and keep it, a run of such steps gets to its
end. -/
theorem run_progress {I : σ → Prop} {G : σ → ε → Prop}
    (takes : ∀ t e, I t → G t e → ∃ u, M.step t e = some u ∧ I u) {s : σ} {es : List ε}
    (h : M.Steps G s es) (start : I s) :
  ∃ t, M.run s es = some t ∧ I t
  := by
  induction es generalizing s with
  | nil => exact ⟨s, rfl, start⟩
  | cons e es ih =>
      obtain ⟨he, hes⟩ := steps_cons.mp h
      obtain ⟨t, ht, hI⟩ := takes s e start he
      rw [run_cons, ht]
      apply ih (hes t ht) hI

/-- If the steps in `G` keep an invariant that implies `P`, and every other step from the
invariant leads to a state without `P`, then `P` holds along exactly the runs whose steps are
all in `G`. -/
theorem along_iff_steps {I P : σ → Prop} {G : σ → ε → Prop} (implies : ∀ t, I t → P t)
    (keeps : ∀ t e u, I t → G t e → M.step t e = some u → I u)
    (breaks : ∀ t e u, I t → ¬ G t e → M.step t e = some u → ¬ P u)
    {s t : σ} {es : List ε} (h : M.run s es = some t) (start : I s) :
  M.Along P s es ↔ M.Steps G s es
  := by
  constructor
  · intro hP
    revert hP
    apply M.run_induction (P := fun es _ => M.Along P s es → M.Steps G s es) _ _ h
    · intro _
      apply steps_nil
    · intro es t e u hes ih hu hP
      have hG := ih (hP.of_isPrefix (List.prefix_append es [e]))
      have hI := (run_invariant_of_steps keeps hG start).last hes
      apply hG.concat hes
      by_contra he
      apply breaks t e u hI he hu
      apply hP.last (M.run_concat_eq_some.mpr ⟨t, hes, hu⟩)
  · intro hG fs u hfs hu
    apply implies u
    apply run_invariant_of_steps keeps hG start fs u hfs hu

end Machine
