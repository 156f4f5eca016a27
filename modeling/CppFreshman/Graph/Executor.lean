import CppFreshman.Machine.Threads

/-!
# The executor of the graphs

`BthreadGraphExecutor::run` hands what it is given, a vertex with its closure or the context of a
closure with a callback, to a new bthread: it moves it into a parameter on the heap and starts the
bthread with the pointer.  From then on the parameter is the bthread's, which runs what it holds
and deletes it, be it before `run` has returned or after.  If the bthread cannot be started, `run`
deletes the parameter and returns `-1`; a closure of a vertex, which was moved into the parameter,
it moves back before, while a context and a callback, of which the parameter has the pointers, have
been with the caller all along.

The parameters are numbered in the order in which they are built, and a bthread has the number of
the one that it is started with.  Whether `bthread_start_background` succeeds is a choice.  A step
that goes through a pointer to a parameter that is deleted has no defined behaviour: the thread has
crashed.  What a parameter still holds when it is deleted is lost.

Whatever the interleaving, what is accepted runs exactly once, what is refused is handed back, and
no parameter is leaked or deleted twice (`runs_exactly_once`).
-/

namespace BthreadGraphExecutor

/-- A parameter: what is on the heap, where what it holds is `none` once that was moved from it or
is with another, whether a bthread was started with it, and, as histories that no step reads, what ran
from it, what its caller has back, what was lost with it, and how often it was deleted. -/
structure Param (τ : Type*) where
  held : Option (Option τ)
  started : Bool
  executed : List τ
  refused : List τ
  lost : List τ
  deleted : ℕ

/-- What the calls of `run` were given, in order, and their parameters. -/
structure State (τ : Type*) where
  given : List τ
  params : ℕ → Param τ

/-- A call of `run(vertex, closure)` or `run(closure, callback)`, or whether
`bthread_start_background` succeeds. -/
inductive Choice (τ : Type*) where
  | runVertex (task : τ)
  | runClosure (task : τ)
  | start (ok : Bool)

/-- Where a thread stands: a caller before its first call of `run`, before the start of the
bthread, before it takes back what it gave, before it deletes the parameter, or after a call, with
what it returned; a bthread before it runs what it was given, before it deletes its parameter, or
at its end; or it has crashed. -/
inductive Pc where
  | idle
  | startingVertex (p : ℕ)
  | startingClosure (p : ℕ)
  | reclaiming (p : ℕ)
  | deleting (p : ℕ)
  | returned (p : ℕ) (result : ℤ)
  | entered
  | ran
  | exited
  | crashed
  deriving DecidableEq

variable {τ ι : Type*}

namespace Param

/-- What is not on the heap yet. -/
def unused : Param τ :=
  ⟨none, false, [], [], [], 0⟩

/-- `new ::std::tuple(task)`. -/
def new (task : τ) : Param τ :=
  { unused with held := some (some task) }

/-- `bthread_start_background` where it succeeds. -/
def start (c : Param τ) : Param τ :=
  { c with started := true }

/-- What it holds is moved back into the closure of the caller. -/
def reclaim (c : Param τ) (task : τ) : Param τ :=
  { c with held := some none, refused := c.refused ++ [task] }

/-- `bthread_start_background` where it fails, of a parameter with pointers: what they lead to stays
with the caller. -/
def keep (c : Param τ) : Param τ :=
  { c with held := c.held.map fun _ => none, refused := c.refused ++ c.held.join.toList }

/-- What it holds is moved into `vertex->run`, or run as a callback. -/
def execute (c : Param τ) (task : τ) : Param τ :=
  { c with held := some none, executed := c.executed ++ [task] }

/-- `delete param`, where it holds `held`. -/
def delete (c : Param τ) (held : Option τ) : Param τ :=
  { c with held := none, lost := c.lost ++ held.toList, deleted := c.deleted + 1 }

end Param

namespace State

/-- The state with another parameter. -/
def set (s : State τ) (p : ℕ) (c : Param τ) : State τ :=
  { s with params := Function.update s.params p c }

/-- A call of `run` that has built its parameter. -/
def give (s : State τ) (task : τ) : State τ :=
  { given := s.given ++ [task]
    params := Function.update s.params s.given.length (.new task) }

/-- A step that moves what a parameter holds. -/
def moving (s : State τ) (p : ℕ) (move : Param τ → τ → Param τ) (pc : Pc) : State τ × Pc :=
  match (s.params p).held with
  | some (some task) => (s.set p (move (s.params p) task), pc)
  | some none => (s, .crashed)
  | none => (s, .crashed)

/-- A step that deletes a parameter. -/
def deleting (s : State τ) (p : ℕ) (pc : Pc) : State τ × Pc :=
  match (s.params p).held with
  | some held => (s.set p ((s.params p).delete held), pc)
  | none => (s, .crashed)

end State

/-- `run(vertex, closure)`. -/
def runVertex (s : State τ) : Pc → Choice τ → Option (State τ × Pc)
  | .idle, .runVertex task => some (s.give task, .startingVertex s.given.length)
  | .returned _ _, .runVertex task => some (s.give task, .startingVertex s.given.length)
  | .startingVertex p, .start true => some (s.set p (s.params p).start, .returned p 0)
  | .startingVertex p, .start false => some (s, .reclaiming p)
  | .reclaiming p, _ => some (s.moving p .reclaim (.deleting p))
  | .deleting p, _ => some (s.deleting p (.returned p (-1)))
  | _, _ => none

/-- `run(closure, callback)`. -/
def runClosure (s : State τ) : Pc → Choice τ → Option (State τ × Pc)
  | .idle, .runClosure task => some (s.give task, .startingClosure s.given.length)
  | .returned _ _, .runClosure task => some (s.give task, .startingClosure s.given.length)
  | .startingClosure p, .start true => some (s.set p (s.params p).start, .returned p 0)
  | .startingClosure p, .start false => some (s.set p (s.params p).keep, .deleting p)
  | .deleting p, _ => some (s.deleting p (.returned p (-1)))
  | _, _ => none

/-- `execute_invoke_vertex(args)` and `execute_invoke_closure(args)`, once the bthread is
started. -/
def executeInvoke (p : ℕ) (s : State τ) : Pc → Option (State τ × Pc)
  | .idle => if (s.params p).started then some (s, .entered) else none
  | .entered => some (s.moving p .execute .ran)
  | .ran => some (s.deleting p .exited)
  | _ => none

/-- The callers and the bthreads. -/
def threads (τ ι : Type*) : Threads (ι ⊕ ℕ) (State τ) Pc (Choice τ) where
  step
    | .inl _, choice, s, l => (runVertex s l choice).or (runClosure s l choice)
    | .inr p, _, s, l => executeInvoke p s l

/-- Nothing on the heap, and no thread in a call. -/
def start (τ ι : Type*) : Threads.Config (ι ⊕ ℕ) (State τ) Pc where
  shared := ⟨[], fun _ => .unused⟩
  locals _ := .idle

/-! ### The life of a parameter -/

/-- What a parameter built with `task` can be: built, started, run, deleted after that, moved back
from, or deleted after that. -/
inductive Phase (task : τ) : Param τ → Prop
  | new : Phase task (.new task)
  | started : Phase task (Param.new task).start
  | executed : Phase task ((Param.new task).start.execute task)
  | exited : Phase task (((Param.new task).start.execute task).delete none)
  | reclaimed : Phase task ((Param.new task).reclaim task)
  | refused : Phase task (((Param.new task).reclaim task).delete none)

/-- Every parameter that was built is in one of these phases. -/
def Sound (s : State τ) : Prop :=
  ∀ p, match s.given[p]? with
    | some task => Phase task (s.params p)
    | none => s.params p = .unused

/-- The parameter was built with some task, and is `c` of it. -/
def State.Is (s : State τ) (p : ℕ) (c : τ → Param τ) : Prop :=
  ∃ task, s.given[p]? = some task ∧ s.params p = c task

/-- What a caller may rely on where it stands. -/
def Pc.Calls (s : State τ) : Pc → Prop
  | .idle => True
  | .startingVertex p => s.Is p .new
  | .startingClosure p => s.Is p .new
  | .reclaiming p => s.Is p .new
  | .deleting p => s.Is p fun task => (Param.new task).reclaim task
  | .returned p result => result = 0 ∧ (s.params p).started = true ∨
      result = -1 ∧ s.Is p fun task => ((Param.new task).reclaim task).delete none
  | _ => False

/-- What the bthread with the number `p` may rely on where it stands. -/
def Pc.Runs (p : ℕ) (s : State τ) : Pc → Prop
  | .idle => (s.params p).started = true → s.Is p fun task => (Param.new task).start
  | .entered => s.Is p fun task => (Param.new task).start
  | .ran => s.Is p fun task => (Param.new task).start.execute task
  | .exited => s.Is p fun task => ((Param.new task).start.execute task).delete none
  | _ => False

/-- The parameter that a caller has built and not handed over. -/
def Pc.owned : Pc → Option ℕ
  | .startingVertex p => some p
  | .startingClosure p => some p
  | .reclaiming p => some p
  | .deleting p => some p
  | _ => none

variable {s : State τ} {p q : ℕ} {task : τ} {c : Param τ}

@[simp]
theorem State.set_params_self (s : State τ) (p : ℕ) (c : Param τ) :
  (s.set p c).params p = c
  := by
  apply Function.update_self

@[simp]
theorem State.set_params_of_ne (s : State τ) (c : Param τ) (h : q ≠ p) :
  (s.set p c).params q = s.params q
  := by
  apply Function.update_of_ne h

@[simp]
theorem State.give_params_self (s : State τ) (task : τ) :
  (s.give task).params s.given.length = .new task
  := by
  apply Function.update_self

@[simp]
theorem State.give_params_of_ne (s : State τ) (task : τ) (h : q ≠ s.given.length) :
  (s.give task).params q = s.params q
  := by
  apply Function.update_of_ne h

/-- The parameter was built, and is neither handed over to a bthread nor deleted. -/
def State.Waits (s : State τ) (p : ℕ) : Prop :=
  p < s.given.length ∧ (s.params p).started = false ∧ (s.params p).deleted = 0

/-! ### What a step does to a parameter -/

theorem Sound.phase (h : Sound s) (hp : s.given[p]? = some task) :
  Phase task (s.params p)
  := by
  have hphase := h p
  rw [hp] at hphase
  apply hphase

/-- What was not given to a call has no parameter. -/
theorem Sound.unused (h : Sound s) (hp : s.given[p]? = none) :
  s.params p = .unused
  := by
  have hphase := h p
  rw [hp] at hphase
  apply hphase

theorem Sound.set (h : Sound s) (hp : s.given[p]? = some task) (hc : Phase task c) :
  Sound (s.set p c)
  := by
  intro r
  rcases Classical.em (r = p) with rfl | hne
  · simp only [State.set, Function.update_self, hp]
    apply hc
  · simp only [State.set, Function.update_of_ne hne]
    apply h r

theorem Sound.give (h : Sound s) (task : τ) :
  Sound (s.give task)
  := by
  intro r
  rcases Nat.lt_trichotomy r s.given.length with hlt | rfl | hgt
  · simp only [State.give, List.getElem?_append_left hlt, Function.update_of_ne hlt.ne]
    apply h r
  · simp only [State.give, Function.update_self, List.getElem?_concat_length]
    apply Phase.new
  · have hnone : (s.given ++ [task])[r]? = none := by
      apply List.getElem?_eq_none
      rw [List.length_append]
      apply hgt
    have hunused := h.unused (List.getElem?_eq_none hgt.le)
    simp only [State.give, hnone, Function.update_of_ne hgt.ne']
    apply hunused

theorem State.Is.lt {f : τ → Param τ} (h : s.Is p f) :
  p < s.given.length
  := by
  obtain ⟨t, hp, -⟩ := h
  apply (List.getElem?_eq_some_iff.mp hp).1

theorem State.Is.set {f : τ → Param τ} (h : s.Is q f) (hne : q ≠ p) :
  (s.set p c).Is q f
  := by
  obtain ⟨t, hq, hf⟩ := h
  use t, hq
  rw [State.set_params_of_ne s c hne, hf]

theorem State.Is.give {f : τ → Param τ} (h : s.Is q f) (task : τ) :
  (s.give task).Is q f
  := by
  have hlt := h.lt
  obtain ⟨t, hq, hf⟩ := h
  use t
  constructor
  · rw [State.give, List.getElem?_append_left hlt, hq]
  · rw [State.give_params_of_ne s task hlt.ne, hf]

/-- The parameter that is set. -/
theorem State.is_set {f : τ → Param τ} (hp : s.given[p]? = some task) :
  (s.set p (f task)).Is p f
  := by
  use task, hp
  apply State.set_params_self

theorem State.is_give (s : State τ) (task : τ) :
  (s.give task).Is s.given.length .new
  := by
  use task
  constructor
  · apply List.getElem?_concat_length
  · apply State.give_params_self

/-! ### What a step leaves to the other threads -/

/-- What a caller relies on is left alone by what is done to a parameter that it does not own, if
that was not handed back and stays started if it is. -/
theorem Pc.Calls.set {k : Pc} (hk : k.Calls s) (howned : k.owned ≠ some p)
    (hstarted : (s.params p).started = true → c.started = true)
    (hback : ∀ t, s.params p ≠ ((Param.new t).reclaim t).delete none) :
  k.Calls (s.set p c)
  := by
  cases k with
  | startingVertex q =>
      have hne : q ≠ p := fun h => howned (congrArg some h)
      apply State.Is.set hk hne
  | startingClosure q =>
      have hne : q ≠ p := fun h => howned (congrArg some h)
      apply State.Is.set hk hne
  | reclaiming q =>
      have hne : q ≠ p := fun h => howned (congrArg some h)
      apply State.Is.set hk hne
  | deleting q =>
      have hne : q ≠ p := fun h => howned (congrArg some h)
      apply State.Is.set hk hne
  | returned q result =>
      rcases hk with ⟨hzero, hq⟩ | ⟨hone, hq⟩
      · left
        use hzero
        rcases Classical.em (q = p) with rfl | hne
        · rw [State.set_params_self]
          apply hstarted hq
        · rw [State.set_params_of_ne s c hne]
          apply hq
      · right
        use hone
        rcases Classical.em (q = p) with rfl | hne
        · obtain ⟨t, -, ht⟩ := hq
          apply absurd ht (hback t)
        · apply hq.set hne
  | _ => apply hk

/-- What a bthread relies on is left alone by what is done to the parameter of another one. -/
theorem Pc.Runs.set {k : Pc} (hk : k.Runs q s) (hne : q ≠ p) :
  k.Runs q (s.set p c)
  := by
  cases k with
  | idle =>
      intro hstarted
      rw [State.set_params_of_ne s c hne] at hstarted
      apply (hk hstarted).set hne
  | entered => apply State.Is.set hk hne
  | ran => apply State.Is.set hk hne
  | exited => apply State.Is.set hk hne
  | _ => apply hk

/-- A bthread that was not started is at its beginning. -/
theorem Pc.Runs.idle {k : Pc} (hk : k.Runs p s) (hstarted : (s.params p).started = false) :
  k = .idle
  := by
  cases k with
  | idle => rfl
  | entered =>
      obtain ⟨t, -, ht⟩ := hk
      rw [ht] at hstarted
      cases hstarted
  | ran =>
      obtain ⟨t, -, ht⟩ := hk
      rw [ht] at hstarted
      cases hstarted
  | exited =>
      obtain ⟨t, -, ht⟩ := hk
      rw [ht] at hstarted
      cases hstarted
  | _ => cases hk

theorem Pc.Calls.give {k : Pc} (h : Sound s) (hk : k.Calls s) (task : τ) :
  k.Calls (s.give task)
  := by
  cases k with
  | startingVertex q => apply State.Is.give hk task
  | startingClosure q => apply State.Is.give hk task
  | reclaiming q => apply State.Is.give hk task
  | deleting q => apply State.Is.give hk task
  | returned q result =>
      rcases hk with ⟨hzero, hq⟩ | ⟨hone, hq⟩
      · left
        use hzero
        rcases Classical.em (q = s.given.length) with rfl | hne
        · rw [h.unused (List.getElem?_eq_none (Nat.le_refl _))] at hq
          cases hq
        · rw [State.give_params_of_ne s task hne]
          apply hq
      · exact Or.inr ⟨hone, hq.give task⟩
  | _ => apply hk

theorem Pc.Runs.give {k : Pc} (hk : k.Runs q s) (task : τ) :
  k.Runs q (s.give task)
  := by
  cases k with
  | idle =>
      intro hstarted
      rcases Classical.em (q = s.given.length) with rfl | hne
      · rw [State.give_params_self] at hstarted
        cases hstarted
      · rw [State.give_params_of_ne s task hne] at hstarted
        apply (hk hstarted).give task
  | entered => apply State.Is.give hk task
  | ran => apply State.Is.give hk task
  | exited => apply State.Is.give hk task
  | _ => apply hk

/-! ### The steps -/

/-- What a step of a caller does: it keeps what is said of the parameters, the caller and every
other thread, owns no parameter of another caller, and drops none that waits. -/
structure Calling (s s' : State τ) (l l' : Pc) : Prop where
  sound : Sound s'
  calls : l'.Calls s'
  others : ∀ k : Pc, k.Calls s → (∀ p, l.owned = some p → k.owned ≠ some p) →
    k.Calls s' ∧ ∀ p, l'.owned = some p → k.owned ≠ some p
  runs : ∀ (k : Pc) (p : ℕ), k.Runs p s → k.Runs p s'
  waits : ∀ p, s'.Waits p → l'.owned = some p ∨ l.owned ≠ some p ∧ s.Waits p

/-- The parameter that a caller owns is that of a call. -/
theorem Pc.Calls.owned_lt {k : Pc} (hk : k.Calls s) (hp : k.owned = some p) :
  p < s.given.length
  := by
  cases k with
  | startingVertex q =>
      obtain rfl := Option.some.inj hp
      apply State.Is.lt hk
  | startingClosure q =>
      obtain rfl := Option.some.inj hp
      apply State.Is.lt hk
  | reclaiming q =>
      obtain rfl := Option.some.inj hp
      apply State.Is.lt hk
  | deleting q =>
      obtain rfl := Option.some.inj hp
      apply State.Is.lt hk
  | _ => cases hp

/-- A call that builds its parameter. -/
theorem calling_give {l l' : Pc} (h : Sound s) (hl : l.owned = none) (task : τ)
    (hl' : l'.owned = some s.given.length)
    (hcalls : ∀ s' : State τ, s'.Is s.given.length .new → l'.Calls s') :
  Calling s (s.give task) l l'
  := by
  refine ⟨h.give task, hcalls _ (s.is_give task), ?_, ?_, ?_⟩
  · intro k hk _
    use hk.give h task
    intro p hp hkp
    obtain rfl := Option.some.inj (hl'.symm.trans hp)
    apply Nat.lt_irrefl _ (hk.owned_lt hkp)
  · intro k p hk
    apply hk.give
  · rintro p ⟨hlt, hstarted, hdeleted⟩
    rcases Classical.em (p = s.given.length) with rfl | hne
    · exact Or.inl hl'
    · right
      rw [State.give_params_of_ne s task hne] at hstarted hdeleted
      rw [State.give, List.length_append] at hlt
      rw [hl]
      exact ⟨nofun, Nat.lt_of_le_of_ne (Nat.le_of_lt_succ hlt) hne, hstarted, hdeleted⟩

/-- A step of a caller with the parameter that it owns, for which no bthread was started. -/
theorem calling_set {l l' : Pc} {f g : τ → Param τ} (h : Sound s) (hl : l.owned = some p)
    (hp : s.Is p f) (hstarted : ∀ t, (f t).started = false)
    (hback : ∀ t u, f t ≠ ((Param.new u).reclaim u).delete none) (hg : ∀ t, Phase t (g t))
    (hgstart : ∀ t, (g t).started = true → g t = (Param.new t).start)
    (hl' : l'.owned = some p ∨ l'.owned = none ∧ ∀ t, (g t).started = true ∨ (g t).deleted ≠ 0)
    (hcalls : ∀ s' : State τ, s'.Is p g → l'.Calls s') :
  ∀ task, s.given[p]? = some task → Calling s (s.set p (g task)) l l'
  := by
  intro task hgiven
  obtain ⟨t, ht, hf⟩ := hp
  obtain rfl := Option.some.inj (hgiven.symm.trans ht)
  have hfalse : (s.params p).started = false := by rw [hf, hstarted]
  refine ⟨h.set hgiven (hg task), hcalls _ (State.is_set hgiven), ?_, ?_, ?_⟩
  · intro k hk hne
    constructor
    · apply hk.set (hne p hl)
      · rw [hfalse]
        intro hfalse
        cases hfalse
      · rw [hf]
        apply hback
    · intro q hq
      rcases hl' with hl' | ⟨hl', -⟩
      · obtain rfl := Option.some.inj (hl'.symm.trans hq)
        apply hne p hl
      · rw [hl'] at hq
        cases hq
  · intro k q hk
    rcases Classical.em (q = p) with rfl | hne
    · obtain rfl := hk.idle hfalse
      intro hstart
      rw [State.set_params_self] at hstart
      rw [hgstart task hstart]
      apply State.is_set (f := fun t => (Param.new t).start) hgiven
    · apply hk.set hne
  · rintro q ⟨hlt, hnot, hzero⟩
    rcases Classical.em (q = p) with rfl | hne
    · left
      rcases hl' with hl' | ⟨-, hdone⟩
      · apply hl'
      · rw [State.set_params_self] at hnot hzero
        rcases hdone task with hstart | hdel
        · rw [hnot] at hstart
          cases hstart
        · apply absurd hzero hdel
    · right
      rw [State.set_params_of_ne s _ hne] at hnot hzero
      rw [hl]
      exact ⟨fun heq => hne (Option.some.inj heq).symm, hlt, hnot, hzero⟩

theorem moving_eq {f : τ → Param τ} (hf : s.params p = f task)
    (hheld : (f task).held = some (some task)) (move : Param τ → τ → Param τ) (pc : Pc) :
  s.moving p move pc = (s.set p (move (f task) task), pc)
  := by
  unfold State.moving
  rw [hf, hheld]

theorem deleting_eq {f : τ → Param τ} (hf : s.params p = f task) (hheld : (f task).held = some none)
    (pc : Pc) :
  s.deleting p pc = (s.set p ((f task).delete none), pc)
  := by
  unfold State.deleting
  rw [hf, hheld]

/-- A caller whose bthread is started. -/
theorem calling_start {l : Pc} (h : Sound s) (hl : l.owned = some p) (hnew : s.Is p .new) :
  Calling s (s.set p (s.params p).start) l (.returned p 0)
  := by
  obtain ⟨task, hgiven, hf⟩ := hnew
  rw [hf]
  apply calling_set (g := fun t => (Param.new t).start) h hl ⟨task, hgiven, hf⟩ (fun _ => rfl) _
    (fun _ => .started) (fun _ _ => rfl) (Or.inr ⟨rfl, fun _ => Or.inl rfl⟩) _ task hgiven
  · intro t u heq
    cases congrArg Param.deleted heq
  · rintro s' ⟨t, -, ht⟩
    left
    rw [ht]
    exact ⟨rfl, rfl⟩

/-- A caller that has what it gave again. -/
theorem calling_reclaim {l : Pc} (h : Sound s) (hl : l.owned = some p) (hnew : s.Is p .new)
    (hgiven : s.given[p]? = some task) :
  Calling s (s.set p ((Param.new task).reclaim task)) l (.deleting p)
  := by
  apply calling_set (g := fun t => (Param.new t).reclaim t) h hl hnew (fun _ => rfl) _
    (fun _ => .reclaimed) _ (Or.inl rfl) (fun _ => id) task hgiven
  · intro t u heq
    cases congrArg Param.deleted heq
  · intro t ht
    cases ht

/-- A caller that deletes the parameter. -/
theorem calling_delete (h : Sound s) (hback : s.Is p fun t => (Param.new t).reclaim t) {l' : Pc}
    {s' : State τ} (hr : s.deleting p (.returned p (-1)) = (s', l')) :
  Calling s s' (.deleting p) l'
  := by
  obtain ⟨task, hgiven, hf⟩ := hback
  rw [deleting_eq (f := fun t => (Param.new t).reclaim t) hf rfl] at hr
  obtain ⟨rfl, rfl⟩ := Prod.mk.inj hr
  apply calling_set (g := fun t => ((Param.new t).reclaim t).delete none) h rfl
    ⟨task, hgiven, hf⟩ (fun _ => rfl) _ (fun _ => .refused) _
    (Or.inr ⟨rfl, fun _ => Or.inr Nat.one_ne_zero⟩) _ task hgiven
  · intro t u heq
    cases congrArg Param.deleted heq
  · intro t ht
    cases ht
  · intro s' hs'
    exact Or.inr ⟨rfl, hs'⟩

theorem runVertex_calling {l l' : Pc} {s' : State τ} {choice : Choice τ} (h : Sound s)
    (hl : l.Calls s) (hstep : runVertex s l choice = some (s', l')) :
  Calling s s' l l'
  := by
  unfold runVertex at hstep
  split at hstep
  · obtain ⟨rfl, rfl⟩ := Prod.mk.inj (Option.some.inj hstep)
    apply calling_give h rfl _ rfl fun _ => id
  · obtain ⟨rfl, rfl⟩ := Prod.mk.inj (Option.some.inj hstep)
    apply calling_give h rfl _ rfl fun _ => id
  · obtain ⟨rfl, rfl⟩ := Prod.mk.inj (Option.some.inj hstep)
    apply calling_start h rfl hl
  · next p =>
      obtain ⟨rfl, rfl⟩ := Prod.mk.inj (Option.some.inj hstep)
      refine ⟨h, hl, fun k hk hne => ⟨hk, hne⟩, fun _ _ => id, ?_⟩
      intro q hq
      rcases Classical.em (q = p) with rfl | hne
      · exact Or.inl rfl
      · exact Or.inr ⟨fun heq => hne (Option.some.inj heq).symm, hq⟩
  · next p =>
      have hnew : s.Is p .new := hl
      obtain ⟨task, hgiven, hf⟩ := hl
      have hr := Option.some.inj hstep
      rw [moving_eq hf rfl] at hr
      obtain ⟨rfl, rfl⟩ := Prod.mk.inj hr
      apply calling_reclaim h rfl hnew hgiven
  · apply calling_delete h hl (Option.some.inj hstep)
  · cases hstep

theorem runClosure_calling {l l' : Pc} {s' : State τ} {choice : Choice τ} (h : Sound s)
    (hl : l.Calls s) (hstep : runClosure s l choice = some (s', l')) :
  Calling s s' l l'
  := by
  unfold runClosure at hstep
  split at hstep
  · obtain ⟨rfl, rfl⟩ := Prod.mk.inj (Option.some.inj hstep)
    apply calling_give h rfl _ rfl fun _ => id
  · obtain ⟨rfl, rfl⟩ := Prod.mk.inj (Option.some.inj hstep)
    apply calling_give h rfl _ rfl fun _ => id
  · obtain ⟨rfl, rfl⟩ := Prod.mk.inj (Option.some.inj hstep)
    apply calling_start h rfl hl
  · next p =>
      have hnew : s.Is p .new := hl
      obtain ⟨task, hgiven, hf⟩ := hl
      obtain ⟨rfl, rfl⟩ := Prod.mk.inj (Option.some.inj hstep)
      -- what the caller keeps is what the other overload moves back
      have hkeep : (s.params p).keep = (Param.new task).reclaim task := by
        rw [hf]
        rfl
      rw [hkeep]
      apply calling_reclaim h rfl hnew hgiven
  · apply calling_delete h hl (Option.some.inj hstep)
  · cases hstep

/-- A step of a caller, be it in the one overload of `run` or in the other. -/
theorem run_calling {l l' : Pc} {s' : State τ} {choice : Choice τ} (h : Sound s) (hl : l.Calls s)
    (hstep : (runVertex s l choice).or (runClosure s l choice) = some (s', l')) :
  Calling s s' l l'
  := by
  rcases Option.or_eq_some_iff.mp hstep with hvertex | ⟨-, hclosure⟩
  · apply runVertex_calling h hl hvertex
  · apply runClosure_calling h hl hclosure

/-- What a step of the bthread `p` does: it keeps what is said of the parameters, the bthread and
every other thread. -/
structure Running (p : ℕ) (s s' : State τ) (l' : Pc) : Prop where
  sound : Sound s'
  runs : l'.Runs p s'
  callers : ∀ k : Pc, k.Calls s → k.Calls s'
  others : ∀ (k : Pc) (q : ℕ), q ≠ p → k.Runs q s → k.Runs q s'
  waits : ∀ q, s'.Waits q → s.Waits q

/-- A step of a bthread with its parameter. -/
theorem running_set {l' : Pc} {f g : τ → Param τ} (h : Sound s) (hgiven : s.given[p]? = some task)
    (hf : s.params p = f task) (hstarted : ∀ t, (f t).started = true)
    (hgstarted : ∀ t, (g t).started = true) (hg : ∀ t, Phase t (g t))
    (hruns : ∀ s' : State τ, s'.Is p g → l'.Runs p s') :
  Running p s (s.set p (g task)) l'
  := by
  have hnew : ∀ k : Pc, k.Calls s → k.owned ≠ some p := by
    intro k hk hp
    have hfalse : (s.params p).started = false := by
      cases k with
      | startingVertex q =>
          obtain rfl := Option.some.inj hp
          obtain ⟨t, -, ht⟩ := hk
          rw [ht]
          rfl
      | startingClosure q =>
          obtain rfl := Option.some.inj hp
          obtain ⟨t, -, ht⟩ := hk
          rw [ht]
          rfl
      | reclaiming q =>
          obtain rfl := Option.some.inj hp
          obtain ⟨t, -, ht⟩ := hk
          rw [ht]
          rfl
      | deleting q =>
          obtain rfl := Option.some.inj hp
          obtain ⟨t, -, ht⟩ := hk
          rw [ht]
          rfl
      | _ => cases hp
    rw [hf, hstarted] at hfalse
    cases hfalse
  refine ⟨h.set hgiven (hg task), hruns _ (State.is_set hgiven), ?_, ?_, ?_⟩
  · intro k hk
    apply hk.set (hnew k hk)
    · intro _
      apply hgstarted
    · intro t ht
      have hfalse := congrArg Param.started ht
      rw [hf, hstarted] at hfalse
      cases hfalse
  · intro k q hne hk
    apply hk.set hne
  · rintro q ⟨hlt, hnot, hzero⟩
    rcases Classical.em (q = p) with rfl | hne
    · rw [State.set_params_self, hgstarted] at hnot
      cases hnot
    · rw [State.set_params_of_ne s _ hne] at hnot hzero
      exact ⟨hlt, hnot, hzero⟩

theorem executeInvoke_running {l l' : Pc} {s' : State τ} (h : Sound s) (hl : l.Runs p s)
    (hstep : executeInvoke p s l = some (s', l')) :
  Running p s s' l'
  := by
  unfold executeInvoke at hstep
  split at hstep
  · obtain ⟨hstarted, hr⟩ := Option.ite_none_right_eq_some.mp hstep
    obtain ⟨rfl, rfl⟩ := Prod.mk.inj (Option.some.inj hr)
    exact ⟨h, hl hstarted, fun _ => id, fun _ _ _ => id, fun _ => id⟩
  · obtain ⟨task, hgiven, hf⟩ := hl
    have hr := Option.some.inj hstep
    rw [moving_eq (f := fun t => (Param.new t).start) hf rfl] at hr
    obtain ⟨rfl, rfl⟩ := Prod.mk.inj hr
    apply running_set (f := fun t => (Param.new t).start)
      (g := fun t => (Param.new t).start.execute t) h hgiven hf (fun _ => rfl) (fun _ => rfl)
      fun _ => .executed
    intro s' hs'
    apply hs'
  · obtain ⟨task, hgiven, hf⟩ := hl
    have hr := Option.some.inj hstep
    rw [deleting_eq (f := fun t => (Param.new t).start.execute t) hf rfl] at hr
    obtain ⟨rfl, rfl⟩ := Prod.mk.inj hr
    apply running_set (f := fun t => (Param.new t).start.execute t)
      (g := fun t => ((Param.new t).start.execute t).delete none) h hgiven hf (fun _ => rfl)
      (fun _ => rfl) fun _ => .exited
    intro s' hs'
    apply hs'
  · cases hstep

/-! ### The proof outline -/

/-- What a thread may rely on where it stands. -/
def Pc.Knows (s : State τ) (l : Pc) : ι ⊕ ℕ → Prop
  | .inl _ => l.Calls s
  | .inr p => l.Runs p s

theorem Pc.Runs.owned {k : Pc} (hk : k.Runs p s) :
  k.owned = none
  := by
  cases k with
  | startingVertex q => cases hk
  | startingClosure q => cases hk
  | reclaiming q => cases hk
  | deleting q => cases hk
  | _ => rfl

/-- The outline: no two callers own the same parameter. -/
def outline (τ ι : Type*) : Threads.Outline (threads τ ι) where
  shared := Sound
  own i s l := l.Knows s i
  apart l k := ∀ p, l.owned = some p → k.owned ≠ some p
  symm := by
    intro l k h p hk hl
    apply h p hl hk
  step := by
    rintro (i | p) choice s l s' l' hs hl hstep
    · have hc := run_calling hs hl hstep
      exact ⟨hc.sound, hc.calls⟩
    · have hr := executeInvoke_running hs hl hstep
      exact ⟨hr.sound, hr.runs⟩
  free := by
    rintro (i | p) choice s l s' l' (j | q) k hs hl hstep hij hk hapart
    · apply (run_calling hs hl hstep).others k hk hapart
    · use (run_calling hs hl hstep).runs k q hk
      intro r _ hr
      rw [hk.owned] at hr
      cases hr
    · have hr := executeInvoke_running hs hl hstep
      use hr.callers k hk
      intro r hl'
      rw [hr.runs.owned] at hl'
      cases hl'
    · have hr := executeInvoke_running hs hl hstep
      have hne : q ≠ p := fun h => hij (congrArg Sum.inr h.symm)
      use hr.others k q hne hk
      intro r hl'
      rw [hr.runs.owned] at hl'
      cases hl'

theorem outline_start (τ ι : Type*) :
  (outline τ ι).Holds (start τ ι)
  := by
  constructor
  · intro p
    rfl
  · rintro (i | p)
    · trivial
    · intro hstarted
      cases hstarted
  · intro i j _ p hp
    cases hp

/-! ### Exactly once -/

/-- Every parameter that waits is owned by a caller. -/
def Covered (c : Threads.Config (ι ⊕ ℕ) (State τ) Pc) : Prop :=
  ∀ p, c.shared.Waits p → ∃ i, (c.locals (.inl i)).owned = some p

/-- What is given to `run` is given to one bthread or to none.  No thread has crashed, and nothing
is lost.  What a call was given has run at most once, or been handed back at most once; only what a
bthread was started with has run, and only what none was started with is handed back; and the
parameter is deleted at most once.  A call that has returned `0` has started a bthread, and one
that has returned `-1` has handed back what it was given and deleted the parameter.  And when no
caller is in a call and the bthreads started are at their end, what was accepted has run, what was
refused is handed back, and no parameter is left. -/
structure ExactlyOnce (c : Threads.Config (ι ⊕ ℕ) (State τ) Pc) : Prop where
  safe : ∀ i, c.locals i ≠ .crashed
  lost : ∀ p, (c.shared.params p).lost = []
  once : ∀ p task, c.shared.given[p]? = some task →
    (c.shared.params p).executed ++ (c.shared.params p).refused <+: [task] ∧
    (c.shared.params p).deleted ≤ 1
  started : ∀ p, (c.shared.params p).executed ≠ [] → (c.shared.params p).started = true
  refused : ∀ p, (c.shared.params p).refused ≠ [] → (c.shared.params p).started = false
  result : ∀ i p result, c.locals (.inl i) = .returned p result →
    result = 0 ∧ (c.shared.params p).started = true ∨
    result = -1 ∧ (c.shared.params p).deleted = 1 ∧
      ∃ task, c.shared.given[p]? = some task ∧ (c.shared.params p).refused = [task]
  quiet : (∀ i, (c.locals (.inl i)).owned = none) →
    (∀ p, (c.shared.params p).started = true → c.locals (.inr p) = .exited) →
    ∀ p task, c.shared.given[p]? = some task →
      (c.shared.params p).held = none ∧ (c.shared.params p).deleted = 1 ∧
      if (c.shared.params p).started then (c.shared.params p).executed = [task]
      else (c.shared.params p).refused = [task]

/-- What can be said of a parameter in every phase. -/
theorem Phase.facts (h : Phase task c) :
  c.lost = [] ∧ c.executed ++ c.refused <+: [task] ∧ c.deleted ≤ 1 ∧
    (c.executed ≠ [] → c.started = true) ∧ (c.refused ≠ [] → c.started = false)
  := by
  cases h with
  | new => exact ⟨rfl, List.nil_prefix, Nat.zero_le 1, nofun, nofun⟩
  | started => exact ⟨rfl, List.nil_prefix, Nat.zero_le 1, nofun, nofun⟩
  | executed => exact ⟨rfl, List.prefix_refl _, Nat.zero_le 1, fun _ => rfl, nofun⟩
  | exited => exact ⟨rfl, List.prefix_refl _, Nat.le_refl 1, fun _ => rfl, nofun⟩
  | reclaimed => exact ⟨rfl, List.prefix_refl _, Nat.zero_le 1, nofun, fun _ => rfl⟩
  | refused => exact ⟨rfl, List.prefix_refl _, Nat.le_refl 1, nofun, fun _ => rfl⟩

/-- A parameter for which no bthread was started, and that does not wait, is handed back. -/
theorem Phase.of_deleted (h : Phase task c) (hstarted : c.started = false) (hzero : c.deleted ≠ 0) :
  c = ((Param.new task).reclaim task).delete none
  := by
  cases h with
  | refused => rfl
  | new => exact absurd rfl hzero
  | reclaimed => exact absurd rfl hzero
  | _ => cases hstarted

theorem Covered.step {c c' : Threads.Config (ι ⊕ ℕ) (State τ) Pc} [DecidableEq ι]
    {e : (ι ⊕ ℕ) × Choice τ} (hc : Covered c) (hO : (outline τ ι).Holds c)
    (hstep : (threads τ ι).machine.step c e = some c') :
  Covered c'
  := by
  obtain ⟨i | p, choice⟩ := e
  · obtain ⟨s', l', hl, rfl⟩ := (threads τ ι).machine_step_eq_some.mp hstep
    intro p hp
    rcases (run_calling hO.shared (hO.own (.inl i)) hl).waits p hp with howned | ⟨hne, hwait⟩
    · use i
      rw [Threads.Config.set_locals_self]
      apply howned
    · obtain ⟨j, hj⟩ := hc p hwait
      use j
      rw [Threads.Config.set_locals_of_ne, hj]
      rintro hji
      rw [hji] at hj
      apply hne hj
  · obtain ⟨s', l', hl, rfl⟩ := (threads τ ι).machine_step_eq_some.mp hstep
    intro q hq
    obtain ⟨j, hj⟩ := hc q ((executeInvoke_running hO.shared (hO.own (.inr p)) hl).waits q hq)
    use j
    rw [Threads.Config.set_locals_of_ne c Sum.inl_ne_inr, hj]

theorem ExactlyOnce.of_holds {c : Threads.Config (ι ⊕ ℕ) (State τ) Pc}
    (hO : (outline τ ι).Holds c) (hc : Covered c) :
  ExactlyOnce c
  := by
  have hsound : Sound c.shared := hO.shared
  have hphase : ∀ p, c.shared.params p = .unused ∨
      ∃ task, c.shared.given[p]? = some task ∧ Phase task (c.shared.params p) := by
    intro p
    rcases hp : c.shared.given[p]? with _ | task
    · exact Or.inl (hsound.unused hp)
    · exact Or.inr ⟨task, rfl, hsound.phase hp⟩
  constructor
  · rintro (i | p) hl
    · have hk := hO.own (.inl i)
      rw [hl] at hk
      cases hk
    · have hk := hO.own (.inr p)
      rw [hl] at hk
      cases hk
  · intro p
    rcases hphase p with hunused | ⟨task, -, hp⟩
    · rw [hunused]
      rfl
    · apply hp.facts.1
  · intro p task hp
    obtain ⟨-, hpre, hdeleted, -⟩ := (hsound.phase hp).facts
    exact ⟨hpre, hdeleted⟩
  · intro p
    rcases hphase p with hunused | ⟨task, -, hp⟩
    · rw [hunused]
      intro h
      apply absurd rfl h
    · apply hp.facts.2.2.2.1
  · intro p
    rcases hphase p with hunused | ⟨task, -, hp⟩
    · rw [hunused]
      intro h
      apply absurd rfl h
    · apply hp.facts.2.2.2.2
  · intro i p result hl
    have hk := hO.own (.inl i)
    rw [hl] at hk
    rcases hk with ⟨hzero, hstarted⟩ | ⟨hone, task, hgiven, hp⟩
    · exact Or.inl ⟨hzero, hstarted⟩
    · right
      rw [hp]
      exact ⟨hone, rfl, task, hgiven, rfl⟩
  · intro hcallers hbthreads p task hgiven
    rcases hstarted : (c.shared.params p).started with _ | _
    · have hzero : (c.shared.params p).deleted ≠ 0 := by
        intro hzero
        obtain ⟨i, hi⟩ := hc p ⟨(List.getElem?_eq_some_iff.mp hgiven).1, hstarted, hzero⟩
        rw [hcallers i] at hi
        cases hi
      rw [(hsound.phase hgiven).of_deleted hstarted hzero]
      exact ⟨rfl, rfl, rfl⟩
    · have hk := hO.own (.inr p)
      rw [hbthreads p hstarted] at hk
      obtain ⟨t, ht, hp⟩ := hk
      obtain rfl := Option.some.inj (hgiven.symm.trans ht)
      rw [hp]
      exact ⟨rfl, rfl, rfl⟩

/-- Take any number of callers of `run` with any tasks, any outcomes of the starts of the bthreads,
and any interleaving of their steps with those of the bthreads.  What is given to `run` is run
exactly once if it was accepted, and handed back if it was not. -/
theorem runs_exactly_once [DecidableEq ι] {es : List ((ι ⊕ ℕ) × Choice τ)}
    {c : Threads.Config (ι ⊕ ℕ) (State τ) Pc}
    (hrun : (threads τ ι).machine.run (start τ ι) es = some c) :
  ExactlyOnce c
  := by
  have h : (outline τ ι).Holds c ∧ Covered c := by
    apply (threads τ ι).machine.run_invariant
      (I := fun c => (outline τ ι).Holds c ∧ Covered c) _ hrun
    · use outline_start τ ι
      intro p hp
      cases hp.1
    · rintro c e c' ⟨hO, hc⟩ hstep
      exact ⟨(outline τ ι).holds_step hO hstep, hc.step hO hstep⟩
  apply ExactlyOnce.of_holds h.1 h.2

/-- Three callers: one is refused with a vertex, one is accepted with a closure, and one is refused
with a closure. -/
def refusedTwice : List ((ℕ ⊕ ℕ) × Choice String) :=
  [(.inl 0, .runVertex "a"), (.inl 1, .runClosure "b"), (.inl 0, .start false),
    (.inl 2, .runClosure "c"), (.inl 1, .start true), (.inr 1, .start true),
    (.inl 0, .start true), (.inl 2, .start false), (.inr 1, .start true), (.inr 1, .start true),
    (.inl 0, .start true), (.inl 2, .start true)]

/-- What holds after that run. -/
theorem runs_exactly_once_refusedTwice :
  ∃ c, (threads String ℕ).machine.run (start String ℕ) refusedTwice = some c ∧
    (c.shared.params 0).refused = ["a"] ∧ (c.shared.params 1).executed = ["b"] ∧
    (c.shared.params 2).refused = ["c"] ∧ ExactlyOnce c
  := by
  have hrun : ((threads String ℕ).machine.run (start String ℕ) refusedTwice).any
      (fun c => (c.shared.params 0).refused == ["a"] && ((c.shared.params 1).executed == ["b"] &&
        (c.shared.params 2).refused == ["c"])) = true := by
    decide +kernel
  obtain ⟨c, hc, hall⟩ := (Option.any_eq_true _ _).mp hrun
  rw [Bool.and_eq_true, Bool.and_eq_true, beq_iff_eq, beq_iff_eq, beq_iff_eq] at hall
  exact ⟨c, hc, hall.1, hall.2.1, hall.2.2, runs_exactly_once hc⟩

end BthreadGraphExecutor
