import CppFreshman.Machine.Threads

/-!
# The graph engine and its requests

`GraphEngine` keeps the pools of graphs registered under a name.  A request of the service
(`SayHello`) asks the engine for a graph of the pool `main_graph`, uses it through the raw
pointer it got and resets it.  The steps of the requests are those of the source, with
`GraphEngine::try_get` split where the pooled handle is made and where it dies.

A graph instance is a number.  `babylon::ObjectPool` is not part of the repository: `pop`
removes a free instance, or calls the creator when there is none, and the handle it returns
runs the recycler when it dies and puts the instance back among the free ones.
-/

/-- An object pool of graphs: its free instances, and how many the creator has built. -/
structure GraphPool where
  free : List ℕ
  made : ℕ

namespace GraphPool

/-- `pop()`: takes the `k`-th of the free instances, or builds one when none is free. -/
def pop (p : GraphPool) (k : ℕ) : Option (ℕ × GraphPool) :=
  match p.free with
  | [] => some (p.made, { p with made := p.made + 1 })
  | g :: l => (g :: l)[k]?.map fun h => (h, { p with free := (g :: l).eraseIdx k })

/-- The end of a handle: the instance is free again. -/
def push (p : GraphPool) (g : ℕ) : GraphPool :=
  { p with free := g :: p.free }

end GraphPool

/-- The engine: the pools registered by `init_pool`, by name. -/
structure GraphEngine where
  graphs : String → Option GraphPool

namespace GraphEngine

/-- The engine with the pool registered under `name` replaced. -/
def setPool (e : GraphEngine) (name : String) (p : GraphPool) : GraphEngine :=
  ⟨Function.update e.graphs name (some p)⟩

/-- Where a call of `try_get` stands.  In `return iter->second->pop().get();` the handle
`pop()` returns is a temporary: it lives in `holding` and `recycling`, and is dead in
`returning`, when the pointer reaches the caller. -/
inductive TryGet where
  | finding
  | popping
  | holding (g : ℕ)
  | recycling (g : ℕ)
  | returning (g : Option ℕ)
  deriving DecidableEq

/-- The handle of `g` is alive in the call. -/
def TryGet.HasHandle (t : TryGet) (g : ℕ) : Prop :=
  t = .holding g ∨ t = .recycling g

/-- The next step of `try_get(name)`; `k` picks the free instance `pop()` takes. -/
def tryGet (name : String) (k : ℕ) (e : GraphEngine) : TryGet → Option (GraphEngine × TryGet)
  | .finding => some (e, if (e.graphs name).isSome then .popping else .returning none)
  | .popping =>
      (e.graphs name).bind fun p =>
        (p.pop k).map fun r => (e.setPool name r.2, .holding r.1)
  | .holding g => some (e, .recycling g)
  | .recycling g =>
      (e.graphs name).map fun p => (e.setPool name (p.push g), .returning (some g))
  | .returning _ => none

/-- What a request does next with the graph it was given. -/
inductive Stage where
  | emit
  | preset
  | run
  | wait
  | reset
  deriving DecidableEq

/-- Where a request stands: in `try_get`, using the graph it was given, past the null check
that only warns, or done. -/
inductive Request where
  | getting (t : TryGet)
  | serving (s : Stage) (g : ℕ)
  | nullGraph
  | done
  deriving DecidableEq

/-- The instance `g` is free in the pool `main_graph`. -/
def Free (e : GraphEngine) (g : ℕ) : Prop :=
  ∃ p, e.graphs "main_graph" = some p ∧ g ∈ p.free

namespace Request

/-- The next step of `ExampleServiceImple::SayHello`.  A null graph is only warned about and
then dereferenced, so a request has no step from `nullGraph`. -/
def sayHello (k : ℕ) (e : GraphEngine) : Request → Option (GraphEngine × Request)
  | .getting (.returning (some g)) => some (e, .serving .emit g)
  | .getting (.returning none) => some (e, .nullGraph)
  | .getting t => (e.tryGet "main_graph" k t).map fun r => (r.1, .getting r.2)
  | .serving .emit g => some (e, .serving .preset g)
  | .serving .preset g => some (e, .serving .run g)
  | .serving .run g => some (e, .serving .wait g)
  | .serving .wait g => some (e, .serving .reset g)
  | .serving .reset _ => some (e, .done)
  | .nullGraph => none
  | .done => none

/-- The request uses `g` through the raw pointer it was given: `try_get` has returned `g` and
the final `graph->reset()` is not over. -/
def Leases (r : Request) (g : ℕ) : Prop :=
  ∃ s, r = .serving s g

/-- The pooled handle of `g` is alive in the request's call of `try_get`. -/
def HasHandle : Request → ℕ → Prop
  | .getting t, g => t.HasHandle g
  | _, _ => False

end Request

/-- The requests named by `ι` over one engine; a choice is the instance a `pop()` takes. -/
def requests (ι : Type*) : Threads ι GraphEngine Request ℕ where
  step _ k e r := r.sayHello k e

/-- Every request about to be made. -/
def requestsStart (ι : Type*) (e : GraphEngine) : Threads.Config ι GraphEngine Request :=
  ⟨e, fun _ => .getting .finding⟩

end GraphEngine
