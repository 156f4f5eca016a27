import CppFreshman.Machine.Run
import Mathlib.Data.List.Nodup

/-!
# The pools of the graph engine

`GraphEngine::init_pool` reads a configuration, adds its vertices and expressions to the builder
of the engine, and registers a pool whose creator builds a graph from that builder.  All pools
share the builder, so a graph contains what all the calls of `init_pool` have added until it is
built: it is what its own configuration says exactly if those of the other pools are empty
(`independent_iff`).

`babylon::anyflow::GraphBuilder` is not part of the repository: `add_vertex` and
`ExpressionProcessor::apply` append to the builder, and `build` makes a graph of everything that
the builder contains.  What `apply(builder)` appends for the dependencies of the vertices is left
open.
-/

namespace GraphEngine

/-- A vertex in a configuration. -/
structure Vertex where
  processor : String
  dependencies : List String
  outputs : List String
  deriving DecidableEq

structure Expression where
  name : String
  value : String
  deriving DecidableEq

/-- What the configuration files hold when they are read. -/
structure PoolConfig where
  vertices : List Vertex
  expressions : List Expression

/-- `GraphBuilder`, and also a graph that it builds; `implied` is what `apply(builder)` has
appended. -/
structure GraphBuilder where
  vertices : List Vertex
  expressions : List Expression
  implied : List Expression

namespace GraphBuilder

variable (b : GraphBuilder)

def addVertex (vertex : Vertex) : GraphBuilder :=
  { b with vertices := b.vertices ++ [vertex] }

/-- `ExpressionProcessor::apply` for an expression. -/
def apply (expression : Expression) : GraphBuilder :=
  { b with expressions := b.expressions ++ [expression] }

/-- `ExpressionProcessor::apply` for what the dependencies imply. -/
def applyImplied (implied : GraphBuilder → List Expression) : GraphBuilder :=
  { b with implied := b.implied ++ implied b }

theorem foldl_addVertex (vertices : List Vertex) :
  vertices.foldl addVertex b = { b with vertices := b.vertices ++ vertices }
  := by
  induction vertices generalizing b with
  | nil => rw [List.foldl_nil, List.append_nil]
  | cons vertex vertices ih =>
      rw [List.foldl_cons, ih, addVertex, List.append_assoc, List.singleton_append]

theorem foldl_apply (expressions : List Expression) :
  expressions.foldl apply b = { b with expressions := b.expressions ++ expressions }
  := by
  induction expressions generalizing b with
  | nil => rw [List.foldl_nil, List.append_nil]
  | cons expression expressions ih =>
      rw [List.foldl_cons, ih, apply, List.append_assoc, List.singleton_append]

end GraphBuilder

/-- The engine: the builder, and the names in `_graphs` with the configuration that was read for
each. -/
structure Pools where
  builder : GraphBuilder
  graphs : List (String × PoolConfig)

namespace Pools

variable (implied : GraphBuilder → List Expression) (e : Pools)

/-- A pool is registered under the name. -/
def Has (name : String) : Prop :=
  name ∈ e.graphs.map Prod.fst

instance (name : String) : Decidable (e.Has name) := by
  unfold Has
  infer_instance

/-- `init_pool`. -/
def initPool (name : String) (config : PoolConfig) : Pools :=
  if e.Has name then e
  else
    { builder :=
        (config.expressions.foldl .apply
          (config.vertices.foldl .addVertex e.builder)).applyImplied implied
      graphs := e.graphs ++ [(name, config)] }

/-- The creator of every pool: `builder.build()`. -/
def create : GraphBuilder :=
  e.builder

end Pools

/-- A call of `init_pool`, or of the creator of the pool that is registered under a name. -/
inductive PoolEvent where
  | initPool (name : String) (config : PoolConfig)
  | create (name : String)

/-- The engine and the graphs that were built, each for the name of its pool. -/
structure PoolRun where
  engine : Pools
  built : List (String × GraphBuilder)

/-- Calls of `init_pool` and of the creators in any order. -/
def pooling (implied : GraphBuilder → List Expression) : Machine PoolRun PoolEvent where
  step s
    | .initPool name config => some { s with engine := s.engine.initPool implied name config }
    | .create name =>
        if s.engine.Has name then some { s with built := s.built ++ [(name, s.engine.create)] }
        else none

def poolingStart : PoolRun :=
  ⟨⟨⟨[], [], []⟩, []⟩, []⟩

/-- Every graph contains what the configuration of its own pool says. -/
def Independent (s : PoolRun) : Prop :=
  ∀ name graph, (name, graph) ∈ s.built → ∃ config, (name, config) ∈ s.engine.graphs ∧
    graph.vertices = config.vertices ∧ graph.expressions = config.expressions

/-- If the step builds a graph, the configurations of the other pools are empty. -/
def OthersEmpty (s : PoolRun) (event : PoolEvent) : Prop :=
  ∀ name, event = .create name → ∀ name' config, (name', config) ∈ s.engine.graphs →
    name' ≠ name → config.vertices = [] ∧ config.expressions = []

theorem othersEmpty_create_iff {s : PoolRun} {name : String} :
  (∀ x, x ∈ s.engine.graphs → x.1 ≠ name → x.2.vertices = [] ∧ x.2.expressions = []) ↔
    OthersEmpty s (.create name)
  := by
  constructor
  · intro h _ heq name' config hmem hne
    obtain rfl := PoolEvent.create.inj heq
    apply h (name', config) hmem hne
  · intro h x hmem hne
    apply h name rfl x.1 x.2 hmem hne

instance (s : PoolRun) : DecidablePred (OthersEmpty s)
  | .initPool _ _ => isTrue fun _ h => PoolEvent.noConfusion h
  | .create _ => decidable_of_iff _ othersEmpty_create_iff

/-- The names are different, and the builder contains what all the configurations say. -/
structure Collects (e : Pools) : Prop where
  nodup : (e.graphs.map Prod.fst).Nodup
  vertices : e.builder.vertices = e.graphs.flatMap fun x => x.2.vertices
  expressions : e.builder.expressions = e.graphs.flatMap fun x => x.2.expressions

theorem Collects.initPool {e : Pools} (h : Collects e) (implied : GraphBuilder → List Expression)
    (name : String) (config : PoolConfig) :
  Collects (e.initPool implied name config)
  := by
  rw [Pools.initPool]
  split
  · apply h
  · next hnot =>
      rw [GraphBuilder.foldl_addVertex, GraphBuilder.foldl_apply]
      constructor
      · rw [List.map_append, List.nodup_append]
        refine ⟨h.nodup, List.nodup_singleton name, ?_⟩
        rintro a ha b hb rfl
        obtain rfl : a = name := by simpa using hb
        apply hnot ha
      · simp [GraphBuilder.applyImplied, h.vertices]
      · simp [GraphBuilder.applyImplied, h.expressions]

/-- All lists together are one of them exactly if the others are empty. -/
theorem flatMap_eq_iff {α β : Type} {f : α → List β} {l : List α} {a : α} (hl : l.Nodup)
    (ha : a ∈ l) :
  l.flatMap f = f a ↔ ∀ b, b ∈ l → b ≠ a → f b = []
  := by
  obtain ⟨before, after, rfl⟩ := List.append_of_mem ha
  have hmiddle := List.perm_middle.nodup_iff.mp hl
  have hnot := (List.nodup_cons.mp hmiddle).1
  have hsplit : (before ++ a :: after).flatMap f =
      before.flatMap f ++ (f a ++ after.flatMap f) := by
    rw [List.flatMap_append, List.flatMap_cons]
  constructor
  · intro heq b hb hne
    have hlength := congrArg List.length (hsplit.symm.trans heq)
    simp only [List.length_append] at hlength
    have hbefore : before.flatMap f = [] := List.length_eq_zero_iff.mp (by omega)
    have hafter : after.flatMap f = [] := List.length_eq_zero_iff.mp (by omega)
    obtain hb | hb := List.mem_append.mp hb
    · apply List.flatMap_eq_nil_iff.mp hbefore b hb
    · obtain rfl | hb := List.mem_cons.mp hb
      · apply absurd rfl hne
      · apply List.flatMap_eq_nil_iff.mp hafter b hb
  · intro h
    have hpart : ∀ part : List α, (∀ b, b ∈ part → b ∈ before ++ after) → part.flatMap f = [] := by
      intro part hpart
      apply List.flatMap_eq_nil_iff.mpr
      intro b hb
      have hmem := hpart b hb
      apply h b
      · obtain hmem | hmem := List.mem_append.mp hmem
        · apply List.mem_append_left _ hmem
        · apply List.mem_append_right _ (List.mem_cons_of_mem a hmem)
      · rintro rfl
        apply hnot hmem
    rw [hsplit, hpart before fun b hb => List.mem_append_left _ hb,
      hpart after fun b hb => List.mem_append_right _ hb, List.nil_append, List.append_nil]

namespace Collects

variable {e : Pools} {name : String} {config : PoolConfig}

theorem nodup_graphs (h : Collects e) :
  e.graphs.Nodup
  := by
  apply List.Nodup.of_map Prod.fst h.nodup

/-- A name has one configuration. -/
theorem config_eq (h : Collects e) {config' : PoolConfig} (hc : (name, config) ∈ e.graphs)
    (hc' : (name, config') ∈ e.graphs) :
  config' = config
  := by
  have heq := List.inj_on_of_nodup_map h.nodup hc hc' rfl
  apply (Prod.mk.inj heq).2.symm

/-- A graph that is built is what its configuration says exactly if the others are empty. -/
theorem create_iff (h : Collects e) (hc : (name, config) ∈ e.graphs) :
  e.create.vertices = config.vertices ∧ e.create.expressions = config.expressions ↔
    ∀ name' config', (name', config') ∈ e.graphs → name' ≠ name →
      config'.vertices = [] ∧ config'.expressions = []
  := by
  have hvertices := flatMap_eq_iff (f := fun x => x.2.vertices) h.nodup_graphs hc
  have hexpressions := flatMap_eq_iff (f := fun x => x.2.expressions) h.nodup_graphs hc
  rw [Pools.create, h.vertices, h.expressions, hvertices, hexpressions]
  constructor
  · rintro ⟨hv, he⟩ name' config' hmem hne
    have hpair : (name', config') ≠ (name, config) := by
      intro heq
      apply hne (Prod.mk.inj heq).1
    exact ⟨hv _ hmem hpair, he _ hmem hpair⟩
  · intro hothers
    have hne : ∀ x, x ∈ e.graphs → x ≠ (name, config) → x.1 ≠ name := by
      rintro ⟨name', config'⟩ hx hpair rfl
      apply hpair
      rw [h.config_eq hc hx]
    constructor
    · intro x hx hpair
      apply (hothers x.1 x.2 hx (hne x hx hpair)).1
    · intro x hx hpair
      apply (hothers x.1 x.2 hx (hne x hx hpair)).2

end Collects

/-- What was built stays what the configurations say when a pool is added. -/
theorem Independent.initPool {s : PoolRun} (h : Independent s)
    (implied : GraphBuilder → List Expression) (name : String) (config : PoolConfig) :
  Independent { s with engine := s.engine.initPool implied name config }
  := by
  intro name' graph hgraph
  obtain ⟨config', hmem, heq⟩ := h name' graph hgraph
  refine ⟨config', ?_, heq⟩
  rw [Pools.initPool]
  split
  · apply hmem
  · apply List.mem_append_left _ hmem

theorem pooling_create {implied : GraphBuilder → List Expression} {s u : PoolRun}
    {name : String} (h : (pooling implied).step s (.create name) = some u) :
  s.engine.Has name ∧ u = { s with built := s.built ++ [(name, s.engine.create)] }
  := by
  simp only [pooling, Option.ite_none_right_eq_some, Option.some.injEq] at h
  exact ⟨h.1, h.2.symm⟩

/-- Along a run of calls of `init_pool` and of the creators every graph contains exactly what the
configuration of its own pool says if and only if, whenever a graph is built, the configurations
of the other pools are empty. -/
theorem independent_iff {implied : GraphBuilder → List Expression} {es : List PoolEvent}
    {t : PoolRun} (h : (pooling implied).run poolingStart es = some t) :
  (pooling implied).Along Independent poolingStart es ↔
    (pooling implied).Steps OthersEmpty poolingStart es
  := by
  apply Machine.along_iff_steps (I := fun s => Collects s.engine ∧ Independent s)
    (fun _ h => h.2) _ _ h
  · constructor
    · exact ⟨List.nodup_nil, rfl, rfl⟩
    · intro name graph hgraph
      cases hgraph
  · rintro s event u ⟨hcollects, hind⟩ hothers hstep
    cases event with
    | initPool name config =>
        obtain rfl := Option.some.inj hstep
        exact ⟨hcollects.initPool implied name config, hind.initPool implied name config⟩
    | create name =>
        obtain ⟨hhas, rfl⟩ := pooling_create hstep
        use hcollects
        intro name' graph hgraph
        obtain hgraph | hgraph := List.mem_append.mp hgraph
        · apply hind name' graph hgraph
        · obtain ⟨rfl, rfl⟩ := Prod.mk.inj (List.mem_singleton.mp hgraph)
          obtain ⟨⟨_, config⟩, hmem, rfl⟩ := List.mem_map.mp hhas
          refine ⟨config, hmem, ?_⟩
          apply (hcollects.create_iff hmem).mpr (hothers _ rfl)
  · rintro s event u ⟨hcollects, -⟩ hothers hstep hind
    apply hothers
    rintro name rfl
    obtain ⟨-, rfl⟩ := pooling_create hstep
    obtain ⟨config, hmem, heq⟩ := hind name s.engine.create (by simp)
    apply (hcollects.create_iff hmem).mp heq

/-- Two pools with a vertex each, and then a graph of the first one. -/
def twoPools : List PoolEvent :=
  [.initPool "main_graph" ⟨[⟨"A", [], ["a"]⟩], []⟩, .initPool "other" ⟨[⟨"B", [], ["b"]⟩], []⟩,
    .create "main_graph"]

/-- The graph contains the vertices of both. -/
theorem twoPools_not_independent :
  ∃ t, (pooling fun _ => []).run poolingStart twoPools = some t ∧ ¬ Independent t
  := by
  refine ⟨_, rfl, ?_⟩
  intro h
  obtain ⟨config, hmem, hvertices, -⟩ := h "main_graph" _ List.mem_cons_self
  have hconfig : config = ⟨[⟨"A", [], ["a"]⟩], []⟩ := by
    obtain hmem | hmem := List.mem_cons.mp hmem
    · apply (Prod.mk.inj hmem).2
    · have hother := (Prod.mk.inj (List.mem_singleton.mp hmem)).1
      apply absurd hother (by decide)
  subst hconfig
  revert hvertices
  decide +kernel

/-- Two pools, one with an empty configuration, and then a graph of the other one. -/
def emptyOther : List PoolEvent :=
  [.initPool "main_graph" ⟨[⟨"A", [], ["a"]⟩], []⟩, .initPool "other" ⟨[], []⟩,
    .create "main_graph"]

/-- The graph is what its own configuration says, since the other one is empty. -/
theorem independent_iff_emptyOther :
  (pooling fun _ => []).Along Independent poolingStart emptyOther
  := by
  have hiff : (pooling fun _ => []).Along Independent poolingStart emptyOther ↔
      (pooling fun _ => []).Steps OthersEmpty poolingStart emptyOther := independent_iff rfl
  apply hiff.mpr
  decide +kernel

end GraphEngine
