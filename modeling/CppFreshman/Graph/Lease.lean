import CppFreshman.Graph.Engine

/-!
# Leases of graphs

A request leases the graph it was given from the return of `try_get` to the end of its final
`graph->reset()`.  The lease is exclusive when that graph is not free and no other request
leases it or holds its handle.

The handle `try_get` pops is dead when `try_get` returns, so the graph it returns is free, or
popped again by another request (`Accounted`).  Hence leases are exclusive along exactly the
runs in which no call of `try_get` returns a graph of a pool (`exclusiveLease_iff`).
-/

namespace GraphEngine

variable {ι : Type*}

/-- No leased graph is free, leased twice or held by the handle of another request. -/
def ExclusiveLease (c : Threads.Config ι GraphEngine Request) : Prop :=
  ∀ i g, (c.locals i).Leases g → ¬ c.shared.Free g ∧
    ∀ j, j ≠ i → ¬ (c.locals j).Leases g ∧ ¬ (c.locals j).HasHandle g

/-- The step of request `e.1` is the return of a graph from `try_get`. -/
def ReturnsGraph (c : Threads.Config ι GraphEngine Request) (e : ι × ℕ) : Prop :=
  ∃ g, c.locals e.1 = .getting (.returning (some g))

/-- The instance `g` is free or some request's handle holds it. -/
def Accounted (c : Threads.Config ι GraphEngine Request) (g : ℕ) : Prop :=
  c.shared.Free g ∨ ∃ j, (c.locals j).HasHandle g

/-- No request leases a graph, and the graph a call of `try_get` is about to return is
accounted for without that call. -/
structure Unleased (c : Threads.Config ι GraphEngine Request) : Prop where
  lease : ∀ i g, ¬ (c.locals i).Leases g
  accounted : ∀ i g, c.locals i = .getting (.returning (some g)) → Accounted c g

/-! ### What one step does to the pool -/

theorem free_setPool {e : GraphEngine} {p : GraphPool} {g : ℕ} :
  (e.setPool "main_graph" p).Free g ↔ g ∈ p.free
  := by
  simp [Free, setPool]

/-- `pop()` takes one instance; every other free one stays free. -/
theorem pop_free {p p' : GraphPool} {k h g : ℕ} (hpop : p.pop k = some (h, p'))
    (hg : g ∈ p.free) :
  g = h ∨ g ∈ p'.free
  := by
  unfold GraphPool.pop at hpop
  split at hpop
  · next hnil =>
      rw [hnil] at hg
      cases hg
  · next f l hcons =>
      obtain ⟨x, hx, heq⟩ := Option.map_eq_some_iff.mp hpop
      obtain ⟨rfl, rfl⟩ := Prod.mk.inj heq
      rw [hcons] at hg
      obtain ⟨hk, rfl⟩ := List.getElem?_eq_some_iff.mp hx
      obtain ⟨n, hn, rfl⟩ := List.getElem_of_mem hg
      by_cases hnk : n = k
      · left
        subst hnk
        rfl
      · right
        apply List.mem_eraseIdx_iff_getElem.mpr
        use n, hn, hnk

/-- A graph `try_get` is about to return is free. -/
theorem tryGet_returning {k g : ℕ} {e e' : GraphEngine} {t : TryGet}
    (h : e.tryGet "main_graph" k t = some (e', .returning (some g))) :
  e'.Free g
  := by
  cases t with
  | finding =>
      obtain ⟨-, h⟩ := Prod.mk.inj (Option.some.inj h)
      split at h <;> cases h
  | popping =>
      obtain ⟨p, -, h⟩ := Option.bind_eq_some_iff.mp h
      obtain ⟨r, -, heq⟩ := Option.map_eq_some_iff.mp h
      cases (Prod.mk.inj heq).2
  | holding f => cases (Prod.mk.inj (Option.some.inj h)).2
  | recycling f =>
      obtain ⟨p, hp, heq⟩ := Option.map_eq_some_iff.mp h
      obtain ⟨rfl, hf⟩ := Prod.mk.inj heq
      cases hf
      simp [free_setPool, GraphPool.push]
  | returning f => cases h

/-- What is free before a step of `try_get`, or held by its handle, is free after the step or
held by its handle. -/
theorem tryGet_accounted {k g : ℕ} {e e' : GraphEngine} {t t' : TryGet}
    (h : e.tryGet "main_graph" k t = some (e', t')) (hg : e.Free g ∨ t.HasHandle g) :
  e'.Free g ∨ t'.HasHandle g
  := by
  cases t with
  | finding =>
      obtain ⟨rfl, rfl⟩ := Prod.mk.inj (Option.some.inj h)
      left
      simpa [TryGet.HasHandle] using hg
  | popping =>
      obtain ⟨p, hp, h⟩ := Option.bind_eq_some_iff.mp h
      obtain ⟨⟨f, p'⟩, hpop, heq⟩ := Option.map_eq_some_iff.mp h
      obtain ⟨rfl, rfl⟩ := Prod.mk.inj heq
      obtain ⟨q, hq, hg⟩ : e.Free g := by simpa [TryGet.HasHandle] using hg
      obtain rfl := Option.some.inj (hp.symm.trans hq)
      rcases pop_free hpop hg with rfl | hg'
      · right
        left
        rfl
      · left
        apply free_setPool.mpr hg'
  | holding f =>
      obtain ⟨rfl, rfl⟩ := Prod.mk.inj (Option.some.inj h)
      simpa [TryGet.HasHandle] using hg
  | recycling f =>
      obtain ⟨p, hp, heq⟩ := Option.map_eq_some_iff.mp h
      obtain ⟨rfl, rfl⟩ := Prod.mk.inj heq
      left
      rw [free_setPool, GraphPool.push, List.mem_cons]
      rcases hg with ⟨q, hq, hg⟩ | hf
      · obtain rfl := Option.some.inj (hp.symm.trans hq)
        right
        apply hg
      · left
        simpa [TryGet.HasHandle, eq_comm] using hf
  | returning f => cases h

/-- A step of a request outside `try_get` leaves the engine as it is, and the request holds no
handle before it or after it. -/
theorem sayHello_frame {k : ℕ} {e e' : GraphEngine} {r r' : Request}
    (h : r.sayHello k e = some (e', r')) :
  (∃ t t', r = .getting t ∧ r' = .getting t' ∧ e.tryGet "main_graph" k t = some (e', t')) ∨
    e' = e ∧ ∀ g, ¬ r.HasHandle g
  := by
  unfold Request.sayHello at h
  split at h
  case h_3 t _ _ =>
    obtain ⟨⟨e₁, t₁⟩, ht, heq⟩ := Option.map_eq_some_iff.mp h
    obtain ⟨rfl, rfl⟩ := Prod.mk.inj heq
    left
    use t, t₁
  case h_9 => cases h
  case h_10 => cases h
  all_goals
    obtain ⟨rfl, rfl⟩ := Prod.mk.inj (Option.some.inj h)
    right
    simp [Request.HasHandle, TryGet.HasHandle]

/-- What is free before a step of a request, or held by its handle, is free after the step or
held by its handle. -/
theorem sayHello_accounted {k g : ℕ} {e e' : GraphEngine} {r r' : Request}
    (h : r.sayHello k e = some (e', r')) (hg : e.Free g ∨ r.HasHandle g) :
  e'.Free g ∨ r'.HasHandle g
  := by
  rcases sayHello_frame h with ⟨t, t', rfl, rfl, ht⟩ | ⟨rfl, hr⟩
  · apply tryGet_accounted ht hg
  · left
    apply hg.resolve_right (hr g)

/-! ### What the steps of the requests do to the leases -/

section

variable [DecidableEq ι] {c c' : Threads.Config ι GraphEngine Request} {e : ι × ℕ}

/-- A graph accounted for stays so in every step. -/
theorem Accounted.step {g : ℕ} (h : Accounted c g)
    (hstep : (requests ι).machine.step c e = some c') :
  Accounted c' g
  := by
  obtain ⟨i, k⟩ := e
  obtain ⟨s, r, hr, rfl⟩ := (requests ι).machine_step_eq_some.mp hstep
  have here (hg : c.shared.Free g ∨ (c.locals i).HasHandle g) :
      Accounted (c.set i s r) g := by
    apply (sayHello_accounted hr hg).imp_right
    intro hg'
    use i
    simpa using hg'
  rcases h with hfree | ⟨j, hj⟩
  · apply here (Or.inl hfree)
  · by_cases hij : j = i
    · subst hij
      apply here (Or.inr hj)
    · right
      use j
      simpa [hij] using hj

/-- A step that is not the return of a graph leads to no lease, and a graph the next return
would give is accounted for. -/
theorem sayHello_unleased {k : ℕ} {e e' : GraphEngine} {r r' : Request}
    (h : r.sayHello k e = some (e', r')) (hret : ∀ g, r ≠ .getting (.returning (some g)))
    (hlease : ∀ g, ¬ r.Leases g) (g : ℕ) :
  ¬ r'.Leases g ∧ (r' = .getting (.returning (some g)) → e'.Free g)
  := by
  unfold Request.sayHello at h
  split at h
  case h_1 f => cases hret f rfl
  case h_2 =>
    obtain ⟨rfl, rfl⟩ := Prod.mk.inj (Option.some.inj h)
    simp [Request.Leases]
  case h_3 t _ _ =>
    obtain ⟨⟨e₁, t₁⟩, ht, heq⟩ := Option.map_eq_some_iff.mp h
    obtain ⟨rfl, rfl⟩ := Prod.mk.inj heq
    constructor
    · simp [Request.Leases]
    · intro heq
      obtain rfl := Request.getting.inj heq
      apply tryGet_returning ht
  case h_9 => cases h
  case h_10 => cases h
  all_goals cases hlease _ ⟨_, rfl⟩

/-- No lease arises and what is accounted for stays so, as long as no call of `try_get`
returns a graph. -/
theorem Unleased.step (h : Unleased c) (hret : ¬ ReturnsGraph c e)
    (hstep : (requests ι).machine.step c e = some c') :
  Unleased c'
  := by
  have hacc := fun g (hg : Accounted c g) => hg.step hstep
  obtain ⟨i, k⟩ := e
  obtain ⟨s, r, hr, rfl⟩ := (requests ι).machine_step_eq_some.mp hstep
  have hnew := sayHello_unleased hr (fun g hg => hret ⟨g, hg⟩) (h.lease i)
  constructor
  · intro j g
    by_cases hij : j = i
    · subst hij
      simpa using (hnew g).1
    · simpa [hij] using h.lease j g
  · intro j g hj
    by_cases hij : j = i
    · subst hij
      left
      apply (hnew g).2
      simpa using hj
    · apply hacc g (h.accounted j g _)
      simpa [hij] using hj

/-- The graph a call of `try_get` returns is not leased exclusively right after the return. -/
theorem Unleased.not_exclusive (h : Unleased c) (hret : ReturnsGraph c e)
    (hstep : (requests ι).machine.step c e = some c') :
  ¬ ExclusiveLease c'
  := by
  obtain ⟨i, k⟩ := e
  obtain ⟨g, hg⟩ := hret
  have hacc := h.accounted i g hg
  obtain ⟨s, r, hr, rfl⟩ := (requests ι).machine_step_eq_some.mp hstep
  simp only at hg
  rw [hg] at hr
  obtain ⟨rfl, rfl⟩ := Prod.mk.inj (Option.some.inj hr)
  intro hex
  obtain ⟨hfree, hother⟩ := hex i g ⟨.emit, by simp⟩
  rcases hacc with hin | ⟨j, hj⟩
  · apply hfree hin
  · have hij : j ≠ i := by
      rintro rfl
      simp [hg, Request.HasHandle, TryGet.HasHandle] at hj
    apply (hother j hij).2
    simpa [hij] using hj

/-- Leases are exclusive along exactly the runs in which no call of `try_get` returns a graph
of a pool. -/
theorem exclusiveLease_iff (engine : GraphEngine) (es : List (ι × ℕ))
    (c : Threads.Config ι GraphEngine Request)
    (h : (requests ι).machine.run (requestsStart ι engine) es = some c) :
  (requests ι).machine.Along ExclusiveLease (requestsStart ι engine) es ↔
    (requests ι).machine.Steps (fun c e => ¬ ReturnsGraph c e) (requestsStart ι engine) es
  := by
  apply Machine.along_iff_steps (I := Unleased) _ _ _ h
  · constructor
    · simp [requestsStart, Request.Leases]
    · simp [requestsStart]
  · intro t ht i g hg
    cases ht.lease i g hg
  · intro t e u ht hret
    apply ht.step hret
  · intro t e u ht hret
    apply ht.not_exclusive (not_not.mp hret)

end

/-- An engine whose pool `main_graph` has built no graph yet. -/
def freshEngine : GraphEngine :=
  ⟨fun name => if name = "main_graph" then some ⟨[], 0⟩ else none⟩

/-- Two requests, one after the other, each up to the return of its call of `try_get`. -/
def twoReturns : List (ℕ × ℕ) :=
  List.replicate 5 (0, 0) ++ List.replicate 5 (1, 0)

/-- After two calls of `try_get` two requests in flight use one graph. -/
theorem twoReturns_not_exclusive :
  ∃ c, (requests ℕ).machine.run (requestsStart ℕ freshEngine) twoReturns = some c ∧
    c.locals 0 = .serving .emit 0 ∧ c.locals 1 = .serving .emit 0 ∧ ¬ ExclusiveLease c
  := by
  refine ⟨_, rfl, rfl, rfl, ?_⟩
  intro h
  obtain ⟨-, hother⟩ := h 0 0 ⟨.emit, rfl⟩
  apply (hother 1 Nat.one_ne_zero).1 ⟨.emit, rfl⟩

/-- The exact condition at those two calls, which both return a graph. -/
theorem exclusiveLease_iff_twoReturns :
  (requests ℕ).machine.Along ExclusiveLease (requestsStart ℕ freshEngine) twoReturns ↔
    (requests ℕ).machine.Steps (fun c e => ¬ ReturnsGraph c e)
      (requestsStart ℕ freshEngine) twoReturns
  := by
  apply exclusiveLease_iff freshEngine twoReturns _ rfl

end GraphEngine
