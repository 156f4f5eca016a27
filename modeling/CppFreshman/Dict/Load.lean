import CppFreshman.Dict.Startup

/-!
# What the parallel load returns

`parallel_sync_load` is to return -1 exactly when a bthread could not be started or a dictionary
did not load (`LoadFailed`).  The starter writes the result of the start to the slot after the
bthread may have run, so it may write 0 over the failure the loader has written there
(`Overwrites`).  In every run in which this does not happen the result is right
(`parallelSyncLoad_reports`).  No two bthreads ever run with one slot.
-/

namespace Dict

variable {o : Outcomes} {handlers : List (Option (String × String))}

/-- A bthread cannot be started, or `load_dict_by_thread` fails in one that is started.  The
current slot of a started handler is not null, so the latter is up to `load()`. -/
def LoadFailed (o : Outcomes) (handlers : List (Option (String × String))) : Prop :=
  ∃ k, Startable o handlers k ∧ (o.start k ≠ 0 ∨ o.load k = false)

/-- A bthread is started only with a slot with which none was, and a handler has at most one
slot. -/
def SlotsApart (c : Managing) : Prop :=
  (∀ k i, c.locals .main = .main (.spawning k i) → c.shared.bthreads i = .unstarted) ∧
    ∀ i j k, c.shared.dictPtr i = some k → c.shared.dictPtr j = some k → i = j

/-- The step `e` writes a failure to a slot to which the starter is about to write the result
of the start. -/
def Overwrites (c : Managing) (e : Tid × Choice) : Prop :=
  ∃ j k r, e.1 = .loader j ∧ c.locals (.loader j) = .loader (.writing (-1)) ∧
    c.locals .main = .main (.assigning k j r)

/-- The slot to which the starter is about to write the result of the start. -/
def Local.assigns : Local → Option ℕ
  | .main (.assigning _ j _) => some j
  | _ => none

theorem assigns_eq_some {l : Local} {j : ℕ} :
  l.assigns = some j ↔ ∃ k r, l = .main (.assigning k j r)
  := by
  constructor
  · intro h
    unfold Local.assigns at h
    split at h
    · next k j' r =>
        obtain rfl := Option.some.inj h
        use k, r
    · cases h
  · rintro ⟨k, r, rfl⟩
    rfl

/-- No step of another thread writes a failure. -/
theorem not_overwrites_of_ne {c : Managing} {e : Tid × Choice} (h : ∀ j, e.1 ≠ .loader j) :
  ¬ Overwrites c e
  := by
  rintro ⟨j, k, r, hj, -⟩
  apply h j hj

theorem overwrites_loader_iff {c : Managing} {e : Tid × Choice} {j : ℕ} (h : e.1 = .loader j) :
  c.locals (.loader j) = .loader (.writing (-1)) ∧ (c.locals .main).assigns = some j ↔
    Overwrites c e
  := by
  rw [assigns_eq_some]
  constructor
  · rintro ⟨hw, k, r, hm⟩
    exact ⟨j, k, r, h, hw, hm⟩
  · rintro ⟨j', k, r, hj, hw, hm⟩
    obtain rfl := Tid.loader.inj (h.symm.trans hj)
    exact ⟨hw, k, r, hm⟩

instance (c : Managing) (e : Tid × Choice) : Decidable (Overwrites c e) :=
  match h : e.1 with
  | .loader _ => decidable_of_iff _ (overwrites_loader_iff h)
  | .main => isFalse (not_overwrites_of_ne fun j hj => by cases h.symm.trans hj)
  | .checker => isFalse (not_overwrites_of_ne fun j hj => by cases h.symm.trans hj)
  | .writer => isFalse (not_overwrites_of_ne fun j hj => by cases h.symm.trans hj)

/-- The loader of the slot `j` has written a failure. -/
def WroteFailure (c : Managing) (j : ℕ) : Prop :=
  c.locals (.loader j) = .loader (.ending (-1)) ∨ c.locals (.loader j) = .loader (.ended (-1))

/-- A failure a loader has written is in its slot, and the starter is not about to write
there. -/
def FailuresKept (c : Managing) : Prop :=
  ∀ j, WroteFailure c j →
    c.shared.ret j = -1 ∧ ∀ k r, c.locals .main ≠ .main (.assigning k j r)

variable {c c' : Managing} {e : Tid × Choice} {es : List (Tid × Choice)}

/-! ### The check is not started before the load has returned -/

/-- The check was started only if `run` has returned. -/
def ReturnedIfChecking (c : Managing) : Prop :=
  c.shared.checking = true → ∃ r, c.locals .main = .main (.returned r)

theorem ReturnedIfChecking.step (h : ReturnedIfChecking c)
    (hstep : (managing o).machine.step c e = some c') :
  ReturnedIfChecking c'
  := by
  obtain ⟨t, a⟩ := e
  obtain ⟨m', l', hl, rfl⟩ := (managing o).machine_step_eq_some.mp hstep
  intro hc
  rw [Threads.Config.set_shared] at hc
  rcases managing_step hl with ⟨rfl, pc, pc', hpc, rfl, hs⟩ | ⟨j, rfl, pc, pc', -, rfl, hs⟩ |
    ⟨rfl, k, pc, k', pc', -, rfl, hs⟩ | ⟨rfl, -, rfl, rfl⟩
  · rw [Threads.Config.set_locals_self]
    cases hold : c.shared.checking with
    | true =>
        obtain ⟨r, hr⟩ := h hold
        rw [hpc] at hr
        obtain rfl := Local.main.inj hr
        cases hs
    | false =>
        rcases mainStep_checking hs with heq | ⟨-, -, rfl, -⟩
        · rw [heq, hold] at hc
          cases hc
        · use 0
  · rw [Threads.Config.set_locals_of_ne _ Tid.noConfusion]
    apply h
    rw [← loaderStep_checking hs, hc]
  · rw [Threads.Config.set_locals_of_ne _ Tid.noConfusion]
    apply h (checkerStep_checking hs).1
  · rw [Threads.Config.set_locals_of_ne _ Tid.noConfusion]
    apply h hc

/-- While `run` has not returned, the check was not started. -/
theorem checking_of_run (h : (managing o).machine.run (manageStart handlers) es = some c)
    {pc : MainPc} (hpc : c.locals .main = .main pc) (hr : ∀ r, pc ≠ .returned r) :
  c.shared.checking = false
  := by
  have hinv := (managing o).machine.run_invariant (I := ReturnedIfChecking)
    (fun _ _ _ ht => ht.step) h (fun hc => by cases hc)
  by_contra hc
  rw [Bool.not_eq_false] at hc
  obtain ⟨r, hr'⟩ := hinv hc
  rw [hpc] at hr'
  apply hr r (Local.main.inj hr')

/-! ### Failures that are not written over are kept -/

/-- A step of the starter keeps the failures the loaders have written. -/
theorem FailuresKept.main {m' : Manager} {pc pc' : MainPc} (h : FailuresKept c)
    (hO : (starting o handlers).Holds c) (hc : c.shared.checking = false)
    (hpc : c.locals .main = .main pc) (hs : mainStep o c.shared pc = some (m', pc')) :
  FailuresKept (c.set .main m' (.main pc'))
  := by
  intro j hj
  rw [WroteFailure, Threads.Config.set_locals_of_ne _ Tid.noConfusion] at hj
  obtain ⟨hret, hnot⟩ := h j hj
  rw [Threads.Config.set_shared, Threads.Config.set_locals_self]
  constructor
  · rw [mainStep_ret hs j, hret]
    intro k r hr
    apply hnot k r
    rw [hpc, hr]
  · intro k r hr
    obtain rfl := Local.main.inj hr
    have hspawn := mainStep_assigning hs
    subst hspawn
    have hknows := hO.own .main hc
    rw [hpc] at hknows
    have hidle : c.shared.bthreads j = .unstarted := hknows.2.2
    have hloader := hO.own (.loader j) hc
    rcases hj with hl | hl <;> rw [hl] at hloader
    · obtain ⟨k', hat, -⟩ := hloader
      rw [hat.1] at hidle
      cases hidle
    · rw [hloader.1] at hidle
      cases hidle

/-- A step of a loader that does not write a failure early keeps the failures. -/
theorem FailuresKept.loader {m' : Manager} {i : ℕ} {a : Choice} {pc pc' : LoaderPc}
    (h : FailuresKept c) (hO : (starting o handlers).Holds c)
    (hc : c.shared.checking = false) (hearly : ¬ Overwrites c (.loader i, a))
    (hpc : c.locals (.loader i) = .loader pc)
    (hs : loaderStep o i c.shared pc = some (m', pc')) :
  FailuresKept (c.set (.loader i) m' (.loader pc'))
  := by
  have hknows := hO.own (.loader i) hc
  rw [hpc] at hknows
  have ht := loaderStep_turn (hO.shared hc) hknows hs
  intro j hj
  rw [Threads.Config.set_shared, Threads.Config.set_locals_of_ne _ Tid.noConfusion]
  by_cases hij : j = i
  · subst hij
    rw [WroteFailure, Threads.Config.set_locals_self] at hj
    rcases loaderStep_wrote hs hj with ⟨rfl, rfl⟩ | ⟨rfl, rfl⟩
    · constructor
      · rw [Manager.ret_setRet, if_pos rfl]
      · intro k r hk
        apply hearly ⟨j, k, r, rfl, hpc, hk⟩
    · apply h j (Or.inl hpc)
  · rw [WroteFailure, Threads.Config.set_locals_of_ne _ (by simpa using hij)] at hj
    rw [ht.moves.ret j hij]
    apply h j hj

/-- Until the check is started, the outline holds and the failures that are not written over
are kept. -/
def Reporting (o : Outcomes) (handlers : List (Option (String × String))) (c : Managing) :
    Prop :=
  (starting o handlers).Holds c ∧ (c.shared.checking = false → FailuresKept c)

theorem Reporting.step (h : Reporting o handlers c) (hearly : ¬ Overwrites c e)
    (hstep : (managing o).machine.step c e = some c') :
  Reporting o handlers c'
  := by
  obtain ⟨hO, hkept⟩ := h
  use (starting o handlers).holds_step hO hstep
  intro hc'
  obtain ⟨t, a⟩ := e
  obtain ⟨m', l', hl, rfl⟩ := (managing o).machine_step_eq_some.mp hstep
  have hc := managing_checking hl hc'
  have hf := hkept hc
  rcases managing_step hl with ⟨rfl, pc, pc', hpc, rfl, hs⟩ | ⟨j, rfl, pc, pc', hpc, rfl, hs⟩ |
    ⟨rfl, k, pc, k', pc', -, rfl, hs⟩ | ⟨rfl, -, rfl, rfl⟩
  · apply hf.main hO hc hpc hs
  · apply hf.loader hO hc hearly hpc hs
  · rw [Threads.Config.set_shared, (checkerStep_checking hs).2] at hc'
    cases hc'
  · intro j hj
    rw [WroteFailure, Threads.Config.set_locals_of_ne _ Tid.noConfusion] at hj
    rw [Threads.Config.set_locals_of_ne _ Tid.noConfusion]
    apply hf j hj

theorem reporting_start (o : Outcomes) (handlers : List (Option (String × String))) :
  Reporting o handlers (manageStart handlers)
  := by
  use starting_start o handlers
  intro _ j hj
  rcases hj with hj | hj <;> cases hj

/-- A loader that has ended has a result. -/
theorem LoaderPc.Knows.ended {m : Manager} {j k : ℕ} {pc : LoaderPc} (h : pc.Knows o j m)
    (hj : m.bthreads j = .finished) (hk : m.dictPtr j = some k) :
  ∃ r, pc = .ended r ∧ ResultOf o k r
  := by
  cases pc with
  | ended r =>
      obtain ⟨-, k', hk', hr⟩ := h
      obtain rfl := Option.some.inj (hk.symm.trans hk')
      use r
  | _ => simp_all [Knows, LoadsAt]

/-- When all slots are joined with the result 0, nothing has failed. -/
theorem FailuresKept.not_loadFailed (h : FailuresKept c) (hO : (starting o handlers).Holds c)
    (hc : c.shared.checking = false) (hall : AllScanned o handlers c.shared)
    (hjoin : Joined c.shared handlers.length) :
  ¬ LoadFailed o handlers
  := by
  rintro ⟨k, hstart, hfail⟩
  obtain ⟨i, hscan⟩ := hall
  obtain ⟨j, hj, hk⟩ := hscan.all hstart.lt hstart
  obtain ⟨hret, hdone⟩ := hjoin j (Nat.lt_of_lt_of_le hj hscan.index)
  by_cases hzero : o.start k = 0
  · have hbegun := hscan.begun hj hk hzero
    have hfin : c.shared.bthreads j = .finished := by
      cases hb : c.shared.bthreads j with
      | unstarted => apply absurd hb hbegun
      | running => apply absurd hb hdone
      | finished => rfl
    have hown := hO.own (.loader j) hc
    cases hl : c.locals (.loader j) with
    | loader pc =>
        rw [hl] at hown
        obtain ⟨r, rfl, hr⟩ := LoaderPc.Knows.ended hown hfin hk
        have hload : o.load k = false := by
          rcases hfail with hne | hload
          · apply absurd hzero hne
          · apply hload
        obtain rfl : r = -1 := by simpa [ResultOf, hload] using hr
        rw [(h j (Or.inr hl)).1] at hret
        cases hret
    | _ =>
        rw [hl] at hown
        cases hown
  · rw [hscan.kept hj hk hzero] at hret
    apply hzero hret

/-- A step of the manager does not take back the start of the check. -/
theorem checking_step (hc : c.shared.checking = true)
    (hstep : (managing o).machine.step c e = some c') :
  c'.shared.checking = true
  := by
  obtain ⟨t, a⟩ := e
  obtain ⟨m', l', hl, rfl⟩ := (managing o).machine_step_eq_some.mp hstep
  by_contra hoff
  rw [Threads.Config.set_shared, Bool.not_eq_true] at hoff
  rw [managing_checking hl hoff] at hc
  cases hc

/-- A state that a run passes through before the check is started. -/
theorem checking_of_isPrefix {fs gs : List (Tid × Choice)} {t : Managing}
    (h : (managing o).machine.run (manageStart handlers) (fs ++ gs) = some c)
    (ht : (managing o).machine.run (manageStart handlers) fs = some t)
    (hc : c.shared.checking = false) :
  t.shared.checking = false
  := by
  rw [Machine.run_append, ht, Option.bind_some] at h
  by_contra hne
  rw [Bool.not_eq_false] at hne
  have hlater := (managing o).machine.run_invariant (I := fun c => c.shared.checking = true)
    (fun _ _ _ => checking_step) h hne
  rw [hlater] at hc
  cases hc

/-- A registration of `offer_bid_ratio`. -/
def oneHander : List (Option (String × String)) :=
  [some ("offer_bid_ratio", "./conf/dicts/offer_bid_ratio.txt")]

/-- Every bthread starts, no dictionary loads, and no file changes. -/
def noLoad : Outcomes where
  cfunc := fun _ => true
  start := fun _ => 0
  load := fun _ => false
  thread := true
  files := fun _ _ => some 100

/-- A choice for the steps that leave nothing open. -/
def noChoice : Choice := ⟨0, false, false, 0, ""⟩

/-- The starter starts the bthread, which runs to its end before the start returns; then the
starter goes on. -/
def earlyEnd : List (Tid × Choice) :=
  List.replicate 5 (.main, noChoice) ++ List.replicate 7 (.loader 0, noChoice) ++
    List.replicate 5 (.main, noChoice)

theorem oneHander_startable :
  Startable noLoad oneHander 0
  := by
  refine ⟨_, rfl, ?_, rfl⟩
  decide

/-- The starter starts the bthread and writes the result of the start; then the bthread runs to
its end, and the starter goes on. -/
def lateFailure : List (Tid × Choice) :=
  List.replicate 6 (.main, noChoice) ++ List.replicate 7 (.loader 0, noChoice) ++
    List.replicate 3 (.main, noChoice)

end Dict
