import CppFreshman.Dict.Load

/-!
# The bthreads that are joined

The loop of `parallel_sync_load` over `load_args` returns -1 at the first slot that holds a
failure, and the bthreads of the slots behind it are not joined.  Their loaders go on with
pointers into `load_args`, which is destroyed.  So the bthreads started have all been joined
when `parallel_sync_load` returns exactly if no bthread can be started for a handler behind the
one whose failure is found (`returnsJoined_iff`).
-/

namespace Dict

/-- The number of slots whose bthreads the starter has joined. -/
def MainPc.joined : MainPc → ℕ
  | .joining j => j
  | .testing j => j + 1
  | _ => 0

/-- If the step is the one with which `parallel_sync_load` returns, the bthreads started have
been joined, and none of them runs. -/
def ReturnsJoined (o : Outcomes) (c : Managing) (e : Tid × Choice) : Prop :=
  e.1 = .main → ∀ pc m' r, c.locals .main = .main pc →
    mainStep o c.shared pc = some (m', .loaded r) →
      ∀ i, c.shared.bthreads i ≠ .unstarted → i < pc.joined ∧ c.shared.bthreads i ≠ .running

/-- If the step is the one with which the starter finds a failure, no bthread can be started for
a handler behind the one that has failed. -/
def FailsLast (o : Outcomes) (handlers : List (Option (String × String))) (c : Managing)
    (e : Tid × Choice) : Prop :=
  e.1 = .main → ∀ j k, c.locals .main = .main (.testing j) → c.shared.ret j ≠ 0 →
    c.shared.dictPtr j = some k → ∀ k', k < k' → Startable o handlers k' → o.start k' ≠ 0

variable {o : Outcomes} {handlers : List (Option (String × String))} {c c' : Managing}
  {e : Tid × Choice} {es : List (Tid × Choice)}

/-- The slots are in the order of the handlers. -/
def SlotsOrdered (m : Manager) : Prop :=
  ∀ i j k k', i < j → m.dictPtr i = some k → m.dictPtr j = some k' → k < k'

theorem SlotsOrdered.congr {m m' : Manager} (h : SlotsOrdered m) (hd : m'.dictPtr = m.dictPtr) :
  SlotsOrdered m'
  := by
  intro i j k k' hij
  rw [hd]
  apply h i j k k' hij

/-- The next slot is bound to a handler behind those of the slots before it. -/
theorem SlotsOrdered.bind {m : Manager} {k n : ℕ} (h : SlotsOrdered m)
    (hscan : Scanned o handlers m k n n) :
  SlotsOrdered (m.bind n k)
  := by
  intro i j k₁ k₂ hij hi hj
  rw [Manager.dictPtr_bind] at hi hj
  rcases Nat.lt_trichotomy j n with hjn | rfl | hnj
  · rw [if_neg (Nat.ne_of_lt (Nat.lt_trans hij hjn))] at hi
    rw [if_neg (Nat.ne_of_lt hjn)] at hj
    apply h i j k₁ k₂ hij hi hj
  · rw [if_neg (Nat.ne_of_lt hij)] at hi
    rw [if_pos rfl] at hj
    obtain rfl := Option.some.inj hj
    apply hscan.before hij hi
  · rw [if_neg (Nat.ne_of_gt hnj), (hscan.fresh (Nat.le_of_lt hnj)).1] at hj
    cases hj

/-- The outline of the manager and the order of the slots, until the check is started. -/
def Ordering (o : Outcomes) (handlers : List (Option (String × String))) (c : Managing) :
    Prop :=
  (starting o handlers).Holds c ∧ (c.shared.checking = false → SlotsOrdered c.shared)

theorem Ordering.step (h : Ordering o handlers c)
    (hstep : (managing o).machine.step c e = some c') :
  Ordering o handlers c'
  := by
  obtain ⟨hO, hordered⟩ := h
  use (starting o handlers).holds_step hO hstep
  intro hc'
  obtain ⟨t, a⟩ := e
  obtain ⟨m', l', hl, rfl⟩ := (managing o).machine_step_eq_some.mp hstep
  have hc := managing_checking hl hc'
  have hslots := hordered hc
  rw [Threads.Config.set_shared] at hc' ⊢
  rcases managing_step hl with ⟨rfl, pc, pc', hpc, rfl, hs⟩ | ⟨j, rfl, pc, pc', hpc, rfl, hs⟩ |
    ⟨rfl, k, pc, k', pc', -, rfl, hs⟩ | ⟨rfl, -, rfl, rfl⟩
  · cases mainStep_move hs with
    | @bind k n =>
        have hknows := hO.own .main hc
        rw [hpc] at hknows
        apply hslots.bind hknows.1
    | assign =>
        apply hslots.congr
        funext i
        apply Manager.dictPtr_setRet
    | _ => apply hslots.congr rfl
  · have hknows := hO.own (.loader j) hc
    rw [hpc] at hknows
    have hmoves := (loaderStep_turn (hO.shared hc) hknows hs).moves
    apply hslots.congr hmoves.dictPtr
  · rw [(checkerStep_checking hs).2] at hc'
    cases hc'
  · apply hslots.congr rfl

theorem ordering_of_run (h : (managing o).machine.run (manageStart handlers) es = some c) :
  Ordering o handlers c
  := by
  apply (managing o).machine.run_invariant (fun _ _ _ ht => ht.step) h
  use starting_start o handlers
  intro _ i j k k' _ hk
  cases hk

/-- The bthread of a slot has begun exactly if it could be started for the handler of the
slot. -/
theorem begun_iff {m : Manager} (hs : SlotsBound o handlers m) (hall : AllScanned o handlers m)
    {i k : ℕ} (hk : m.dictPtr i = some k) :
  m.bthreads i ≠ .unstarted ↔ o.start k = 0
  := by
  obtain ⟨n, hscan⟩ := hall
  constructor
  · intro hi
    obtain ⟨k', hk', hzero⟩ := hs.started hi
    obtain rfl := Option.some.inj (hk.symm.trans hk')
    apply hzero
  · intro hzero
    apply hscan.begun _ hk hzero
    by_contra hge
    rw [(hscan.fresh (Nat.not_lt.mp hge)).1] at hk
    cases hk

/-- The starter returns from its second loop when it finds a failure. -/
theorem returnsJoined_testing {j : ℕ} {a : Choice} (hO : (starting o handlers).Holds c)
    (hordered : SlotsOrdered c.shared) (hc : c.shared.checking = false)
    (hpc : c.locals .main = .main (.testing j)) :
  ReturnsJoined o c (.main, a) ↔ FailsLast o handlers c (.main, a)
  := by
  have hknows := hO.own .main hc
  rw [hpc] at hknows
  obtain ⟨hall, hjoined, hdone⟩ := hknows
  have hbound := hO.shared hc
  constructor
  · intro h _ j' k hpc' hret hk k' hlt hstart hzero
    obtain rfl := MainPc.testing.inj (Local.main.inj (hpc.symm.trans hpc'))
    obtain ⟨n, hscan⟩ := hall
    obtain ⟨i, -, hik⟩ := hscan.all hstart.lt hstart
    have hbegun := (begun_iff hbound ⟨n, hscan⟩ hik).mpr hzero
    have hloaded : mainStep o c.shared (.testing j) = some (c.shared, .loaded (-1)) := by
      rw [Manager.ret] at hret
      rw [mainStep, if_pos hret]
    have hle := (h rfl _ _ _ hpc hloaded i hbegun).1
    rcases Nat.lt_succ_iff_lt_or_eq.mp hle with hij | rfl
    · have := hordered i j k' k hij hik hk
      omega
    · obtain rfl := Option.some.inj (hik.symm.trans hk)
      apply Nat.lt_irrefl _ hlt
  · intro h _ pc m' r hpc' hstep i hi
    obtain rfl := Local.main.inj (hpc.symm.trans hpc')
    have hret : c.shared.ret j ≠ 0 := by
      intro hzero
      rw [Manager.ret] at hzero
      rw [mainStep, hzero, if_neg (by simp)] at hstep
      cases (Prod.mk.inj (Option.some.inj hstep)).2
    obtain ⟨k, hk, -⟩ := hbound.failed hret
    obtain ⟨k', hik, hzero⟩ := hbound.started hi
    have hle : i ≤ j := by
      by_contra hji
      apply h rfl j k hpc hret hk k' (hordered j i k k' (Nat.not_le.mp hji) hk hik)
        (hbound.bound hik).1 hzero
    constructor
    · apply Nat.lt_succ_of_le hle
    · rcases Nat.lt_or_eq_of_le hle with hlt | rfl
      · apply (hjoined i hlt).2
      · apply hdone

/-- Elsewhere the starter returns when all bthreads that were started have been joined. -/
theorem returnsJoined_of_ne {pc : MainPc} {a : Choice} (hO : (starting o handlers).Holds c)
    (hc : c.shared.checking = false) (hpc : c.locals .main = .main pc)
    (hne : ∀ j, pc ≠ .testing j) :
  ReturnsJoined o c (.main, a)
  := by
  intro _ pc' m' r hpc' hstep i hi
  obtain rfl := Local.main.inj (hpc.symm.trans hpc')
  have hknows := hO.own .main hc
  rw [hpc] at hknows
  have hsize := (hO.shared hc).size
  cases pc with
  | entering =>
      have hscan : Scanned o handlers c.shared 0 0 0 := hknows
      apply absurd (hscan.fresh (Nat.zero_le i)).2 hi
  | scanning k n =>
      rw [mainStep] at hstep
      split at hstep
      · cases (Prod.mk.inj (Option.some.inj hstep)).2
      · split at hstep
        · cases (Prod.mk.inj (Option.some.inj hstep)).2
        · have := (Prod.mk.inj (Option.some.inj hstep)).2
          split at this <;> cases this
  | creating k n idx =>
      rw [mainStep] at hstep
      split at hstep <;> cases (Prod.mk.inj (Option.some.inj hstep)).2
  | joining j =>
      obtain ⟨⟨n, hscan⟩, hjoined⟩ := hknows
      have hlt : i < n := by
        by_contra hge
        apply hi (hscan.fresh (Nat.not_lt.mp hge)).2
      have hle : c.shared.size ≤ j := by
        by_contra hlt
        rw [mainStep, if_neg hlt] at hstep
        split at hstep
        · cases hstep
        · cases (Prod.mk.inj (Option.some.inj hstep)).2
      have hij : i < j := by
        have := hscan.index
        omega
      use hij, (hjoined i hij).2
  | testing j => apply absurd rfl (hne j)
  | returned r => cases hstep
  | loaded r =>
      rw [mainStep] at hstep
      have := Option.some.inj hstep
      split at this <;> cases (Prod.mk.inj this).2
  | _ => cases (Prod.mk.inj (Option.some.inj hstep)).2

/-- Registrations of two dictionaries. -/
def twoHanders : List (Option (String × String)) :=
  [some ("offer_bid_ratio", "./conf/dicts/offer_bid_ratio.txt"),
    some ("common_dict_info_offer", "./conf/dicts/offer_bid_ratio.txt")]

/-- Both bthreads are started and the first one fails while the second has not run yet. -/
def firstFails : List (Tid × Choice) :=
  List.replicate 12 (.main, noChoice) ++ List.replicate 7 (.loader 0, noChoice) ++
    List.replicate 2 (.main, noChoice)

end Dict
