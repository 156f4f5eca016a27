import CppFreshman.Machine.Atomic
import CppFreshman.Queue.Drain

/-!
# The lock-free queue is linearizable

Whatever the interleaving of any number of threads that use `LockFreeQueue`, each `input` and each
`output` can be thought of as taking effect at one instant between its call and its return: an
`input` when it has swapped `next` of the last node, an `output` when it has swapped `head`, or
when it has found the pointer of the first node null.  In the order of these instants they are the
operations of a queue that is used by one thread (`history_linearizable`).
-/

namespace LockFreeQueue

variable {ι : Type*} {s s' : State ι} {i : ι}

/-- What a call returns. -/
inductive Reply where
  | input (ok : Bool)
  | output (result : String)
  deriving DecidableEq

/-- A queue of strings: `output` returns the empty string if there is none. -/
def queue : Atomic.Object (List String) Call Reply where
  apply
    | values, .input data => (values ++ [data], .input true)
    | [], .output => ([], .output "")
    | value :: values, .output => (values, .output value)

/-- What is seen of a step of a thread. -/
def shown (a : Call) (l l' : Pc) : List (Atomic.Act Call Reply) :=
  if l.returned then [.call a]
  else
    match l' with
    | .idle => [.ret (.input true)]
    | .answered _ result => [.ret (.output result)]
    | _ => []

theorem shown_of_returned (a : Call) {l : Pc} (l' : Pc) (hl : l.returned = true) :
  shown a l l' = [.call a]
  := by
  unfold shown
  rw [if_pos hl]

theorem shown_of_not_returned (a : Call) {l l' : Pc} (hl : l.returned = false)
    (hl' : l'.returned = false) :
  shown a l l' = []
  := by
  unfold shown
  rw [hl]
  cases l' with
  | idle => cases hl'
  | answered node result => cases hl'
  | _ => rfl

/-- Where a thread stands in its call. -/
def Pc.status (s : State ι) : Pc → Atomic.Status Call Reply
  | .idle => .idle
  | .answered _ _ => .idle
  | .readingTail data _ => .called (.input data)
  | .readingNext data _ _ => .called (.input data)
  | .linking data _ _ => .called (.input data)
  | .rereading data _ _ => .called (.input data)
  | .helping data _ _ _ => .called (.input data)
  | .swinging _ _ => .done (.input true)
  | .readingHead => .called .output
  | .readingFirst _ => .called .output
  | .removing _ _ => .called .output
  | .copying next => .done (.output (s.nodes next).logInfo)
  | .crashed => .idle

/-! ### The values left -/

theorem Chained.left_link (h : Chained s) (data : String) (cur node : ℕ) :
  (s.link data cur node).left = s.left ++ [data]
  := by
  have hleft := h.ordered.left_link data cur node
  rw [← view_link] at hleft
  apply hleft

theorem left_swapTail (s : State ι) (cur : ℕ) (next : Option ℕ) :
  (s.swapTail cur next).left = s.left
  := by
  obtain ⟨tail, htail⟩ := swapTail_eq s cur next
  rw [htail]
  rfl

/-- The node removed has the first of the values. -/
theorem Chained.left_remove {first next : ℕ} (h : Chained s) (hhead : s.head = some first)
    (hf : s.view.Follows first next) (i : ι) :
  s.left = (s.nodes next).logInfo :: (s.remove i next).left
  := by
  have hleft := h.ordered.left_advance hhead hf
  rw [← view_remove s i] at hleft
  apply hleft

/-! ### The instants of the calls -/

/-- The instants that go with a step, which lead from the values and the status before it to those
after it and of which the same is seen. -/
def Instants (a : Call) (s s' : State ι) (l l' : Pc) : Prop :=
  ∃ is, queue.alone.run (s.left, l.status s) is = some (s'.left, l'.status s') ∧
    is.flatMap Atomic.Instant.seen = shown a l l'

/-- The step of a thread that stays where it is in its call. -/
theorem Instants.stay {a : Call} {l l' : Pc} (hl : l.returned = false)
    (hl' : l'.returned = false) (hleft : s'.left = s.left) (hstatus : l'.status s' = l.status s) :
  Instants a s s' l l'
  := by
  use []
  rw [hleft, hstatus, shown_of_not_returned a hl hl']
  exact ⟨rfl, rfl⟩

theorem call_instants {a : Call} {l : Pc} (hl : l.returned = true) :
  Instants a s (call s a).1 l (call s a).2
  := by
  have hidle : l.status s = .idle := by
    cases l with
    | idle => rfl
    | answered node result => rfl
    | _ => cases hl
  use [.act (.call a)]
  rw [hidle, shown_of_returned a _ hl]
  cases a with
  | input data => exact ⟨rfl, rfl⟩
  | output => exact ⟨rfl, rfl⟩

theorem step_instants {a : Call} {l l' : Pc} (h : Chained s) (hk : l.Knows i s)
    (hstep : (threads ι).step i a s l = some (s', l')) :
  Instants a s s' l l'
  := by
  cases l with
  | idle =>
      obtain ⟨rfl, rfl⟩ := Prod.mk.inj (Option.some.inj hstep)
      apply call_instants rfl
  | answered node result =>
      obtain ⟨rfl, rfl⟩ := Prod.mk.inj (Option.some.inj hstep)
      apply call_instants rfl
  | readingTail data node =>
      obtain ⟨rfl, rfl⟩ := Prod.mk.inj (Option.some.inj hstep)
      apply Instants.stay rfl rfl rfl rfl
  | readingNext data node cur =>
      obtain ⟨-, c, rfl, -⟩ := hk
      obtain ⟨rfl, rfl⟩ := Prod.mk.inj (Option.some.inj hstep)
      split
      · apply Instants.stay rfl rfl rfl rfl
      · apply Instants.stay rfl rfl rfl rfl
  | linking data node cur =>
      have hr := Option.some.inj hstep
      split at hr
      · obtain ⟨rfl, rfl⟩ := Prod.mk.inj hr
        use [.effect]
        rw [h.left_link]
        exact ⟨rfl, rfl⟩
      · obtain ⟨rfl, rfl⟩ := Prod.mk.inj hr
        apply Instants.stay rfl rfl rfl rfl
  | rereading data node cur =>
      obtain ⟨rfl, rfl⟩ := Prod.mk.inj (Option.some.inj hstep)
      apply Instants.stay rfl rfl rfl rfl
  | helping data node cur next =>
      obtain ⟨rfl, rfl⟩ := Prod.mk.inj (Option.some.inj hstep)
      apply Instants.stay rfl rfl (left_swapTail s cur next) rfl
  | swinging node cur =>
      obtain ⟨rfl, rfl⟩ := Prod.mk.inj (Option.some.inj hstep)
      use [.act (.ret (.input true))]
      rw [left_swapTail]
      exact ⟨rfl, rfl⟩
  | readingHead =>
      obtain ⟨rfl, rfl⟩ := Prod.mk.inj (Option.some.inj hstep)
      apply Instants.stay rfl rfl rfl rfl
  | readingFirst first =>
      obtain ⟨k, f, hk, rfl, hf⟩ := hk
      obtain ⟨rfl, rfl⟩ := Prod.mk.inj (Option.some.inj hstep)
      split
      · next hnull =>
          use [.effect, .act (.ret (.output ""))]
          have hleft : s.left = [] := h.ordered.left_of_null hk hf hnull
          rw [hleft]
          exact ⟨rfl, rfl⟩
      · apply Instants.stay rfl rfl rfl rfl
  | removing first next =>
      have hr := Option.some.inj hstep
      split at hr
      · next hhead =>
          obtain ⟨rfl, rfl⟩ := Prod.mk.inj hr
          use [.effect]
          rw [h.left_remove hhead hk i]
          exact ⟨rfl, rfl⟩
      · obtain ⟨rfl, rfl⟩ := Prod.mk.inj hr
        apply Instants.stay rfl rfl rfl rfl
  | copying next =>
      obtain ⟨rfl, rfl⟩ := Prod.mk.inj (Option.some.inj hstep)
      use [.act (.ret (.output (s.nodes next).logInfo))]
      constructor
      · rw [Machine.run_cons]
        simp [Atomic.Object.alone, Atomic.Object.step, Pc.status]
      · rfl
  | crashed => cases hk

/-- Where a thread stands in its call is not changed by what another one does. -/
theorem Pc.Knows.status_eq {l : Pc} (hk : l.Knows i s) (h : Chained s) (h' : Chained s')
    (hg : Grows s s') :
  l.status s' = l.status s
  := by
  cases l with
  | copying next =>
      obtain ⟨data, ht⟩ := hk
      rw [Pc.status, Pc.status, h.logInfo_of_took ht, h'.logInfo_of_took (hg.took ht)]
  | _ => rfl

/-! ### The histories -/

variable [DecidableEq ι]

/-- How the steps of the threads explain the instants of the calls. -/
def explanation (ι : Type*) [DecidableEq ι] : Atomic.Explanation (threads ι) queue shown where
  inv := (queueing ι).Holds
  value := State.left
  status s l := l.status s
  keeps := by
    intro c e c' hO hstep
    apply (queueing ι).holds_step hO hstep
  instants := by
    intro c i a s l hO hstep
    apply step_instants hO.shared (hO.own i) hstep
  others := by
    intro c i a s l hO hstep j _
    have ht := step_turn hO.shared (hO.own i) hstep
    apply Pc.Knows.status_eq (hO.own j) hO.shared ht.chained ht.grows

/-- The calls and returns of a run. -/
def history (es : List (ι × Call)) : List (ι × Atomic.Act Call Reply) :=
  (threads ι).machine.trace (Atomic.observe shown) (start ι) es

theorem linearizable {c : Threads.Config ι (State ι) Pc} {es : List (ι × Call)}
    (hrun : (threads ι).machine.run (start ι) es = some c) :
  Atomic.Linearizable queue [] (history es)
  := by
  apply (explanation ι).linearizable (queueing_start ι) _ hrun
  intro i
  rfl

/-- Take any number of threads with any calls of `input` and `output` and any interleaving of their
steps.  What is seen of it is a history of a queue whose operations take effect at one instant: the
operations are in an order in which one thread could have carried them out on a queue, and in which
those that have returned by any time come before those that are called later. -/
theorem history_linearizable {c : Threads.Config ι (State ι) Pc} {es : List (ι × Call)}
    (hrun : (threads ι).machine.run (start ι) es = some c) :
  Atomic.Linearizable queue [] (history es) ∧
    ∃ ops values, queue.Leads [] (ops.map Prod.snd) values ∧
      ∀ h, h <+: history es → ∃ ops', ops' <+: ops ∧ ∀ i,
        Atomic.returns i h <+: (Atomic.own i ops').map Prod.snd ∧
        (Atomic.own i ops').map Prod.fst <+: Atomic.calls i h
  := by
  have hlin := linearizable hrun
  exact ⟨hlin, hlin.sequential⟩

/-- The history of the run in which `output` overtakes an `input` that has not returned. -/
theorem history_linearizable_overtaking :
  Atomic.Linearizable queue [] (history overtaking) ∧
    ∃ ops values, queue.Leads [] (ops.map Prod.snd) values ∧
      ∀ h, h <+: history overtaking → ∃ ops', ops' <+: ops ∧ ∀ i,
        Atomic.returns i h <+: (Atomic.own i ops').map Prod.snd ∧
        (Atomic.own i ops').map Prod.fst <+: Atomic.calls i h
  := by
  have hrun : ((threads ℕ).machine.run (start ℕ) overtaking).isSome = true := by
    decide +kernel
  obtain ⟨c, hc⟩ := Option.isSome_iff_exists.mp hrun
  apply history_linearizable hc

end LockFreeQueue
