import CppFreshman.Machine.Alone
import CppFreshman.Queue.Fifo

/-!
# Progress of the lock-free queue

The nodes that are reached from the sentinel form one chain, a pointer of a node that is set is
never changed, `head` and `tail` only move forward along the chain, and `tail` is its last node
or the one before it.  So a thread that calls `input` while all others are suspended goes through
its loop at most twice, and one that calls `output` goes through its loop once (`tail_lags`).
-/

namespace LockFreeQueue

variable {ι : Type*} {s s' s'' : State ι} {i : ι}

/-! ### The chain and its ends -/

/-- The nodes that are reached from the sentinel form one chain, without cycles and with a null
pointer at its end; `head` and `tail` are on it, and `tail` is its last node or the one
before. -/
structure Trails (s : State ι) : Prop where
  reached : ∀ n, Reaches s.next (some 0) n ↔ n ∈ s.chain
  leads : Leads s.next none s.chain
  nodup : s.chain.Nodup
  head : ∃ k : ℕ, s.head = s.chain[k]? ∧ k < s.chain.length
  tail : ∃ k : ℕ, s.tail = s.chain[k]? ∧ (k + 1 = s.chain.length ∨ k + 2 = s.chain.length)

theorem Chained.trails (h : Chained s) :
  Trails s
  := by
  constructor
  · intro n
    apply h.leads.reaches_iff
  · apply h.leads
  · apply h.ordered.nodup
  · use s.removed.length, h.head
    apply h.length_removed
  · obtain ⟨t, ht, hlt, hle⟩ := h.tail
    use t, ht
    omega

/-- A pointer to a node on the chain that moves to a node no further back. -/
def Onward (p : State ι → Option ℕ) (s s' : State ι) : Prop :=
  ∀ k n : ℕ, s.chain[k]? = some n → p s = some n →
    ∃ k' n' : ℕ, k ≤ k' ∧ s'.chain[k']? = some n' ∧ p s' = some n'

/-- What happens between two states: the chain is extended at its end, the pointer of a node
that is set stays, and `head` and `tail` move forward. -/
structure Advances (s s' : State ι) : Prop where
  made : s.made ≤ s'.made
  next : ∀ n m, n < s.made → s.next n = some m → s'.next n = some m
  chain : s.chain <+: s'.chain
  head : Onward State.head s s'
  tail : Onward State.tail s s'

theorem Onward.refl (p : State ι → Option ℕ) (s : State ι) :
  Onward p s s
  := fun k n hk hp => ⟨k, n, Nat.le_refl k, hk, hp⟩

theorem Onward.trans {p : State ι → Option ℕ} (h : Onward p s s') (h' : Onward p s' s'') :
  Onward p s s''
  := by
  intro k n hk hp
  obtain ⟨k', n', hle, hk', hp'⟩ := h k n hk hp
  obtain ⟨k'', n'', hle', hk'', hp''⟩ := h' k' n' hk' hp'
  exact ⟨k'', n'', hle.trans hle', hk'', hp''⟩

theorem Advances.refl (s : State ι) :
  Advances s s
  := ⟨Nat.le_refl _, fun _ _ _ => id, List.prefix_refl _, Onward.refl _ s, Onward.refl _ s⟩

theorem Advances.trans (h : Advances s s') (h' : Advances s' s'') :
  Advances s s''
  := by
  constructor
  · apply h.made.trans h'.made
  · intro n m hn hm
    apply h'.next n m (hn.trans_le h.made)
    apply h.next n m hn hm
  · apply h.chain.trans h'.chain
  · apply h.head.trans h'.head
  · apply h.tail.trans h'.tail

/-! ### What a step does -/

/-- A step makes nodes, and changes no pointer that is set. -/
theorem Moves.next {a : Call} {l l' : Pc} (h : Moves i a s l s' l') :
  s.made ≤ s'.made ∧ ∀ n m, n < s.made → s.next n = some m → s'.next n = some m
  := by
  cases h with
  | read _ _ => exact ⟨Nat.le_refl _, fun _ _ _ => id⟩
  | @new data _ _ =>
      use Nat.le_succ s.made
      intro n m hn hm
      have hnew := LinkedQueue.next_new s.view data none (Nat.ne_of_lt hn)
      rw [← view_new] at hnew
      apply hnew.trans hm
  | @swap _ cur next _ _ =>
      obtain ⟨tail, htail⟩ := swapTail_eq s cur next
      rw [htail]
      exact ⟨Nat.le_refl _, fun _ _ _ => id⟩
  | @link data cur node _ null =>
      use Nat.le_refl _
      intro n m _ hm
      have hlink := LinkedQueue.next_link s.view data cur node
      rw [← view_link] at hlink
      apply (congrFun hlink n).trans
      rw [Function.update_of_ne]
      · apply hm
      · rintro rfl
        cases hm.symm.trans null
  | remove _ _ => exact ⟨Nat.le_refl _, fun _ _ _ => id⟩

/-- A step moves the ends of the chain forward. -/
theorem step_advances {a : Call} {l l' : Pc} (h : Chained s) (hk : l.Knows i s)
    (hstep : (threads ι).step i a s l = some (s', l')) :
  Advances s s'
  := by
  have ht := step_turn h hk hstep
  obtain ⟨hmade, hnext⟩ := (step_moves hk hstep).next
  constructor
  · apply hmade
  · apply hnext
  · apply ht.grows.view.chain_isPrefix
  · intro k n hn hhead
    have hpos := h.head
    rw [hhead] at hpos
    obtain rfl := h.ordered.position hn hpos.symm
    have hlt := ht.chained.length_removed
    have hlast := List.getElem?_eq_getElem hlt
    use s'.removed.length, s'.chain[s'.removed.length], ht.grows.removed.length_le, hlast
    rw [ht.chained.head, hlast]
  · intro k n hn htail
    obtain ⟨hlt, -⟩ := List.getElem?_eq_some_iff.mp hn
    obtain ⟨k', t, hk', hle, hlt', ht'⟩ :=
      ht.grows.view.tail n ⟨k, k, hn, Nat.le_refl k, hlt, htail.trans hn.symm⟩
    obtain rfl := ht.chained.ordered.position (ht.grows.view.chain hn) hk'
    have hlast := List.getElem?_eq_getElem hlt'
    exact ⟨t, _, hle, hlast, ht'.trans hlast⟩

/-! ### Threads alone -/

/-- The thread is at the head of the loop of its call. -/
def Pc.atLoop : Pc → Bool
  | .readingTail _ _ => true
  | .readingHead => true
  | _ => false

/-- In a call the next step of a thread is determined. -/
theorem step_choice (a a' : Call) (s : State ι) {l : Pc} (h : l.returned = false) :
  (threads ι).step i a s l = (threads ι).step i a' s l
  := by
  cases l with
  | idle => cases h
  | answered node result => cases h
  | readingNext data node cur => cases cur <;> rfl
  | readingFirst first => cases first <;> rfl
  | _ => rfl

/-- The thread `i` takes steps alone from `s` and `l` until its call returns in `s'` with `l'`, and
begins its loop `k` times. -/
def Alone (i : ι) (s : State ι) (l : Pc) (k : ℕ) (s' : State ι) (l' : Pc) : Prop :=
  (threads ι).Alone Pc.returned Pc.atLoop i s l k s' l'

theorem Alone.unique {l l' m : Pc} {k k' : ℕ} (h : Alone i s l k s' l')
    (h' : Alone i s l k' s'' m) :
  k = k' ∧ s' = s'' ∧ l' = m
  := by
  apply Threads.Alone.unique h _ h'
  intro a a' s l hl
  apply step_choice a a' s hl

section Steps

variable (data : String) (node : ℕ) {cur first next : ℕ}

/-- The last step of `input`. -/
theorem alone_swinging (s : State ι) :
  Alone i s (.swinging node cur) 0 (s.swapTail cur (some node)) .idle
  := by
  apply Threads.Alone.pass (a := .output) rfl rfl rfl
  apply Threads.Alone.stop rfl

/-- A round of the loop of `input` where `tail` is the last node. -/
theorem alone_last (htail : s.tail = some cur) (hnull : s.next cur = none) :
  Alone i s (.readingTail data node) 1
    ((s.link data cur node).swapTail cur (some node)) .idle
  := by
  have hnull' : (s.nodes cur).next = none := hnull
  have hread : (threads ι).step i .output s (.readingNext data node (some cur)) =
      some (s, .linking data node cur) := by
    simp [threads, hnull']
  have hlink : (threads ι).step i .output s (.linking data node cur) =
      some (s.link data cur node, .swinging node cur) := by
    simp [threads, hnull']
  apply Threads.Alone.head (a := .output) rfl rfl rfl
  rw [htail]
  apply Threads.Alone.pass rfl rfl hread
  apply Threads.Alone.pass rfl rfl hlink
  apply alone_swinging

/-- The loop of `input` where `tail` is the node before the last one. -/
theorem alone_lagging (htail : s.tail = some cur) (hnext : s.next cur = some next)
    (hnull : s.next next = none) :
  ∃ s', Alone i s (.readingTail data node) 2 s' .idle
  := by
  have hnext' : (s.nodes cur).next = some next := hnext
  have hread : (threads ι).step i .output s (.readingNext data node (some cur)) =
      some (s, .rereading data node cur) := by
    simp [threads, hnext']
  have hreread : (threads ι).step i .output s (.rereading data node cur) =
      some (s, .helping data node cur (some next)) := by
    simp [threads, hnext']
  have hswap : s.swapTail cur (some next) = { s with tail := some next } := by
    rw [State.swapTail, if_pos htail]
  have hlast := alone_last (i := i) (s := { s with tail := some next }) data node rfl hnull
  rw [← hswap] at hlast
  use ((s.swapTail cur (some next)).link data next node).swapTail next (some node)
  apply Threads.Alone.head (a := .output) rfl rfl rfl
  rw [htail]
  apply Threads.Alone.pass rfl rfl hread
  apply Threads.Alone.pass rfl rfl hreread
  apply Threads.Alone.pass (a := .output) rfl rfl rfl
  apply hlast

/-- The loop of `output` where nothing follows `head`. -/
theorem alone_empty (hhead : s.head = some first) (hnull : s.next first = none) :
  Alone i s .readingHead 1 s (.answered none "")
  := by
  have hnull' : (s.nodes first).next = none := hnull
  have hread : (threads ι).step i .output s (.readingFirst (some first)) =
      some (s, .answered none "") := by
    simp [threads, hnull']
  apply Threads.Alone.head (a := .output) rfl rfl rfl
  rw [hhead]
  apply Threads.Alone.pass rfl rfl hread
  apply Threads.Alone.stop rfl

/-- The loop of `output` where a node follows `head`. -/
theorem alone_removing (hhead : s.head = some first) (hnext : s.next first = some next) :
  Alone i s .readingHead 1 (s.remove i next) (.answered (some next) (s.nodes next).logInfo)
  := by
  have hnext' : (s.nodes first).next = some next := hnext
  have hread : (threads ι).step i .output s (.readingFirst (some first)) =
      some (s, .removing first next) := by
    simp [threads, hnext']
  have hremove : (threads ι).step i .output s (.removing first next) =
      some (s.remove i next, .copying next) := by
    simp [threads, hhead]
  apply Threads.Alone.head (a := .output) rfl rfl rfl
  rw [hhead]
  apply Threads.Alone.pass rfl rfl hread
  apply Threads.Alone.pass rfl rfl hremove
  apply Threads.Alone.pass (a := .output) rfl rfl rfl
  apply Threads.Alone.stop rfl

end Steps

section Calls

variable [DecidableEq ι] {c : Threads.Config ι (State ι) Pc}

/-- A thread that is between two calls may start any one. -/
theorem step_call (h : (c.locals i).returned = true) (a : Call) :
  (threads ι).machine.step c (i, a) = some (c.set i (call c.shared a).1 (call c.shared a).2)
  := by
  apply (threads ι).machine_step_eq_some.mpr
  use (call c.shared a).1, (call c.shared a).2
  constructor
  · cases hl : c.locals i with
    | idle => rfl
    | answered node result => rfl
    | _ =>
        rw [hl] at h
        cases h
  · rfl

/-- The thread `i` can start the call `a`, and alone comes to the end of it, in one way and with
at most `n` rounds of its loop. -/
def FinishesWithin (n : ℕ) (i : ι) (c : Threads.Config ι (State ι) Pc) (a : Call) : Prop :=
  ∃ d k s' l', (threads ι).machine.step c (i, a) = some d ∧
    Alone i d.shared (d.locals i) k s' l' ∧ k ≤ n ∧
    ∀ k' s'' l'', Alone i d.shared (d.locals i) k' s'' l'' → k' = k ∧ s'' = s' ∧ l'' = l'

theorem Alone.finishesWithin {n k : ℕ} {a : Call} {l' : Pc}
    (h : Alone i (call c.shared a).1 (call c.shared a).2 k s' l')
    (hl : (c.locals i).returned = true) (hk : k ≤ n) :
  FinishesWithin n i c a
  := by
  use c.set i (call c.shared a).1 (call c.shared a).2, k, s', l', step_call hl a
  rw [Threads.Config.set_locals_self]
  use h, hk
  intro k' s'' l'' h'
  apply Alone.unique h' h

/-- An `input` alone goes through its loop at most twice. -/
theorem Chained.input_finishes (h : Chained c.shared) (hl : (c.locals i).returned = true)
    (data : String) :
  FinishesWithin 2 i c (.input data)
  := by
  have hnew := h.new data
  obtain ⟨t, ht, hlt, hle⟩ := hnew.tail
  have hcur := List.getElem?_eq_getElem hlt
  have hnext := hnew.leads.next_eq hcur
  rw [hcur] at ht
  cases hget : (c.shared.new data).chain[t + 1]? with
  | none =>
      rw [hget] at hnext
      apply Alone.finishesWithin (alone_last data c.shared.made ht hnext) hl
      decide
  | some next =>
      rw [hget] at hnext
      have hnull := hnew.leads.next_eq hget
      rw [List.getElem?_eq_none (show (c.shared.new data).chain.length ≤ t + 1 + 1 from hle)] at hnull
      obtain ⟨s', halone⟩ := alone_lagging (i := i) data c.shared.made ht hnext hnull
      apply Alone.finishesWithin halone hl
      decide

/-- An `output` alone goes through its loop once. -/
theorem Chained.output_finishes (h : Chained c.shared) (hl : (c.locals i).returned = true) :
  FinishesWithin 1 i c .output
  := by
  have hlt := h.length_removed
  have hhead := h.head
  rw [List.getElem?_eq_getElem hlt] at hhead
  cases hnext : c.shared.next c.shared.chain[c.shared.removed.length] with
  | none =>
      apply Alone.finishesWithin (alone_empty hhead hnext) hl
      decide
  | some next =>
      apply Alone.finishesWithin (alone_removing hhead hnext) hl
      decide

end Calls

/-! ### All interleavings -/

variable [DecidableEq ι] {c c' : Threads.Config ι (State ι) Pc} {es fs : List (ι × Call)}

/-- Whatever happens from a state that is reached, the ends of the chain move forward. -/
theorem advances_of_run (hO : (queueing ι).Holds c)
    (h : (threads ι).machine.run c fs = some c') :
  (queueing ι).Holds c' ∧ Advances c.shared c'.shared
  := by
  apply (threads ι).machine.run_induction (P := fun _ d =>
    (queueing ι).Holds d ∧ Advances c.shared d.shared) _ _ h
  · use hO
    apply Advances.refl
  · rintro gs d ⟨i, a⟩ d' _ ⟨hd, hadv⟩ hstep
    use (queueing ι).holds_step hd hstep
    obtain ⟨s, l, hl, rfl⟩ := (threads ι).machine_step_eq_some.mp hstep
    apply hadv.trans
    apply step_advances hd.shared (hd.own i) hl

/-- Take any number of threads with any calls of `input` and `output` and any interleaving of
their steps.  `tail` is the last node of the chain or the one before, and `head` and `tail` only
move forward; so a thread that starts `input` there and runs alone goes through its loop at most
twice, and one that starts `output` once. -/
theorem tail_lags (h : (threads ι).machine.run (start ι) es = some c)
    (h' : (threads ι).machine.run c fs = some c') :
  Trails c.shared ∧ Advances c.shared c'.shared ∧
    ∀ i, (c.locals i).returned = true →
      (∀ data, FinishesWithin 2 i c (.input data)) ∧ FinishesWithin 1 i c .output
  := by
  have hO := (queueing ι).holds_of_run h (queueing_start ι)
  have hs : Chained c.shared := hO.shared
  use hs.trails, (advances_of_run hO h').2
  intro i hl
  constructor
  · intro data
    apply hs.input_finishes hl
  · apply hs.output_finishes hl

/-- A thread has inserted a value and not moved `tail`; then another one removes the value. -/
theorem tail_lags_overtaking :
  ∃ c c', (threads ℕ).machine.run (start ℕ) (overtaking.take 4) = some c ∧
    (threads ℕ).machine.run c (overtaking.drop 4) = some c' ∧
    Trails c.shared ∧ Advances c.shared c'.shared ∧
    ∀ i, (c.locals i).returned = true →
      (∀ data, FinishesWithin 2 i c (.input data)) ∧ FinishesWithin 1 i c .output
  := by
  have hrun : ((threads ℕ).machine.run (start ℕ) overtaking).isSome = true := by
    decide +kernel
  obtain ⟨c', hc'⟩ := Option.isSome_iff_exists.mp hrun
  rw [← List.take_append_drop 4 overtaking, Machine.run_append] at hc'
  obtain ⟨c, hc, hc'⟩ := Option.bind_eq_some_iff.mp hc'
  use c, c', hc, hc'
  apply tail_lags hc hc'

end LockFreeQueue
