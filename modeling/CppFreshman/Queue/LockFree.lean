import CppFreshman.Heap.Queue
import CppFreshman.Machine.Threads

/-!
# The lock-free queue

`LockFreeQueue` of the performance units, with any number of threads that call `input` and
`output` again and again.  Nodes are numbered in the order they are built, and none is ever
deleted.  A step is one read of a shared field or one compare-and-swap.

The state carries two histories that no step reads: the nodes linked, in the order of the
successful swaps on `next`, each with the data its `input` was called with; and the nodes
removed, in the order of the successful swaps on `head`, each with the thread that did it.
-/

namespace LockFreeQueue

/-- `ListNode`; a pointer is the number of a node, or null. -/
structure ListNode where
  logInfo : String
  next : Option ℕ

/-- The nodes (`nodes n` for every `n < made`), the two pointers of the queue, and the
histories. -/
structure State (ι : Type*) where
  nodes : ℕ → ListNode
  made : ℕ
  head : Option ℕ
  tail : Option ℕ
  inserted : List (ℕ × String)
  removed : List (ι × ℕ)

variable {ι : Type*}

namespace State

/-- `new ListNode(data)`: a node numbered `s.made`. -/
def new (s : State ι) (data : String) : State ι :=
  { s with nodes := Function.update s.nodes s.made ⟨data, none⟩, made := s.made + 1 }

/-- `cur->next = node`, as the successful swap in `input(data)` does it. -/
def link (s : State ι) (data : String) (cur node : ℕ) : State ι :=
  { s with
    nodes := Function.update s.nodes cur { s.nodes cur with next := some node }
    inserted := s.inserted ++ [(node, data)] }

/-- The compare-and-swap of `tail` from `cur` to `next`. -/
def swapTail (s : State ι) (cur : ℕ) (next : Option ℕ) : State ι :=
  if s.tail = some cur then { s with tail := next } else s

/-- `head = next`, as the successful swap in `output` of the thread `i` does it. -/
def remove (s : State ι) (i : ι) (next : ℕ) : State ι :=
  { s with head := some next, removed := s.removed ++ [(i, next)] }

end State

/-- A call of the queue. -/
inductive Call where
  | input (data : String)
  | output

/-- Where a thread stands: between two calls (`answered` holds the node the last `output` has
removed, if any, and what it returned), in `input` before the read of `tail`, the read of
`cur->next`, the swap of `cur->next`, the second read of `cur->next`, the swap of `tail` to
what that gave, and the swap of `tail` to the new node; or in `output` before the read of
`head`, the read of `first->next`, the swap of `head` and the read of `next->log_info`; or it
has read through a null pointer. -/
inductive Pc where
  | idle
  | answered (node : Option ℕ) (result : String)
  | readingTail (data : String) (node : ℕ)
  | readingNext (data : String) (node : ℕ) (cur : Option ℕ)
  | linking (data : String) (node cur : ℕ)
  | rereading (data : String) (node cur : ℕ)
  | helping (data : String) (node cur : ℕ) (next : Option ℕ)
  | swinging (node cur : ℕ)
  | readingHead
  | readingFirst (first : Option ℕ)
  | removing (first next : ℕ)
  | copying (next : ℕ)
  | crashed
  deriving DecidableEq

/-- The start of a call. -/
def call (s : State ι) : Call → State ι × Pc
  | .input data => (s.new data, .readingTail data s.made)
  | .output => (s, .readingHead)

/-- The threads that use the queue. -/
def threads (ι : Type*) : Threads ι (State ι) Pc Call where
  step i a s l :=
    match l with
    | .idle => some (call s a)
    | .answered _ _ => some (call s a)
    | .readingTail data node => some (s, .readingNext data node s.tail)
    | .readingNext _ _ none => some (s, .crashed)
    | .readingNext data node (some cur) =>
        some (s, if (s.nodes cur).next = none then .linking data node cur
          else .rereading data node cur)
    | .linking data node cur =>
        some (if (s.nodes cur).next = none then (s.link data cur node, .swinging node cur)
          else (s, .readingTail data node))
    | .rereading data node cur => some (s, .helping data node cur (s.nodes cur).next)
    | .helping data node cur next => some (s.swapTail cur next, .readingTail data node)
    | .swinging node cur => some (s.swapTail cur (some node), .idle)
    | .readingHead => some (s, .readingFirst s.head)
    | .readingFirst none => some (s, .crashed)
    | .readingFirst (some first) =>
        some (s, match (s.nodes first).next with
          | none => .answered none ""
          | some next => .removing first next)
    | .removing first next =>
        some (if s.head = some first then (s.remove i next, .copying next)
          else (s, .readingHead))
    | .copying next => some (s, .answered (some next) (s.nodes next).logInfo)
    | .crashed => none

/-- A queue as the constructor leaves it, with the sentinel numbered 0, and no thread in a
call. -/
def start (ι : Type*) : Threads.Config ι (State ι) Pc where
  shared :=
    { nodes := fun _ => ⟨"", none⟩
      made := 1
      head := some 0
      tail := some 0
      inserted := []
      removed := [] }
  locals _ := .idle

/-! ### The chain -/

namespace State

/-- The pointers of the nodes. -/
def next (s : State ι) (n : ℕ) : Option ℕ :=
  (s.nodes n).next

/-- The nodes linked, in order. -/
def linked (s : State ι) : List ℕ :=
  s.inserted.map Prod.fst

/-- The sentinel and the nodes linked. -/
def chain (s : State ι) : List ℕ :=
  0 :: s.linked

/-- The state as a queue of linked nodes. -/
def view (s : State ι) : LinkedQueue String where
  next := s.next
  value n := (s.nodes n).logInfo
  made := s.made
  head := s.head
  tail := s.tail
  inserted := s.inserted
  taken := s.removed.length

end State

/-- The queue is ordered, and the nodes removed are the first ones linked. -/
structure Chained (s : State ι) : Prop where
  ordered : s.view.Ordered
  removed : s.removed.map Prod.snd <+: s.linked

theorem Chained.leads {s : State ι} (h : Chained s) :
  Leads s.next none s.chain
  := h.ordered.leads

theorem Chained.head {s : State ι} (h : Chained s) :
  s.head = s.chain[s.removed.length]?
  := h.ordered.head

theorem Chained.length_removed {s : State ι} (h : Chained s) :
  s.removed.length < s.chain.length
  := h.ordered.taken

theorem Chained.tail {s : State ι} (h : Chained s) :
  ∃ t : ℕ, s.tail = s.chain[t]? ∧ t < s.chain.length ∧ s.chain.length ≤ t + 2
  := h.ordered.tail

/-- The thread `i` removed `node` in its turn, and `result` is the data it was inserted
with. -/
def Took (s : State ι) (i : ι) (node : ℕ) (result : String) : Prop :=
  ∃ k : ℕ, s.removed[k]? = some (i, node) ∧ s.inserted[k]? = some (node, result)

/-- What a thread may rely on where it stands. -/
def Pc.Knows (i : ι) (s : State ι) : Pc → Prop
  | .idle => True
  | .answered node result => ∀ n, node = some n → Took s i n result
  | .readingTail data node => s.view.Fresh data node
  | .readingNext data node cur =>
      s.view.Fresh data node ∧ ∃ c, cur = some c ∧ s.view.BehindTail c
  | .linking data node cur => s.view.Fresh data node ∧ s.view.BehindTail cur
  | .rereading data node cur =>
      s.view.Fresh data node ∧ s.view.BehindTail cur ∧ s.next cur ≠ none
  | .helping data node cur next =>
      s.view.Fresh data node ∧ ∃ n, next = some n ∧ s.view.Follows cur n
  | .swinging node cur => s.view.Follows cur node
  | .readingHead => True
  | .readingFirst first =>
      ∃ (k : ℕ) (f : ℕ), k ≤ s.removed.length ∧ first = some f ∧ s.chain[k]? = some f
  | .removing first next => s.view.Follows first next
  | .copying next => ∃ data, Took s i next data
  | .crashed => False

/-- The node a thread has built and not linked yet. -/
def Pc.building : Pc → Option ℕ
  | .readingTail _ node => some node
  | .readingNext _ node _ => some node
  | .linking _ node _ => some node
  | .rereading _ node _ => some node
  | .helping _ node _ _ => some node
  | _ => none

/-! ### What never goes back -/

/-- The queue grows, and more nodes are removed. -/
structure Grows (s s' : State ι) : Prop where
  view : s.view.Grows s'.view
  removed : s.removed <+: s'.removed

variable {s s' : State ι} {i : ι}

theorem Grows.refl (s : State ι) :
  Grows s s
  := ⟨LinkedQueue.Grows.refl _, List.prefix_refl _⟩

theorem Grows.trans {t : State ι} (h : Grows s s') (h' : Grows s' t) :
  Grows s t
  := ⟨h.view.trans h'.view, h.removed.trans h'.removed⟩

theorem Grows.took (h : Grows s s') {n : ℕ} {result : String} (ht : Took s i n result) :
  Took s' i n result
  := by
  obtain ⟨k, hr, hi⟩ := ht
  use k, getElem?_of_isPrefix h.removed hr
  apply getElem?_of_isPrefix h.view.inserted hi

/-- What a thread knows stays when the queue grows and its own node is left alone. -/
theorem Pc.Knows.grows {pc : Pc} (h : pc.Knows i s) (hg : Grows s s')
    (hf : ∀ data n, pc.building = some n → s.view.Fresh data n → s'.view.Fresh data n) :
  pc.Knows i s'
  := by
  cases pc with
  | idle => trivial
  | answered node result =>
      intro n hn
      apply hg.took (h n hn)
  | readingTail data node => apply hf data node rfl h
  | readingNext data node cur =>
      obtain ⟨hfresh, c, hc, hb⟩ := h
      exact ⟨hf data node rfl hfresh, c, hc, hg.view.tail c hb⟩
  | linking data node cur => exact ⟨hf data node rfl h.1, hg.view.tail cur h.2⟩
  | rereading data node cur =>
      obtain ⟨hfresh, hb, hne⟩ := h
      exact ⟨hf data node rfl hfresh, hg.view.tail cur hb, hg.view.next cur hb.mem hne⟩
  | helping data node cur next =>
      obtain ⟨hfresh, n, hn, hfol⟩ := h
      exact ⟨hf data node rfl hfresh, n, hn, hg.view.follows hfol⟩
  | swinging node cur => apply hg.view.follows h
  | readingHead => trivial
  | readingFirst first =>
      obtain ⟨k, f, hk, hf', hc⟩ := h
      exact ⟨k, f, hk.trans hg.removed.length_le, hf', hg.view.chain hc⟩
  | removing first next => apply hg.view.follows h
  | copying next =>
      obtain ⟨data, ht⟩ := h
      exact ⟨data, hg.took ht⟩
  | crashed => cases h

end LockFreeQueue
