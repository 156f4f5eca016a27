import CppFreshman.Heap.Queue
import CppFreshman.Machine.Threads

/-!
# The queue that deletes its nodes

`FreeLockQueue` of the protobuf example, with any number of threads that call `en_queue` and
`de_queue` again and again.  Nodes are numbered in the order they are built.  A step is one
read of a shared field, one compare-and-swap or one `delete`; the constructor of a node leaves
`next` unset, so what it holds is part of the call.  A step that reads or swaps a field of what
is not a node, or is one no more, has no defined behaviour: the thread has crashed.

The state carries histories that no step reads: the nodes linked, in the order of the successful
swaps on `next`, each with the value its `en_queue` was called with; the nodes that were to be
swapped out of `head`, in the order of these swaps whether they succeed or not, each with the
thread that did it; and the nodes whose value was returned, with this value.
-/

namespace FreeLockQueue

/-- `ListNode`; a pointer is the number of a node, or null. -/
structure ListNode where
  val : ℤ
  next : Option ℕ

/-- The nodes (`nodes n` for every `n < made`), those deleted, the two pointers of the queue,
and the histories. -/
structure State (ι : Type*) where
  nodes : ℕ → ListNode
  made : ℕ
  deleted : List ℕ
  head : Option ℕ
  tail : Option ℕ
  inserted : List (ℕ × ℤ)
  removed : List (ι × ℕ)
  returned : List (ℕ × ℤ)

variable {ι : Type*}

namespace State

/-- `new ListNode(x)`: a node numbered `s.made` that holds `next` where the constructor sets
nothing. -/
def new (s : State ι) (x : ℤ) (next : Option ℕ) : State ι :=
  { s with nodes := Function.update s.nodes s.made ⟨x, next⟩, made := s.made + 1 }

/-- `cur->next = node`, as the successful swap in `en_queue(x)` does it. -/
def link (s : State ι) (x : ℤ) (cur node : ℕ) : State ι :=
  { s with
    nodes := Function.update s.nodes cur { s.nodes cur with next := some node }
    inserted := s.inserted ++ [(node, x)] }

/-- The compare-and-swap of `tail` from `cur` to `next`. -/
def swapTail (s : State ι) (cur : ℕ) (next : Option ℕ) : State ι :=
  if s.tail = some cur then { s with tail := next } else s

/-- The compare-and-swap of `head` from `cur` to `next` by the thread `i`. -/
def swapHead (s : State ι) (i : ι) (cur : ℕ) (next : Option ℕ) : State ι :=
  { s with
    head := if s.head = some cur then next else s.head
    removed := s.removed ++ [(i, cur)] }

/-- `delete cur; return val` where `val` was read from `node`. -/
def delete (s : State ι) (cur node : ℕ) (val : ℤ) : State ι :=
  { s with deleted := s.deleted ++ [cur], returned := s.returned ++ [(node, val)] }

/-- The pointer is one to a node. -/
def Alive (s : State ι) (n : ℕ) : Prop :=
  n < s.made ∧ n ∉ s.deleted

instance (s : State ι) (n : ℕ) : Decidable (s.Alive n) :=
  inferInstanceAs (Decidable (_ ∧ _))

end State

/-- A call of the queue; `next` is what the new node holds where its constructor sets
nothing. -/
inductive Call where
  | enQueue (x : ℤ) (next : Option ℕ)
  | deQueue

/-- Where a thread stands: between two calls (`answered` holds the node the last `de_queue` has
read its value from, if any, and what it returned), in `en_queue` before the read of `tail`, the
swap of `cur->next`, the second read of `cur->next`, the swap of `tail` to what that gave, and
the swap of `tail` to the new node; or in `de_queue` before the read of `head`, the two reads of
`cur->next`, the swap of `head`, the read of `cur->next` and that of `val`, and the deletion; or
it has crashed. -/
inductive Pc where
  | idle
  | answered (node : Option ℕ) (result : ℤ)
  | readingTail (x : ℤ) (node : ℕ)
  | linking (x : ℤ) (node : ℕ) (cur : Option ℕ)
  | rereading (x : ℤ) (node cur : ℕ)
  | helping (x : ℤ) (node cur : ℕ) (next : Option ℕ)
  | swinging (node cur : ℕ)
  | readingHead
  | testing (cur : Option ℕ)
  | readingNext (cur : ℕ)
  | removing (cur : ℕ) (next : Option ℕ)
  | reloading (cur : ℕ)
  | copying (cur : ℕ) (next : Option ℕ)
  | deleting (cur node : ℕ) (val : ℤ)
  | crashed

/-- The start of a call. -/
def call (s : State ι) : Call → State ι × Pc
  | .enQueue x next => (s.new x next, .readingTail x s.made)
  | .deQueue => (s, .readingHead)

/-- A step through a pointer. -/
def through (s : State ι) (p : Option ℕ) (step : ℕ → State ι × Pc) : State ι × Pc :=
  match p with
  | none => (s, .crashed)
  | some n => if s.Alive n then step n else (s, .crashed)

/-- The threads that use the queue. -/
def threads (ι : Type*) : Threads ι (State ι) Pc Call where
  step i a s l :=
    match l with
    | .idle => some (call s a)
    | .answered _ _ => some (call s a)
    | .readingTail x node => some (s, .linking x node s.tail)
    | .linking x node cur => some (through s cur fun c =>
        if (s.nodes c).next = none then (s.link x c node, .swinging node c)
        else (s, .rereading x node c))
    | .rereading x node cur => some (through s cur fun c =>
        (s, .helping x node c (s.nodes c).next))
    | .helping x node cur next => some (s.swapTail cur next, .readingTail x node)
    | .swinging node cur => some (s.swapTail cur (some node), .idle)
    | .readingHead => some (s, .testing s.head)
    | .testing cur => some (through s cur fun c =>
        (s, if (s.nodes c).next = none then .answered none (-1) else .readingNext c))
    | .readingNext cur => some (through s cur fun c => (s, .removing c (s.nodes c).next))
    | .removing cur next => some (s.swapHead i cur next, .reloading cur)
    | .reloading cur => some (through s cur fun c => (s, .copying c (s.nodes c).next))
    | .copying cur next => some (through s next fun n => (s, .deleting cur n (s.nodes n).val))
    | .deleting cur node val => some (s.delete cur node val, .answered (some node) val)
    | .crashed => none

/-- A queue whose `head` and `tail` are the sentinel numbered 0, which holds `val` and a null
pointer. -/
def empty (ι : Type*) (val : ℤ) : State ι where
  nodes _ := ⟨val, none⟩
  made := 1
  deleted := []
  head := some 0
  tail := some 0
  inserted := []
  removed := []
  returned := []

/-- That queue, with no thread in a call. -/
def start (ι : Type*) (val : ℤ) : Threads.Config ι (State ι) Pc where
  shared := empty ι val
  locals _ := .idle

end FreeLockQueue
