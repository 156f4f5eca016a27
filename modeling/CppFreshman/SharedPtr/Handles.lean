import CppFreshman.Machine.Run
import Mathlib.Data.Int.Notation
import Mathlib.Logic.Function.Basic

/-!
# Handles of shared objects

`MySharedPtr<T>`: handles that share an object and count their number in a counter next to it.
The handles are named by the elements of a type; an object and its counter are allocated
together, by the construction of a handle from a fresh pointer, and bear the same number.  A
read or a write through a null or a freed counter and a second deletion are faults.

The state also records the objects deleted and the counters freed, in order.
-/

namespace MySharedPtr

/-- `ptr` and `used_count` of a handle. -/
structure Handle where
  ptr : Option ℕ
  usedCount : Option ℕ
  deriving DecidableEq

/-- A handle of nothing. -/
def Handle.empty : Handle :=
  ⟨none, none⟩

/-- What an operation may do wrong. -/
inductive Fault where
  | nullCount
  | freedCount
  | deletedObject

/-- The live handles, the counters (`counts u` for every `u < made`), and what was deleted and
freed. -/
structure State (κ : Type*) where
  handles : κ → Option Handle
  counts : ℕ → ℤ
  made : ℕ
  deleted : List ℕ
  freed : List ℕ

variable {κ : Type*}

/-- `*used_count += d`. -/
def adjust (usedCount : Option ℕ) (d : ℤ) (s : State κ) : Except Fault (State κ) :=
  match usedCount with
  | none => .error .nullCount
  | some u =>
      if u ∈ s.freed then .error .freedCount
      else .ok { s with counts := Function.update s.counts u (s.counts u + d) }

/-- `delete ptr`. -/
def deletePtr (ptr : Option ℕ) (s : State κ) : Except Fault (State κ) :=
  match ptr with
  | none => .ok s
  | some p =>
      if p ∈ s.deleted then .error .deletedObject
      else .ok { s with deleted := s.deleted ++ [p] }

/-- `delete used_count`. -/
def deleteCount (u : ℕ) (s : State κ) : Except Fault (State κ) :=
  if u ∈ s.freed then .error .freedCount else .ok { s with freed := s.freed ++ [u] }

/-- `release()` of a handle with the fields `x`. -/
def release (x : Handle) (s : State κ) : Except Fault (State κ) :=
  match x.usedCount with
  | none => .ok s
  | some u => do
      let s ← adjust (some u) (-1) s
      if s.counts u = 0 then
        let s ← deletePtr x.ptr s
        deleteCount u s
      else pure s

/-- The end of the copy constructor and of the copy assignment, which increments the counter
when the pointer to it is null. -/
def countCopy (usedCount : Option ℕ) (s : State κ) : Except Fault (State κ) :=
  if usedCount = none then adjust usedCount 1 s else .ok s

/-- `get_count()` of a handle with the fields `x`. -/
def getCount (s : State κ) (x : Handle) : Except Fault ℤ :=
  match x.usedCount with
  | none => .ok 0
  | some u => if u ∈ s.freed then .error .freedCount else .ok (s.counts u)

/-- The operations: default construction, construction from a null and from a fresh pointer,
copy and move construction, copy and move assignment, destruction. -/
inductive Op (κ : Type*) where
  | default (h : κ)
  | ofNull (h : κ)
  | ofNew (h : κ)
  | copy (h other : κ)
  | move (h other : κ)
  | copyAssign (h other : κ)
  | moveAssign (h other : κ)
  | destroy (h : κ)

variable [DecidableEq κ]

namespace State

/-- The handle `h` gets the fields `x`, or is gone. -/
def set (s : State κ) (h : κ) (x : Option Handle) : State κ :=
  { s with handles := Function.update s.handles h x }

/-- A fresh object and its counter, numbered `s.made`. -/
def new (s : State κ) : State κ :=
  { s with counts := Function.update s.counts s.made 1, made := s.made + 1 }

end State

/-- What an operation does; a handle is constructed only where none is, and all other operations
are on live handles. -/
def perform (s : State κ) : Op κ → Option (Except Fault (State κ))
  | .default h =>
      if s.handles h = none then some (.ok (s.set h (some .empty))) else none
  | .ofNull h =>
      if s.handles h = none then some (.ok (s.set h (some .empty))) else none
  | .ofNew h =>
      if s.handles h = none then some (.ok (s.new.set h (some ⟨some s.made, some s.made⟩)))
      else none
  | .copy h other =>
      if s.handles h = none then
        (s.handles other).map fun x => do
          let s ← countCopy x.usedCount s
          pure (s.set h (some x))
      else none
  | .move h other =>
      if s.handles h = none then
        (s.handles other).map fun x => .ok ((s.set h (some x)).set other (some .empty))
      else none
  | .copyAssign h other =>
      (s.handles h).bind fun y =>
        (s.handles other).map fun x =>
          if other ≠ h then do
            let s ← release y s
            let s ← countCopy x.usedCount s
            pure (s.set h (some x))
          else .ok s
  | .moveAssign h other =>
      (s.handles h).bind fun y =>
        (s.handles other).map fun x =>
          if other ≠ h then do
            let s ← release y s
            pure ((s.set h (some x)).set other (some .empty))
          else .ok s
  | .destroy h =>
      (s.handles h).map fun y => do
        let s ← release y s
        pure (s.set h none)

/-- The operations in any order; none comes after a fault. -/
def machine (κ : Type*) [DecidableEq κ] : Machine (Except Fault (State κ)) (Op κ) where
  step r e :=
    match r with
    | .ok s => perform s e
    | .error _ => none

/-- No handle and no object. -/
def start (κ : Type*) : State κ where
  handles _ := none
  counts _ := 0
  made := 0
  deleted := []
  freed := []

end MySharedPtr
