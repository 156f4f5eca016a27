import Mathlib.Data.List.Defs

/-!
# Which pairs can be constructed

`AllocatorConstructHelper` decides whether a type can be constructed from arguments, with or
without an allocator, and constructs pairs component by component.  A pair is said to be
constructible from no, one or two arguments if *one* of its components is, but `construct`
constructs both.  So what is decided is right exactly where at every pair that is constructed by
components both are constructible or none is (`constructs_iff_alike`).

Types are built by nesting `std::pair` over other types.  What the compiler and the standard
library decide about types and arguments is a parameter.  `std::tuple` arguments, by which the
helper constructs a pair piecewise, are left out.
-/

universe u

namespace AllocatorConstructHelper

/-- Types built by nesting `std::pair` over the types in `L`. -/
inductive Ty (L : Type u) where
  | leaf (l : L)
  | pair (first second : Ty L)

/-- How an argument type `PP` refers to a type: as it is, `&&`, `&`, `const &` or in another
way. -/
inductive Ref where
  | value
  | rvalue
  | lvalue
  | constLvalue
  | other

/-- An argument type, which may be `NeverUsed`. -/
inductive Arg (L : Type u) where
  | neverUsed
  | of (ref : Ref) (type : Ty L)

/-- `PairTraits` of an argument type: `FirstType` and `SecondType`. -/
def PairTraits {L : Type u} : Arg L → Arg L × Arg L
  | .of .other (.pair _ _) => (.neverUsed, .neverUsed)
  | .of ref (.pair F S) => (.of ref F, .of ref S)
  | _ => (.neverUsed, .neverUsed)

/-- What is decided elsewhere: `std::uses_allocator` of a type that is no pair and an argument
type, and of that type and the allocator rebound to it; whether an argument type converts to
`std::allocator_arg_t`; `AllocatorChecker`; and `std::is_constructible` with the arguments,
with the tag and the allocator before them, and with the allocator behind them. -/
structure Library (L : Type u) where
  usesAllocator : L → Arg L → Bool
  usesRebound : L → Bool
  allocatorArg : Arg L → Bool
  allocatorChecker : Arg L → Bool
  isConstructible : Ty L → List (Arg L) → Bool
  isConstructiblePrefixed : Ty L → List (Arg L) → Bool
  isConstructibleSuffixed : Ty L → List (Arg L) → Bool

/-- `value` and `USES_ALLOCATOR` of a trait. -/
structure Trait where
  value : Bool
  usesAllocator : Bool

/-- `Constructible<NeverUsed, A, Args...>`, and what the traits of pairs are for other types. -/
def Trait.never : Trait :=
  ⟨false, false⟩

/-- One of the components is constructible. -/
def Trait.either (first second : Trait) : Trait where
  value := first.value || second.value
  usesAllocator := (first.value || second.value) && (first.usesAllocator || second.usesAllocator)

/-- Both components are constructible. -/
def Trait.both (first second : Trait) : Trait where
  value := first.value && second.value
  usesAllocator := (first.value && second.value) && (first.usesAllocator || second.usesAllocator)

variable {L : Type u} (lib : Library L)

/-- `std::uses_allocator` of a type and an argument type; no pair uses allocators. -/
def usesAllocator : Ty L → Arg L → Bool
  | .leaf l, arg => lib.usesAllocator l arg
  | .pair _ _, _ => false

/-- `std::uses_allocator` of a type and the allocator rebound to it. -/
def usesRebound : Ty L → Bool
  | .leaf l => lib.usesRebound l
  | .pair _ _ => false

/-- `AllocatorPrefixed`. -/
def AllocatorPrefixed (T : Ty L) : List (Arg L) → Bool
  | tag :: a :: _ => usesAllocator lib T a && lib.allocatorArg tag && lib.allocatorChecker a
  | _ => false

/-- `AllocatorSuffixed`. -/
def AllocatorSuffixed (T : Ty L) : List (Arg L) → Bool
  | [] => false
  | [a] => usesAllocator lib T a && lib.allocatorChecker a
  | _ :: args => AllocatorSuffixed T args

/-- `AllocatorApplied`. -/
def AllocatorApplied (T : Ty L) (args : List (Arg L)) : Bool :=
  AllocatorPrefixed lib T args || AllocatorSuffixed lib T args

/-- `Constructible::PREFIXED`. -/
def PREFIXED (T : Ty L) (args : List (Arg L)) : Bool :=
  usesRebound lib T && !AllocatorApplied lib T args && lib.isConstructiblePrefixed T args

/-- `Constructible::SUFFIXED`. -/
def SUFFIXED (T : Ty L) (args : List (Arg L)) : Bool :=
  usesRebound lib T && !AllocatorApplied lib T args && !lib.isConstructiblePrefixed T args &&
    lib.isConstructibleSuffixed T args

/-- `PairConstructible`, from the decisions for the components. -/
def PairConstructible (first second : List (Arg L) → Trait) : List (Arg L) → Trait
  | [] => (first []).either (second [])
  | [FF] => (first [FF]).either (second [])
  | [FF, SS] => (first [FF]).either (second [SS])
  | _ => Trait.never

/-- `PairCopyOrMoveConstructible`, from the decisions for the components. -/
def PairCopyOrMoveConstructible (first second : List (Arg L) → Trait) : List (Arg L) → Trait
  | [PP] => (first [(PairTraits PP).1]).both (second [(PairTraits PP).2])
  | _ => Trait.never

/-- `Constructible`, from the traits of pairs. -/
def ofTraits (T : Ty L) (args : List (Arg L)) (pair copyOrMove : Trait) : Trait :=
  let usesAllocator := PREFIXED lib T args || SUFFIXED lib T args || pair.usesAllocator ||
    copyOrMove.usesAllocator
  { value := usesAllocator || pair.value || copyOrMove.value || lib.isConstructible T args
    usesAllocator := usesAllocator }

/-- `Constructible`. -/
def Constructible : Ty L → List (Arg L) → Trait
  | .leaf l, args => ofTraits lib (.leaf l) args Trait.never Trait.never
  | .pair F S, args =>
      ofTraits lib (.pair F S) args
        (PairConstructible (Constructible F) (Constructible S) args)
        (PairCopyOrMoveConstructible (Constructible F) (Constructible S) args)

/-- What `construct` does with a pair: it calls the constructor of the pair, or constructs the
components with these arguments, or does not compile, as it looks for the components of what is
no pair. -/
inductive Expansion (L : Type u) where
  | whole
  | components (first second : List (Arg L))
  | illFormed

/-- The overload of `construct` for a pair. -/
def expansion (F S : Ty L) (args : List (Arg L)) : Expansion L :=
  let pair := PairConstructible (Constructible lib F) (Constructible lib S) args
  let copyOrMove := PairCopyOrMoveConstructible (Constructible lib F) (Constructible lib S) args
  match args with
  | [] => if pair.value then .components [] [] else .whole
  | [a] =>
      if copyOrMove.value then
        match PairTraits a with
        | (.of r T, .of r' T') => .components [.of r T] [.of r' T']
        | _ => .illFormed
      else if pair.value then .components [a] [] else .whole
  | [a, b] => if pair.value then .components [a] [b] else .whole
  | _ => .whole

/-- Every construction that `construct` expands to is possible. -/
def constructs : Ty L → List (Arg L) → Bool
  | .leaf l, args =>
      if PREFIXED lib (.leaf l) args then lib.isConstructiblePrefixed (.leaf l) args
      else if SUFFIXED lib (.leaf l) args then lib.isConstructibleSuffixed (.leaf l) args
      else lib.isConstructible (.leaf l) args
  | .pair F S, args =>
      match expansion lib F S args with
      | .whole => lib.isConstructible (.pair F S) args
      | .components first second => constructs F first && constructs S second
      | .illFormed => false

/-- The pair is decided to be constructible through the traits of pairs. -/
def throughPair (F S : Ty L) (args : List (Arg L)) : Bool :=
  (PairConstructible (Constructible lib F) (Constructible lib S) args).value ||
    (PairCopyOrMoveConstructible (Constructible lib F) (Constructible lib S) args).value

/-- At every pair that is constructed by components, both are constructible or none is; and
nothing but a pair is taken for a pair to copy or move. -/
def Alike : Ty L → List (Arg L) → Prop
  | .leaf _, _ => True
  | .pair F S, args =>
      match expansion lib F S args with
      | .whole => True
      | .components first second =>
          (Constructible lib F first).value = (Constructible lib S second).value ∧
            Alike F first ∧ Alike S second
      | .illFormed => False

variable {lib}

/-! ### What is decided -/

theorem PREFIXED.isConstructible {T : Ty L} {args : List (Arg L)}
    (h : PREFIXED lib T args = true) :
  lib.isConstructiblePrefixed T args = true
  := by
  rw [PREFIXED, Bool.and_eq_true] at h
  apply h.2

theorem SUFFIXED.isConstructible {T : Ty L} {args : List (Arg L)}
    (h : SUFFIXED lib T args = true) :
  lib.isConstructibleSuffixed T args = true
  := by
  rw [SUFFIXED, Bool.and_eq_true] at h
  apply h.2

/-- A type that is no pair is constructible exactly if its construction is possible. -/
theorem value_leaf (l : L) (args : List (Arg L)) :
  (Constructible lib (.leaf l) args).value = constructs lib (.leaf l) args
  := by
  rw [Constructible, ofTraits, constructs]
  cases hprefixed : PREFIXED lib (.leaf l) args with
  | true => simp [PREFIXED.isConstructible hprefixed]
  | false =>
      cases hsuffixed : SUFFIXED lib (.leaf l) args with
      | true => simp [SUFFIXED.isConstructible hsuffixed]
      | false => simp [Trait.never]

/-- A trait that uses the allocator has the value true. -/
theorem PairConstructible.value (first second : List (Arg L) → Trait) (args : List (Arg L))
    (h : (PairConstructible first second args).usesAllocator = true) :
  (PairConstructible first second args).value = true
  := by
  unfold PairConstructible at h ⊢
  split at h
  · apply (Bool.and_eq_true_iff.mp h).1
  · apply (Bool.and_eq_true_iff.mp h).1
  · apply (Bool.and_eq_true_iff.mp h).1
  · cases h

theorem PairCopyOrMoveConstructible.value (first second : List (Arg L) → Trait)
    (args : List (Arg L))
    (h : (PairCopyOrMoveConstructible first second args).usesAllocator = true) :
  (PairCopyOrMoveConstructible first second args).value = true
  := by
  unfold PairCopyOrMoveConstructible at h ⊢
  split at h
  · apply (Bool.and_eq_true_iff.mp h).1
  · cases h

/-- A pair is constructible through the traits of pairs or by its constructor. -/
theorem value_pair (F S : Ty L) (args : List (Arg L)) :
  (Constructible lib (.pair F S) args).value =
    (throughPair lib F S args || lib.isConstructible (.pair F S) args)
  := by
  have hpair := PairConstructible.value (Constructible lib F) (Constructible lib S) args
  have hcopy := PairCopyOrMoveConstructible.value (Constructible lib F) (Constructible lib S) args
  rw [Constructible, ofTraits, throughPair, Bool.eq_iff_iff]
  simp only [PREFIXED, SUFFIXED, usesRebound, Bool.false_and, Bool.false_or, Bool.or_eq_true]
  grind

/-! ### What the overloads expand to -/

/-- The constructor of a pair is called unless a trait of pairs holds. -/
theorem expansion_whole {F S : Ty L} {args : List (Arg L)} :
  expansion lib F S args = .whole ↔ throughPair lib F S args = false
  := by
  rw [throughPair, Bool.or_eq_false_iff]
  rcases args with _ | ⟨a, _ | ⟨b, _ | ⟨c, args⟩⟩⟩
  · simp [expansion, PairCopyOrMoveConstructible, Trait.never]
  · simp only [expansion]
    split
    · next hcopy =>
        constructor
        · intro h
          split at h <;> cases h
        · rintro ⟨-, h⟩
          cases hcopy.symm.trans h
    · next hcopy => simp [eq_false_of_ne_true hcopy]
  · simp [expansion, PairCopyOrMoveConstructible, Trait.never]
  · simp [expansion, PairConstructible, PairCopyOrMoveConstructible, Trait.never]

/-- If the components are constructed, one of them is constructible. -/
theorem either_of_expansion {F S : Ty L} {args first second : List (Arg L)}
    (h : expansion lib F S args = .components first second) :
  (Constructible lib F first).value = true ∨ (Constructible lib S second).value = true
  := by
  rcases args with _ | ⟨a, _ | ⟨b, _ | ⟨c, args⟩⟩⟩
  · simp only [expansion] at h
    split at h
    · next hpair =>
        obtain ⟨rfl, rfl⟩ := Expansion.components.inj h
        apply Bool.or_eq_true_iff.mp hpair
    · cases h
  · simp only [expansion] at h
    split at h
    · next hcopy =>
        split at h
        · next htraits =>
            obtain ⟨rfl, rfl⟩ := Expansion.components.inj h
            left
            have hboth := (Bool.and_eq_true_iff.mp hcopy).1
            rw [htraits] at hboth
            apply hboth
        · cases h
    · split at h
      · next hpair =>
          obtain ⟨rfl, rfl⟩ := Expansion.components.inj h
          apply Bool.or_eq_true_iff.mp hpair
      · cases h
  · simp only [expansion] at h
    split at h
    · next hpair =>
        obtain ⟨rfl, rfl⟩ := Expansion.components.inj h
        apply Bool.or_eq_true_iff.mp hpair
    · cases h
  · cases h

/-- What is constructed is possible exactly if it is decided to be, and the decisions are the
same for the components of each pair. -/
theorem constructs_iff (T : Ty L) (args : List (Arg L)) :
  constructs lib T args = true ↔ (Constructible lib T args).value = true ∧ Alike lib T args
  := by
  induction T generalizing args with
  | leaf l =>
      rw [value_leaf]
      constructor
      · intro h
        exact ⟨h, trivial⟩
      · intro h
        apply h.1
  | pair F S ihF ihS =>
      rw [value_pair]
      cases hexp : expansion lib F S args with
      | whole =>
          rw [expansion_whole.mp hexp, Bool.false_or, constructs, Alike, hexp]
          constructor
          · intro h
            exact ⟨h, trivial⟩
          · intro h
            apply h.1
      | components first second =>
          have hthrough : throughPair lib F S args = true := by
            apply eq_true_of_ne_false
            intro hnot
            rw [← expansion_whole, hexp] at hnot
            cases hnot
          rw [hthrough, Bool.true_or, constructs, Alike, hexp]
          simp only [Bool.and_eq_true, ihF, ihS]
          constructor
          · rintro ⟨⟨hF, hFalike⟩, hS, hSalike⟩
            exact ⟨trivial, hF.trans hS.symm, hFalike, hSalike⟩
          · rintro ⟨-, heq, hFalike, hSalike⟩
            obtain hF | hS := either_of_expansion hexp
            · exact ⟨⟨hF, hFalike⟩, heq.symm.trans hF, hSalike⟩
            · exact ⟨⟨heq.trans hS, hFalike⟩, hS, hSalike⟩
      | illFormed =>
          rw [constructs, Alike, hexp]
          constructor
          · intro h
            cases h
          · rintro ⟨-, h⟩
            cases h

/-- Two types: the first one is constructible from nothing and from itself, the second one from
itself only. -/
def keyed : Library Bool where
  usesAllocator _ _ := false
  usesRebound _ := false
  allocatorArg _ := false
  allocatorChecker _ := false
  isConstructible T args :=
    match T, args with
    | .leaf l, [] => l
    | .leaf l, [.of _ (.leaf l')] => l == l'
    | _, _ => false
  isConstructiblePrefixed _ _ := false
  isConstructibleSuffixed _ _ := false

end AllocatorConstructHelper
