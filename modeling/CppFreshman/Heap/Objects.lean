import Mathlib.Data.List.Nodup
import Mathlib.Logic.Function.Basic

/-!
# Objects

The objects of a program, each at its place and of its type.  An object is made where there is none,
and unmade where it is; anything else fails.  `Holds` says which objects there are by a list of
them: making an object adds it to the list (`Holds.make`), and unmaking objects that are listed
once takes them off (`Holds.unmakeAll`).
-/

universe u v

/-- The types of the objects that are there. -/
abbrev Objects (ι : Type u) (τ : Type v) : Type (max u v) :=
  ι → Option τ

namespace Objects

variable {ι : Type u} {τ : Type v}

/-- The objects are those of the list. -/
def Holds (o : Objects ι τ) (xs : List (ι × τ)) : Prop :=
  ∀ x t, o x = some t ↔ (x, t) ∈ xs

variable {o : Objects ι τ} {x : ι × τ} {xs ys : List (ι × τ)}

theorem holds_nil :
  Holds (fun _ => none : Objects ι τ) []
  := by
  intro x t
  constructor <;> nofun

theorem Holds.congr (h : o.Holds xs) (heq : ∀ y, y ∈ xs ↔ y ∈ ys) :
  o.Holds ys
  := fun x t => (h x t).trans (heq (x, t))

/-- There is one object at a place. -/
theorem Holds.functional {x : ι} {t t' : τ} (h : o.Holds xs) (ht : (x, t) ∈ xs)
    (ht' : (x, t') ∈ xs) :
  t = t'
  := Option.some.inj (((h x t).mpr ht).symm.trans ((h x t').mpr ht'))

/-- Where the list has no object there is none. -/
theorem Holds.eq_none {x : ι} (h : o.Holds xs) (hx : ∀ y, y ∈ xs → y.1 ≠ x) :
  o x = none
  := by
  rcases ho : o x with _ | t
  · rfl
  · apply absurd rfl (hx (x, t) ((h x t).mp ho))

variable [DecidableEq ι]

/-- An object is made, if there is none at its place. -/
def make (o : Objects ι τ) (x : ι × τ) : Option (Objects ι τ) :=
  if (o x.1).isNone then some (Function.update o x.1 (some x.2)) else none

theorem Holds.make (h : o.Holds xs) (hx : ∀ y, y ∈ xs → y.1 ≠ x.1) :
  ∃ o', o.make x = some o' ∧ o'.Holds (xs ++ [x])
  := by
  have hnone : (o x.1).isNone := by
    rw [h.eq_none hx]
    rfl
  refine ⟨_, if_pos hnone, ?_⟩
  intro y t
  rw [List.mem_append, List.mem_singleton]
  rcases Classical.em (y = x.1) with rfl | hne
  · rw [Function.update_self]
    constructor
    · intro ht
      obtain rfl := Option.some.inj ht
      exact Or.inr rfl
    · rintro (ht | heq)
      · apply absurd rfl (hx (x.1, t) ht)
      · rw [← heq]
  · rw [Function.update_of_ne hne, h y t]
    constructor
    · exact Or.inl
    · rintro (ht | heq)
      · exact ht
      · apply absurd _ hne
        rw [← heq]

variable [DecidableEq τ]

/-- An object is unmade, if it is there. -/
def unmake (o : Objects ι τ) (x : ι × τ) : Option (Objects ι τ) :=
  if o x.1 = some x.2 then some (Function.update o x.1 none) else none

/-- The objects are unmade one after the other. -/
def unmakeAll (o : Objects ι τ) (xs : List (ι × τ)) : Option (Objects ι τ) :=
  xs.foldlM unmake o

theorem Holds.unmake (h : o.Holds xs) (hx : x ∈ xs) :
  ∃ o', o.unmake x = some o' ∧ o'.Holds (xs.filter (· ≠ x))
  := by
  refine ⟨_, if_pos ((h x.1 x.2).mpr hx), ?_⟩
  intro y t
  rw [List.mem_filter, decide_eq_true_eq]
  rcases Classical.em (y = x.1) with rfl | hne
  · rw [Function.update_self]
    constructor
    · nofun
    · rintro ⟨ht, hne⟩
      apply absurd _ hne
      rw [h.functional ht hx]
  · rw [Function.update_of_ne hne, h y t]
    constructor
    · intro ht
      use ht
      rintro rfl
      apply hne rfl
    · exact And.left

/-- An object that is unmade can be made again. -/
theorem Holds.remake (h : o.Holds xs) (hx : x ∈ xs) :
  ∃ o', (o.unmake x).bind (fun o => o.make x) = some o' ∧ o'.Holds xs
  := by
  obtain ⟨o₁, hunmake, h₁⟩ := h.unmake hx
  have hother : ∀ y, y ∈ xs.filter (· ≠ x) → y.1 ≠ x.1 := by
    rintro ⟨y, t⟩ hy rfl
    obtain ⟨hmem, hne⟩ := List.mem_filter.mp hy
    apply of_decide_eq_true hne
    rw [h.functional hmem hx]
  obtain ⟨o₂, hmake, h₂⟩ := h₁.make hother
  use o₂
  rw [hunmake, Option.bind_some]
  use hmake
  apply h₂.congr
  intro y
  rw [List.mem_append, List.mem_filter, List.mem_singleton, decide_eq_true_eq]
  constructor
  · rintro (⟨hy, -⟩ | rfl)
    · exact hy
    · exact hx
  · intro hy
    rcases Classical.em (y = x) with rfl | hne
    · exact Or.inr rfl
    · exact Or.inl ⟨hy, hne⟩

/-- Objects that are there are unmade, each once. -/
theorem Holds.unmakeAll (h : o.Holds xs) (hys : ys ⊆ xs) (hnodup : ys.Nodup) :
  ∃ o', o.unmakeAll ys = some o' ∧ o'.Holds (xs.filter (· ∉ ys))
  := by
  induction ys generalizing o xs with
  | nil =>
      refine ⟨o, rfl, h.congr ?_⟩
      intro y
      simp
  | cons y ys ih =>
      obtain ⟨hy, hnodup⟩ := List.nodup_cons.mp hnodup
      obtain ⟨o₁, hunmake, h₁⟩ := h.unmake (hys List.mem_cons_self)
      have hsub : ys ⊆ xs.filter (· ≠ y) := by
        intro z hz
        rw [List.mem_filter, decide_eq_true_eq]
        use hys (List.mem_cons_of_mem y hz)
        rintro rfl
        apply hy hz
      obtain ⟨o₂, hrest, h₂⟩ := ih h₁ hsub hnodup
      refine ⟨o₂, ?_, ?_⟩
      · rw [Objects.unmakeAll, List.foldlM_cons, hunmake]
        exact hrest
      · apply h₂.congr
        intro z
        simp only [List.mem_filter, decide_eq_true_eq, List.mem_cons, not_or]
        constructor
        · rintro ⟨⟨hz, hne⟩, hnot⟩
          exact ⟨hz, hne, hnot⟩
        · rintro ⟨hz, hne, hnot⟩
          exact ⟨⟨hz, hne⟩, hnot⟩

end Objects
