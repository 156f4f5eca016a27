import Mathlib.Data.List.Sort
import Mathlib.Data.List.Perm.Subperm

/-!
# Comparison sorts and strict weak orderings

A comparison sort permutes the elements of a list and, given a strict weak ordering of them,
leaves none before a smaller one.  What it does otherwise is not said.  So a strict ordering
may be given to every comparison sort if and only if it is weak: one that is not weak is sorted
wrongly by the insertion sort, in some order of the elements
(`StrictWeakOn.iff_forall_sort`).
-/

universe u

namespace Sorting

variable {α : Type u}

/-- Neither of `x` and `y` is smaller. -/
def Incomparable (lt : α → α → Bool) (x y : α) : Prop :=
  lt x y = false ∧ lt y x = false

theorem Incomparable.symm {lt : α → α → Bool} {x y : α} (h : Incomparable lt x y) :
  Incomparable lt y x
  := ⟨h.2, h.1⟩

/-- `lt` is irreflexive and transitive on the elements of `l`. -/
structure StrictOn (lt : α → α → Bool) (l : List α) : Prop where
  irrefl : ∀ x, x ∈ l → lt x x = false
  trans : ∀ x y z, x ∈ l → y ∈ l → z ∈ l → lt x y = true → lt y z = true → lt x z = true

/-- `lt` is a strict weak ordering on the elements of `l`: being incomparable is transitive,
too. -/
structure StrictWeakOn (lt : α → α → Bool) (l : List α) : Prop extends StrictOn lt l where
  incomparable : ∀ x y z, x ∈ l → y ∈ l → z ∈ l →
    Incomparable lt x y → Incomparable lt y z → Incomparable lt x z

/-- No element of the list stands before a smaller one. -/
def Ordered (lt : α → α → Bool) (l : List α) : Prop :=
  l.Pairwise fun x y => lt y x = false

/-- A sort by comparisons of the elements. -/
structure ComparisonSort where
  sort : ∀ {α : Type u}, (α → α → Bool) → List α → List α
  perm : ∀ {α : Type u} (lt : α → α → Bool) (l : List α), (sort lt l).Perm l
  ordered : ∀ {α : Type u} (lt : α → α → Bool) (l : List α), StrictWeakOn lt l →
    Ordered lt (sort lt l)

variable {lt : α → α → Bool} {l : List α}

theorem StrictOn.asymm (h : StrictOn lt l) {x y : α} (hx : x ∈ l) (hy : y ∈ l)
    (hxy : lt x y = true) :
  lt y x = false
  := by
  by_contra hyx
  have hxx := h.trans x y x hx hy hx hxy (by simpa using hyx)
  rw [h.irrefl x hx] at hxx
  cases hxx

/-- What is not smaller than something that is not smaller than `x` is not smaller than
`x`. -/
theorem StrictWeakOn.not_lt_trans (h : StrictWeakOn lt l) {x y z : α} (hx : x ∈ l) (hy : y ∈ l)
    (hz : z ∈ l) (hyx : lt y x = false) (hzy : lt z y = false) :
  lt z x = false
  := by
  by_contra hzx
  rw [Bool.not_eq_false] at hzx
  by_cases hxy : lt x y = true
  · have := h.trans z x y hz hx hy hzx hxy
    rw [hzy] at this
    cases this
  · by_cases hyz : lt y z = true
    · have := h.trans y z x hy hz hx hyz hzx
      rw [hyx] at this
      cases this
    · have hxz := h.incomparable x y z hx hy hz ⟨by simpa using hxy, hyx⟩
        ⟨by simpa using hyz, hzy⟩
      rw [hxz.2] at hzx
      cases hzx

/-- The insertion sort. -/
def insertionSort (lt : α → α → Bool) (l : List α) : List α :=
  l.insertionSort fun x y => lt y x = false

/-- The insertion sort of the elements as members of the list. -/
theorem insertionSort_eq_map (lt : α → α → Bool) (l : List α) :
  insertionSort lt l =
    (l.attach.insertionSort fun x y => lt y.val x.val = false).map Subtype.val
  := by
  have hmap := List.map_insertionSort (fun x y : {x // x ∈ l} => lt y.val x.val = false)
    (fun x y => lt y x = false) Subtype.val l.attach (fun _ _ _ _ => Iff.rfl)
  rw [hmap, List.attach_map_subtype_val]
  rfl

/-- A strict weak ordering is sorted by insertion. -/
theorem StrictWeakOn.ordered_insertionSort (h : StrictWeakOn lt l) :
  Ordered lt (insertionSort lt l)
  := by
  have total : Std.Total fun x y : {x // x ∈ l} => lt y.val x.val = false := by
    constructor
    intro x y
    by_cases hxy : lt x.val y.val = true
    · left
      apply h.asymm x.property y.property hxy
    · right
      simpa using hxy
  have trans : IsTrans {x // x ∈ l} fun x y => lt y.val x.val = false := by
    constructor
    intro x y z hxy hyz
    apply h.not_lt_trans x.property y.property z.property hxy hyz
  rw [insertionSort_eq_map, Ordered, List.pairwise_map]
  apply List.pairwise_insertionSort

/-- The insertion sort is a comparison sort. -/
def insertion : ComparisonSort where
  sort := insertionSort
  perm lt l := by
    apply List.perm_insertionSort
  ordered _ _ h := by
    apply h.ordered_insertionSort

/-- What stands in order at the end is left where it is by the elements inserted before it. -/
theorem sublist_insertionSort_append (lt : α → α → Bool) (front back : List α)
    (h : insertionSort lt back = back) :
  back.Sublist (insertionSort lt (front ++ back))
  := by
  induction front with
  | nil =>
      rw [List.nil_append, h]
  | cons a front ih =>
      apply ih.trans
      apply List.sublist_orderedInsert

/-- Three elements of which the outer ones are in the wrong order, and the one between them is
incomparable to both, are left as they are. -/
theorem insertionSort_triple {x y z : α} (hyz : Incomparable lt y z)
    (hxy : Incomparable lt x y) :
  insertionSort lt [z, y, x] = [z, y, x]
  := by
  simp [insertionSort, hyz.1, hxy.1]

/-- Elements that are not in this list twice may be put at its end. -/
theorem exists_perm_append {back : List α} (hnodup : back.Nodup) (hback : ∀ x, x ∈ back → x ∈ l) :
  ∃ front, (front ++ back).Perm l
  := by
  obtain ⟨l', hperm, hsub⟩ := List.subperm_of_subset hnodup hback
  obtain ⟨front, hfront⟩ := hsub.exists_perm_append
  use front
  apply List.perm_append_comm.trans
  apply (List.Perm.append_right front hperm.symm).trans
  apply hfront.symm

/-- A comparison that every comparison sort may be given for every order of the elements is
weak. -/
theorem StrictOn.incomparable_of_forall_sort (h : StrictOn lt l)
    (hsort : ∀ l', l'.Perm l → Ordered lt (insertionSort lt l')) {x y z : α} (hx : x ∈ l)
    (hy : y ∈ l) (hz : z ∈ l) (hxy : Incomparable lt x y) (hyz : Incomparable lt y z) :
  lt x z = false
  := by
  by_contra hxz
  rw [Bool.not_eq_false] at hxz
  have hne : x ≠ z := by
    rintro rfl
    rw [h.irrefl x hx] at hxz
    cases hxz
  have hne' : x ≠ y := by
    rintro rfl
    rw [hyz.1] at hxz
    cases hxz
  have hne'' : y ≠ z := by
    rintro rfl
    rw [hxy.1] at hxz
    cases hxz
  have hnodup : [z, y, x].Nodup := by
    simp [hne.symm, hne'.symm, hne''.symm]
  have hmem : ∀ w, w ∈ [z, y, x] → w ∈ l := by
    intro w hw
    simp only [List.mem_cons, List.not_mem_nil, or_false] at hw
    obtain rfl | rfl | rfl := hw
    · apply hz
    · apply hy
    · apply hx
  obtain ⟨front, hperm⟩ := exists_perm_append hnodup hmem
  have hsub := sublist_insertionSort_append lt front _ (insertionSort_triple hyz hxy)
  have hordered := (hsort _ hperm).sublist hsub
  have hx' : x ∈ [y, x] := by simp
  have hzx := List.rel_of_pairwise_cons hordered hx'
  rw [hxz] at hzx
  cases hzx

/-- A strict ordering of the elements may be given to every comparison sort, whatever their
order, exactly if it is weak. -/
theorem StrictWeakOn.iff_forall_sort (h : StrictOn lt l) :
  StrictWeakOn lt l ↔
    ∀ S : ComparisonSort.{u}, ∀ l', l'.Perm l → Ordered lt (S.sort lt l')
  := by
  constructor
  · intro hweak S l' hperm
    apply S.ordered
    constructor
    · constructor
      · intro x hx
        apply h.irrefl x (hperm.mem_iff.mp hx)
      · intro x y z hx hy hz
        apply h.trans x y z (hperm.mem_iff.mp hx) (hperm.mem_iff.mp hy) (hperm.mem_iff.mp hz)
    · intro x y z hx hy hz
      apply hweak.incomparable x y z (hperm.mem_iff.mp hx) (hperm.mem_iff.mp hy)
        (hperm.mem_iff.mp hz)
  · intro hsort
    constructor
    · apply h
    · intro x y z hx hy hz hxy hyz
      constructor
      · apply h.incomparable_of_forall_sort (hsort insertion) hx hy hz hxy hyz
      · apply h.incomparable_of_forall_sort (hsort insertion) hz hy hx hyz.symm hxy.symm

end Sorting
