import CppFreshman.Sorting.Weak
import Mathlib.Data.String.Basic

/-!
# Sorting test data

`TestData` is compared by two components at once.  This is a strict ordering, but a datum that
is large in one component and small in the other is incomparable to data that are themselves in
order.  Data without such a one among them are exactly those the comparison sorts
(`TestData.strictWeakOn_iff`).
-/

open Sorting

/-- `TestData`. -/
structure TestData where
  a : ℤ
  b : ℤ
  name : String

namespace TestData

/-- `operator<`. -/
def lt (x y : TestData) : Bool :=
  x.a < y.a && x.b < y.b

/-- `y` is not beyond `x` in one component and not before `z` in the other. -/
def Spans (x y z : TestData) : Prop :=
  y.a ≤ x.a ∧ z.b ≤ y.b ∨ z.a ≤ y.a ∧ y.b ≤ x.b

/-- No datum spans two that are in order. -/
def Unspanned (datas : List TestData) : Prop :=
  ∀ x y z, x ∈ datas → y ∈ datas → z ∈ datas → lt x z = true → ¬ Spans x y z

theorem lt_iff {x y : TestData} :
  lt x y = true ↔ x.a < y.a ∧ x.b < y.b
  := by
  simp [lt]

theorem not_lt_iff {x y : TestData} :
  lt x y = false ↔ (x.a < y.a → y.b ≤ x.b)
  := by
  simp [lt]

/-- The comparison is a strict ordering of any data. -/
theorem strictOn (datas : List TestData) :
  StrictOn lt datas
  := by
  constructor
  · intro x _
    rw [not_lt_iff]
    intro h
    apply absurd h (Int.lt_irrefl x.a)
  · intro x y z _ _ _ hxy hyz
    rw [lt_iff] at hxy hyz ⊢
    constructor
    · apply Int.lt_trans hxy.1 hyz.1
    · apply Int.lt_trans hxy.2 hyz.2

/-- Of two data in order, another one is incomparable to both exactly if it spans them. -/
theorem incomparable_iff_spans {x y z : TestData} (h : lt x z = true) :
  Incomparable lt x y ∧ Incomparable lt y z ↔ Spans x y z
  := by
  rw [lt_iff] at h
  simp only [Incomparable, not_lt_iff, Spans]
  omega

/-- The comparison is weak on exactly the data of which none spans two in order. -/
theorem strictWeakOn_iff_unspanned (datas : List TestData) :
  StrictWeakOn lt datas ↔ Unspanned datas
  := by
  constructor
  · intro h x y z hx hy hz hxz hspans
    obtain ⟨hxy, hyz⟩ := (incomparable_iff_spans hxz).mpr hspans
    have hnot := (h.incomparable x y z hx hy hz hxy hyz).1
    rw [hxz] at hnot
    cases hnot
  · intro h
    constructor
    · apply strictOn
    · intro x y z hx hy hz hxy hyz
      constructor
      · by_contra hxz
        rw [Bool.not_eq_false] at hxz
        apply h x y z hx hy hz hxz
        apply (incomparable_iff_spans hxz).mp ⟨hxy, hyz⟩
      · by_contra hzx
        rw [Bool.not_eq_false] at hzx
        apply h z y x hz hy hx hzx
        apply (incomparable_iff_spans hzx).mp ⟨hyz.symm, hxy.symm⟩

/-- The comparison is a strict weak ordering of the data, and leaves every comparison sort of
them without a datum before a smaller one, whatever the order they are given in, exactly if no
datum spans two that are in order. -/
theorem strictWeakOn_iff (datas : List TestData) :
  (StrictWeakOn lt datas ↔ Unspanned datas) ∧
    ((∀ S : ComparisonSort, ∀ l, l.Perm datas → Ordered lt (S.sort lt l)) ↔ Unspanned datas)
  := by
  constructor
  · apply strictWeakOn_iff_unspanned
  · rw [← StrictWeakOn.iff_forall_sort (strictOn datas)]
    apply strictWeakOn_iff_unspanned

/-- The smallest one, and behind it one that is large in one component and small in the other
between two that are in order, the smaller of these last. -/
def unsorted : List TestData :=
  [⟨0, 0, "abc"⟩, ⟨5, 6, "abc"⟩, ⟨7, 1, "abc"⟩, ⟨3, 4, "abc"⟩]

/-- The comparison of these is not weak, and the insertion sort leaves them as they are. -/
theorem unsorted_not_strictWeakOn :
  ¬ StrictWeakOn lt unsorted ∧ ¬ Ordered lt (insertion.sort lt unsorted)
  := by
  constructor
  · intro h
    have hnot := h.incomparable ⟨3, 4, "abc"⟩ ⟨7, 1, "abc"⟩ ⟨5, 6, "abc"⟩ (by simp [unsorted])
      (by simp [unsorted]) (by simp [unsorted]) ⟨rfl, rfl⟩ ⟨rfl, rfl⟩
    cases hnot.1
  · intro h
    have hordered : Ordered lt unsorted := h
    have hmem : ⟨3, 4, "abc"⟩ ∈ [(⟨7, 1, "abc"⟩ : TestData), ⟨3, 4, "abc"⟩] := by simp
    cases List.rel_of_pairwise_cons (List.Pairwise.of_cons hordered) hmem

end TestData
