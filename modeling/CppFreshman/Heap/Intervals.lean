import Mathlib.Algebra.Ring.Nat
import Mathlib.Data.Finset.Card
import Mathlib.Order.Interval.Finset.Nat

/-!
# Disjoint intervals

Intervals of natural numbers below `bound` that do not overlap are together no longer than
`bound`.
-/

universe u

variable {ι : Type u} {lo len : ι → ℕ} {l : List ι}

/-- As many numbers as the intervals are long lie in them. -/
theorem exists_finset_of_pairwise
    (h : l.Pairwise fun i j => lo i + len i ≤ lo j ∨ lo j + len j ≤ lo i) :
  ∃ s : Finset ℕ, s.card = (l.map len).sum ∧
    ∀ x, x ∈ s → ∃ i, i ∈ l ∧ lo i ≤ x ∧ x < lo i + len i
  := by
  induction l with
  | nil =>
      use ∅
      simp
  | cons i l ih =>
      obtain ⟨hi, hl⟩ := List.pairwise_cons.mp h
      obtain ⟨s, hcard, hs⟩ := ih hl
      have hdisj : Disjoint (Finset.Ico (lo i) (lo i + len i)) s := by
        rw [Finset.disjoint_left]
        intro x hx hxs
        obtain ⟨j, hj, hlo, hhi⟩ := hs x hxs
        have := hi j hj
        rw [Finset.mem_Ico] at hx
        omega
      use Finset.Ico (lo i) (lo i + len i) ∪ s
      constructor
      · rw [Finset.card_union_of_disjoint hdisj, Nat.card_Ico, hcard, List.map_cons,
          List.sum_cons]
        omega
      · intro x hx
        obtain hx | hx := Finset.mem_union.mp hx
        · exact ⟨i, List.mem_cons_self, Finset.mem_Ico.mp hx⟩
        · obtain ⟨j, hj, hx⟩ := hs x hx
          exact ⟨j, List.mem_cons_of_mem i hj, hx⟩

theorem sum_le_of_pairwise (lo : ι → ℕ) {bound : ℕ}
    (h : l.Pairwise fun i j => lo i + len i ≤ lo j ∨ lo j + len j ≤ lo i)
    (hbound : ∀ i, i ∈ l → lo i + len i ≤ bound) :
  (l.map len).sum ≤ bound
  := by
  obtain ⟨s, hcard, hs⟩ := exists_finset_of_pairwise h
  have hsub : s ⊆ Finset.range bound := by
    intro x hx
    obtain ⟨i, hi, -, hlt⟩ := hs x hx
    have := hbound i hi
    rw [Finset.mem_range]
    omega
  rw [← hcard]
  simpa using Finset.card_le_card hsub
