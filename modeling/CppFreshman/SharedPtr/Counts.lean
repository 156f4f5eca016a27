import CppFreshman.SharedPtr.Handles
import Mathlib.Data.Set.Card

/-!
# When the counts are right

The counts are right (`CountsRight`) when the counter of every object is the number of its
handles, and an object was deleted and its counter freed, once each, if it has no handle left.
A copy of a handle does not increment the counter, since the test for null is the wrong way
round.  So the counts are right along exactly the runs without a copy construction and without
a copy assignment from another handle (`countsRight_iff`): in these every object has one
handle (`Sole`).
-/

namespace MySharedPtr

variable {κ : Type*}

/-- The live handle `h` holds the object `p`. -/
def Holds (s : State κ) (h : κ) (p : ℕ) : Prop :=
  ∃ x, s.handles h = some x ∧ x.ptr = some p

/-- The counter of every object is the number of handles that hold it; an object was deleted
and its counter freed exactly once if no handle holds it, and not at all otherwise. -/
structure CountsRight (s : State κ) : Prop where
  count : ∀ h x p, s.handles h = some x → x.ptr = some p →
    ∃ n : ℕ, getCount s x = .ok n ∧ { h | Holds s h p }.encard = n
  deleted : ∀ p, p < s.made → (p ∈ s.deleted ↔ ¬ ∃ h, Holds s h p)
  deletedOnce : s.deleted.Nodup
  freed : ∀ p, p < s.made → (p ∈ s.freed ↔ ¬ ∃ h, Holds s h p)
  freedOnce : s.freed.Nodup

/-- No operation was at fault, and the counts are right. -/
def CountsOk : Except Fault (State κ) → Prop
  | .ok s => CountsRight s
  | .error _ => False

/-- The operation copies a handle to another one. -/
def Copies : Op κ → Prop
  | .copy _ _ => True
  | .copyAssign h other => other ≠ h
  | _ => False

/-- The fields of the one handle of the object `p`. -/
def soleHandle (p : ℕ) : Handle :=
  ⟨some p, some p⟩

/-- Every object that is not deleted has one handle and the count 1, and counters are freed
with their objects. -/
structure Sole (s : State κ) : Prop where
  form : ∀ {h x}, s.handles h = some x → x = .empty ∨ ∃ p, x = soleHandle p ∧ p < s.made ∧
    s.counts p = 1 ∧ p ∉ s.deleted
  unique : ∀ {h h' p}, s.handles h = some (soleHandle p) →
    s.handles h' = some (soleHandle p) → h = h'
  held : ∀ {p}, p < s.made → p ∉ s.deleted → ∃ h, s.handles h = some (soleHandle p)
  range : ∀ {p}, p ∈ s.deleted → p < s.made
  once : s.deleted.Nodup
  freed : s.freed = s.deleted

variable {s s' : State κ} {h other : κ} {x y : Handle} {p : ℕ}

/-- In such a state a handle holds an object when it is its one handle. -/
theorem Sole.holds_iff (hs : Sole s) :
  Holds s h p ↔ s.handles h = some (soleHandle p)
  := by
  constructor
  · rintro ⟨x, hx, hp⟩
    rcases hs.form hx with rfl | ⟨q, rfl, -⟩
    · cases hp
    · obtain rfl := Option.some.inj hp
      apply hx
  · intro hx
    use soleHandle p, hx
    rfl

/-- When every object has one handle, the counts are right. -/
theorem Sole.countsRight (hs : Sole s) :
  CountsRight s
  := by
  have hdeleted : ∀ p, p < s.made → (p ∈ s.deleted ↔ ¬ ∃ h, Holds s h p) := by
    intro p hp
    constructor
    · rintro hdel ⟨h, hh⟩
      rcases hs.form (hs.holds_iff.mp hh) with heq | ⟨q, heq, -, -, hnot⟩
      · cases heq
      · obtain rfl := Option.some.inj (congrArg Handle.ptr heq)
        apply hnot hdel
    · intro hnone
      by_contra hnot
      obtain ⟨h, hh⟩ := hs.held hp hnot
      apply hnone
      use h
      apply hs.holds_iff.mpr hh
  constructor
  · intro h x p hx hp
    rcases hs.form hx with rfl | ⟨q, rfl, hq, hcount, hnot⟩
    · cases hp
    · obtain rfl := Option.some.inj hp
      use 1
      constructor
      · rw [getCount, soleHandle]
        simp [hs.freed, hnot, hcount]
      · have hset : { h | Holds s h q } = {h} := by
          ext h'
          rw [Set.mem_ofPred_eq, hs.holds_iff, Set.mem_singleton_iff]
          constructor
          · intro hh'
            apply hs.unique hh' hx
          · rintro rfl
            apply hx
        rw [hset, Set.encard_singleton]
        rfl
  · apply hdeleted
  · apply hs.once
  · rw [hs.freed]
    apply hdeleted
  · rw [hs.freed]
    apply hs.once

/-- Two handles of one object whose counter says 1. -/
theorem CountsRight.not_shared (hc : CountsRight s) {n : ℤ} (hx : s.handles h = some x)
    (hp : x.ptr = some p) (hn : getCount s x = .ok n) (hone : n = 1) (hne : other ≠ h)
    (hother : s.handles other = some x) :
  False
  := by
  obtain ⟨n', hn', hcard⟩ := hc.count h x p hx hp
  rw [hn, hone] at hn'
  have hn1 : n' = 1 := by
    have heq := Except.ok.inj hn'
    omega
  rw [hn1, Nat.cast_one] at hcard
  obtain ⟨h₀, hset⟩ := Set.encard_eq_one.mp hcard
  have hmem : ∀ {h'}, s.handles h' = some x → h' = h₀ := by
    intro h' hh'
    have hin : h' ∈ { h | Holds s h p } := ⟨x, hh', hp⟩
    rw [hset] at hin
    apply hin
  apply hne
  rw [hmem hx, hmem hother]

/-! ### What the operations do -/

theorem soleHandle_ne_empty (p : ℕ) :
  soleHandle p ≠ .empty
  := by
  intro h
  cases h

theorem soleHandle_inj {p q : ℕ} (h : soleHandle p = soleHandle q) :
  p = q
  := by
  apply Option.some.inj (congrArg Handle.ptr h)

/-- The count of the one handle of an object is 1. -/
theorem Sole.count (hs : Sole s) (hh : s.handles h = some (soleHandle p)) :
  p ∉ s.freed ∧ s.counts p = 1
  := by
  rcases hs.form hh with heq | ⟨q, heq, -, hcount, hnot⟩
  · apply absurd heq (soleHandle_ne_empty p)
  · obtain rfl := soleHandle_inj heq
    rw [hs.freed]
    exact ⟨hnot, hcount⟩

/-- The state after the release of the one handle of `p`. -/
def State.drop (s : State κ) (p : ℕ) : State κ :=
  { s with
    counts := Function.update s.counts p 0
    deleted := s.deleted ++ [p]
    freed := s.freed ++ [p] }

/-- Releasing the one handle of an object deletes it. -/
theorem release_sole (hs : Sole s) (hh : s.handles h = some (soleHandle p)) :
  release (soleHandle p) s = .ok (s.drop p)
  := by
  rcases hs.form hh with heq | ⟨q, heq, -, hcount, hnot⟩
  · apply absurd heq (soleHandle_ne_empty p)
  · obtain rfl := soleHandle_inj heq
    have hnotFreed : p ∉ s.freed := by
      rw [hs.freed]
      apply hnot
    simp [release, soleHandle, adjust, deletePtr, deleteCount, State.drop, hnot, hnotFreed,
      hcount, bind, Except.bind]

section

variable [DecidableEq κ]

@[simp]
theorem set_handles_self (s : State κ) (h : κ) (x : Option Handle) :
  (s.set h x).handles h = x
  := by
  apply Function.update_self

@[simp]
theorem set_handles_of_ne (s : State κ) {h h' : κ} (hne : h' ≠ h) (x : Option Handle) :
  (s.set h x).handles h' = s.handles h'
  := by
  apply Function.update_of_ne hne

@[simp]
theorem set_set (s : State κ) (h : κ) (x y : Option Handle) :
  (s.set h x).set h y = s.set h y
  := by
  simp [State.set]

/-- An object whose one handle is released and gone is deleted. -/
theorem Sole.drop (hs : Sole s) (hh : s.handles h = some (soleHandle p)) :
  Sole ((s.drop p).set h none)
  := by
  have hcases : ∀ {h' x}, ((s.drop p).set h none).handles h' = some x →
      h' ≠ h ∧ s.handles h' = some x := by
    intro h' x hx
    by_cases hne : h' = h
    · subst hne
      rw [set_handles_self] at hx
      cases hx
    · rw [set_handles_of_ne _ hne] at hx
      exact ⟨hne, hx⟩
  have hp : p < s.made ∧ p ∉ s.deleted := by
    rcases hs.form hh with heq | ⟨q, heq, hlt, -, hnot⟩
    · apply absurd heq (soleHandle_ne_empty p)
    · obtain rfl := soleHandle_inj heq
      exact ⟨hlt, hnot⟩
  constructor
  · intro h' x hx
    obtain ⟨hne, hold⟩ := hcases hx
    rcases hs.form hold with rfl | ⟨q, rfl, hlt, hcount, hnot⟩
    · left
      rfl
    · right
      have hqp : q ≠ p := by
        rintro rfl
        apply hne (hs.unique hold hh)
      refine ⟨q, rfl, hlt, ?_, ?_⟩
      · simp [State.drop, State.set, hqp, hcount]
      · simp [State.drop, State.set, hqp, hnot]
  · intro h₁ h₂ q h₁q h₂q
    apply hs.unique (hcases h₁q).2 (hcases h₂q).2
  · intro q hq hnot
    simp only [State.drop, State.set, List.mem_append, List.mem_singleton, not_or] at hnot
    obtain ⟨h', hh'⟩ := hs.held hq hnot.1
    use h'
    rw [set_handles_of_ne]
    · apply hh'
    · rintro rfl
      rw [hh, Option.some.injEq] at hh'
      apply hnot.2 (soleHandle_inj hh').symm
  · intro q hq
    simp only [State.drop, State.set, List.mem_append, List.mem_singleton] at hq
    rcases hq with hq | rfl
    · apply hs.range hq
    · apply hp.1
  · simp only [State.drop, State.set, List.nodup_append]
    refine ⟨hs.once, List.nodup_singleton p, ?_⟩
    intro q hq r hr
    obtain rfl := List.mem_singleton.mp hr
    rintro rfl
    apply hp.2 hq
  · simp [State.drop, State.set, hs.freed]

/-- A handle of nothing can be made where none is. -/
theorem Sole.setEmpty (hs : Sole s) (hh : s.handles h = none) :
  Sole (s.set h (some .empty))
  := by
  have hcases : ∀ {h' x}, (s.set h (some .empty)).handles h' = some x →
      x = .empty ∨ s.handles h' = some x := by
    intro h' x hx
    by_cases hne : h' = h
    · subst hne
      rw [set_handles_self] at hx
      left
      apply (Option.some.inj hx).symm
    · rw [set_handles_of_ne _ hne] at hx
      right
      apply hx
  have hsole : ∀ {h' q}, (s.set h (some .empty)).handles h' = some (soleHandle q) →
      s.handles h' = some (soleHandle q) := by
    intro h' q hx
    rcases hcases hx with heq | hx
    · apply absurd heq (soleHandle_ne_empty q)
    · apply hx
  refine ⟨?_, ?_, ?_, hs.range, hs.once, hs.freed⟩
  · intro h' x hx
    rcases hcases hx with rfl | hx
    · left
      rfl
    · apply hs.form hx
  · intro h₁ h₂ q h₁q h₂q
    apply hs.unique (hsole h₁q) (hsole h₂q)
  · intro q hq hnot
    obtain ⟨h', hh'⟩ := hs.held hq hnot
    use h'
    rw [set_handles_of_ne]
    · apply hh'
    · rintro rfl
      rw [hh] at hh'
      cases hh'

/-- A handle that is gone holds nothing. -/
theorem Sole.setNone (hs : Sole s) (hh : s.handles h = some .empty) :
  Sole (s.set h none)
  := by
  have hcases : ∀ {h' x}, (s.set h none).handles h' = some x → s.handles h' = some x := by
    intro h' x hx
    by_cases hne : h' = h
    · subst hne
      rw [set_handles_self] at hx
      cases hx
    · rw [set_handles_of_ne _ hne] at hx
      apply hx
  refine ⟨?_, ?_, ?_, hs.range, hs.once, hs.freed⟩
  · intro h' x hx
    apply hs.form (hcases hx)
  · intro h₁ h₂ q h₁q h₂q
    apply hs.unique (hcases h₁q) (hcases h₂q)
  · intro q hq hnot
    obtain ⟨h', hh'⟩ := hs.held hq hnot
    use h'
    rw [set_handles_of_ne]
    · apply hh'
    · rintro rfl
      rw [hh] at hh'
      apply absurd (Option.some.inj hh').symm (soleHandle_ne_empty q)

/-- The fields of a handle are taken over where none is. -/
theorem Sole.transfer (hs : Sole s) (hh : s.handles h = none) (hother : s.handles other = some x) :
  Sole ((s.set h (some x)).set other (some .empty))
  := by
  have hne : h ≠ other := by
    rintro rfl
    rw [hh] at hother
    cases hother
  have hcases : ∀ {h' q},
      ((s.set h (some x)).set other (some .empty)).handles h' = some (soleHandle q) →
      (h' = h ∧ x = soleHandle q) ∨ (h' ≠ other ∧ s.handles h' = some (soleHandle q)) := by
    intro h' q hq
    by_cases h'o : h' = other
    · subst h'o
      rw [set_handles_self] at hq
      apply absurd (Option.some.inj hq).symm (soleHandle_ne_empty q)
    · rw [set_handles_of_ne _ h'o] at hq
      by_cases h'h : h' = h
      · subst h'h
        rw [set_handles_self] at hq
        exact Or.inl ⟨rfl, Option.some.inj hq⟩
      · rw [set_handles_of_ne _ h'h] at hq
        exact Or.inr ⟨h'o, hq⟩
  refine ⟨?_, ?_, ?_, hs.range, hs.once, hs.freed⟩
  · intro h' z hz
    by_cases h'o : h' = other
    · subst h'o
      rw [set_handles_self] at hz
      left
      apply (Option.some.inj hz).symm
    · rw [set_handles_of_ne _ h'o] at hz
      by_cases h'h : h' = h
      · subst h'h
        rw [set_handles_self] at hz
        obtain rfl := Option.some.inj hz
        apply hs.form hother
      · rw [set_handles_of_ne _ h'h] at hz
        apply hs.form hz
  · intro h₁ h₂ q h₁q h₂q
    rcases hcases h₁q with ⟨h₁h, hx₁⟩ | ⟨h₁o, hq₁⟩ <;>
      rcases hcases h₂q with ⟨h₂h, hx₂⟩ | ⟨h₂o, hq₂⟩
    · rw [h₁h, h₂h]
    · rw [hx₁] at hother
      apply absurd (hs.unique hq₂ hother) h₂o
    · rw [hx₂] at hother
      apply absurd (hs.unique hq₁ hother) h₁o
    · apply hs.unique hq₁ hq₂
  · intro q hq hnot
    obtain ⟨h', hh'⟩ := hs.held hq hnot
    by_cases h'o : h' = other
    · subst h'o
      use h
      rw [set_handles_of_ne _ hne, set_handles_self, ← hother, hh']
    · use h'
      rw [set_handles_of_ne _ h'o, set_handles_of_ne, hh']
      rintro rfl
      rw [hh] at hh'
      cases hh'

/-- A fresh object gets its one handle. -/
theorem Sole.new (hs : Sole s) (hh : s.handles h = none) :
  Sole (s.new.set h (some (soleHandle s.made)))
  := by
  have hcases : ∀ {h' x}, (s.new.set h (some (soleHandle s.made))).handles h' = some x →
      (h' = h ∧ x = soleHandle s.made) ∨ (h' ≠ h ∧ s.handles h' = some x) := by
    intro h' x hx
    by_cases hne : h' = h
    · subst hne
      rw [set_handles_self] at hx
      exact Or.inl ⟨rfl, (Option.some.inj hx).symm⟩
    · rw [set_handles_of_ne _ hne] at hx
      exact Or.inr ⟨hne, hx⟩
  have hlt : ∀ {h' q}, s.handles h' = some (soleHandle q) → q < s.made := by
    intro h' q hq
    rcases hs.form hq with heq | ⟨r, heq, hr, -⟩
    · apply absurd heq (soleHandle_ne_empty q)
    · rw [soleHandle_inj heq]
      apply hr
  have hfresh : s.made ∉ s.deleted := by
    intro hdel
    apply Nat.lt_irrefl s.made (hs.range hdel)
  constructor
  · intro h' x hx
    rcases hcases hx with ⟨-, rfl⟩ | ⟨-, hx⟩
    · right
      refine ⟨s.made, rfl, Nat.lt_succ_self _, ?_, hfresh⟩
      simp [State.new, State.set]
    · rcases hs.form hx with rfl | ⟨q, rfl, hq, hcount, hnot⟩
      · left
        rfl
      · right
        refine ⟨q, rfl, Nat.lt_succ_of_lt hq, ?_, hnot⟩
        simp [State.new, State.set, Nat.ne_of_lt hq, hcount]
  · intro h₁ h₂ q h₁q h₂q
    rcases hcases h₁q with ⟨h₁h, hx₁⟩ | ⟨-, hq₁⟩ <;>
      rcases hcases h₂q with ⟨h₂h, hx₂⟩ | ⟨-, hq₂⟩
    · rw [h₁h, h₂h]
    · rw [soleHandle_inj hx₁] at hq₂
      apply absurd (hlt hq₂) (Nat.lt_irrefl _)
    · rw [soleHandle_inj hx₂] at hq₁
      apply absurd (hlt hq₁) (Nat.lt_irrefl _)
    · apply hs.unique hq₁ hq₂
  · intro q hq hnot
    rcases Nat.lt_succ_iff_lt_or_eq.mp hq with hq | rfl
    · obtain ⟨h', hh'⟩ := hs.held hq hnot
      use h'
      rw [set_handles_of_ne]
      · apply hh'
      · rintro rfl
        rw [hh] at hh'
        cases hh'
    · use h
      apply set_handles_self
  · intro q hq
    apply Nat.lt_succ_of_lt (hs.range hq)
  · apply hs.once
  · apply hs.freed

/-- Releasing a handle and taking it away is not at fault. -/
theorem Sole.release (hs : Sole s) (hh : s.handles h = some y) :
  ∃ s', release y s = .ok s' ∧ s'.handles = s.handles ∧ Sole (s'.set h none) ∧
    ∀ h' p, h' ≠ h → s.handles h' = some (soleHandle p) → getCount s' (soleHandle p) = .ok 1
  := by
  rcases hs.form hh with rfl | ⟨q, rfl, -⟩
  · refine ⟨s, rfl, rfl, hs.setNone hh, ?_⟩
    intro h' p _ hp
    obtain ⟨hnot, hc⟩ := hs.count hp
    simp [getCount, soleHandle, hnot, hc]
  · refine ⟨s.drop q, release_sole hs hh, rfl, hs.drop hh, ?_⟩
    intro h' p hne hp
    obtain ⟨hnot, hc⟩ := hs.count hp
    have hpq : p ≠ q := by
      rintro rfl
      apply hne (hs.unique hp hh)
    simp [getCount, soleHandle, State.drop, hnot, hc, hpq]

/-- An operation that copies no handle is not at fault and leaves every object one handle. -/
theorem perform_sole {e : Op κ} {r : Except Fault (State κ)} (hs : Sole s) (he : ¬ Copies e)
    (h : perform s e = some r) :
  ∃ s', r = .ok s' ∧ Sole s'
  := by
  cases e with
  | default h₀ =>
      obtain ⟨hh, h⟩ := Option.ite_none_right_eq_some.mp h
      obtain rfl := Option.some.inj h
      refine ⟨_, rfl, ?_⟩
      apply hs.setEmpty hh
  | ofNull h₀ =>
      obtain ⟨hh, h⟩ := Option.ite_none_right_eq_some.mp h
      obtain rfl := Option.some.inj h
      refine ⟨_, rfl, ?_⟩
      apply hs.setEmpty hh
  | ofNew h₀ =>
      obtain ⟨hh, h⟩ := Option.ite_none_right_eq_some.mp h
      obtain rfl := Option.some.inj h
      refine ⟨_, rfl, ?_⟩
      apply hs.new hh
  | copy h₀ other => apply absurd trivial he
  | move h₀ other =>
      obtain ⟨hh, h⟩ := Option.ite_none_right_eq_some.mp h
      obtain ⟨x, hx, rfl⟩ := Option.map_eq_some_iff.mp h
      refine ⟨_, rfl, ?_⟩
      apply hs.transfer hh hx
  | copyAssign h₀ other =>
      obtain ⟨y, hy, h⟩ := Option.bind_eq_some_iff.mp h
      obtain ⟨x, hx, rfl⟩ := Option.map_eq_some_iff.mp h
      have hself : ¬ other ≠ h₀ := he
      rw [if_neg hself]
      use s
  | moveAssign h₀ other =>
      obtain ⟨y, hy, h⟩ := Option.bind_eq_some_iff.mp h
      obtain ⟨x, hx, rfl⟩ := Option.map_eq_some_iff.mp h
      split
      · next hne =>
          obtain ⟨s', hrel, hsame, hgone, -⟩ := hs.release hy
          rw [hrel]
          refine ⟨_, rfl, ?_⟩
          rw [← set_set s' h₀ none (some x)]
          apply hgone.transfer (set_handles_self s' h₀ none)
          rw [set_handles_of_ne _ hne, hsame, hx]
      · use s
  | destroy h₀ =>
      obtain ⟨y, hy, rfl⟩ := Option.map_eq_some_iff.mp h
      obtain ⟨s', hrel, -, hgone, -⟩ := hs.release hy
      rw [hrel]
      refine ⟨_, rfl, ?_⟩
      apply hgone

/-- A copy of a handle is at fault or leaves an object with two handles and the count 1. -/
theorem perform_not_countsOk {e : Op κ} {r : Except Fault (State κ)} (hs : Sole s)
    (he : Copies e) (h : perform s e = some r) :
  ¬ CountsOk r
  := by
  have hshared : ∀ {s' : State κ} {h₀ other p}, other ≠ h₀ →
      s'.handles other = some (soleHandle p) → getCount s' (soleHandle p) = .ok 1 →
      ¬ CountsRight (s'.set h₀ (some (soleHandle p))) := by
    intro s' h₀ other p hne hother hcount hright
    apply hright.not_shared (set_handles_self s' h₀ _) rfl hcount rfl hne
    rw [set_handles_of_ne _ hne, hother]
  cases e with
  | copy h₀ other =>
      obtain ⟨hh, h⟩ := Option.ite_none_right_eq_some.mp h
      obtain ⟨x, hx, rfl⟩ := Option.map_eq_some_iff.mp h
      have hne : other ≠ h₀ := by
        rintro rfl
        rw [hh] at hx
        cases hx
      rcases hs.form hx with rfl | ⟨p, rfl, -⟩
      · intro hok
        apply hok
      · apply hshared hne hx
        obtain ⟨hnot, hcount⟩ := hs.count hx
        simp [getCount, soleHandle, hnot, hcount]
  | copyAssign h₀ other =>
      obtain ⟨y, hy, h⟩ := Option.bind_eq_some_iff.mp h
      obtain ⟨x, hx, rfl⟩ := Option.map_eq_some_iff.mp h
      have hne : other ≠ h₀ := he
      rw [if_pos hne]
      obtain ⟨s', hrel, hsame, hgone, hcount⟩ := hs.release hy
      rw [hrel]
      rcases hs.form hx with rfl | ⟨p, rfl, -⟩
      · intro hok
        apply hok
      · apply hshared hne
        · rw [hsame, hx]
        · apply hcount other p hne hx
  | _ => cases he

theorem sole_start (κ : Type*) [DecidableEq κ] :
  Sole (start κ)
  := by
  constructor
  · intro h x hx
    cases hx
  · intro h h' p hp
    cases hp
  · intro p hp
    cases hp
  · intro p hp
    cases hp
  · apply List.nodup_nil
  · rfl

/-- Take any operations on any handles.  After each of them the counts are right and none was at
fault, exactly if no handle is copied: no operation is a copy construction or a copy assignment
from another handle. -/
theorem countsRight_iff {es : List (Op κ)} {r : Except Fault (State κ)}
    (h : (machine κ).run (.ok (start κ)) es = some r) :
  (machine κ).Along CountsOk (.ok (start κ)) es ↔
    (machine κ).Steps (fun _ e => ¬ Copies e) (.ok (start κ)) es
  := by
  apply Machine.along_iff_steps (I := fun r => ∃ s, r = .ok s ∧ Sole s) _ _ _ h
  · exact ⟨start κ, rfl, sole_start κ⟩
  · rintro _ ⟨s, rfl, hs⟩
    apply hs.countsRight
  · rintro _ e r ⟨s, rfl, hs⟩ he hstep
    apply perform_sole hs he hstep
  · rintro _ e r ⟨s, rfl, hs⟩ he hstep
    apply perform_not_countsOk hs (not_not.mp he) hstep

end

/-- A handle of a fresh object, and a copy of it. -/
def sharedTest : List (Op ℕ) :=
  [.ofNew 0, .copy 1 0]

/-- Two handles hold the object, and the count is 1. -/
theorem sharedTest_not_countsOk :
  ∃ r, (machine ℕ).run (.ok (start ℕ)) sharedTest = some r ∧ ¬ CountsOk r
  := by
  refine ⟨_, rfl, ?_⟩
  intro hok
  have hright : CountsRight _ := hok
  apply hright.not_shared (h := 1) (p := 0) rfl rfl rfl rfl Nat.zero_ne_one rfl

/-- A handle of a fresh object that is moved before it is destroyed. -/
def movedTest : List (Op ℕ) :=
  [.ofNew 0, .move 1 0, .destroy 0, .destroy 1]

/-- What is known of that run. -/
theorem countsRight_iff_movedTest :
  (machine ℕ).Along CountsOk (.ok (start ℕ)) movedTest ↔
    (machine ℕ).Steps (fun _ e => ¬ Copies e) (.ok (start ℕ)) movedTest
  := by
  apply countsRight_iff rfl

end MySharedPtr

