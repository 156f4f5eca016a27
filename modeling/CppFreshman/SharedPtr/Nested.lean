import CppFreshman.SharedPtr.Counts
import Mathlib.Algebra.BigOperators.Group.Finset.Basic
import Mathlib.Data.Finmap

/-!
# Handles in objects

Objects that have handles of other objects: when the last handle of an object is released, the
object is deleted, and so its handles are released in turn.  A `Heap` has the handles of every
object by their places; what the variables are in is an object without a counter, which is never
deleted.

`Counted` says that the counters are right while some handles that are destroyed have not been
released yet.  `release` keeps it, and deletes nothing that is held by something that stays
(`release_spec`).
-/

namespace MySharedPtr

/-- What an operation on handles in objects may do wrong: use a freed counter, delete an object
again, use a handle of a deleted object, or go on for ever. -/
inductive Crash where
  | freedCount
  | deletedObject
  | destroyedHandle
  | fuel
  deriving DecidableEq

/-- The place of a handle: the object that it is in and its position there. -/
abbrev Place := ℕ × ℕ

/-- The handles of the objects, in the order in which they are declared, and the counters; an
object and its counter bear the same number. -/
structure Heap where
  objects : Finmap fun _ : ℕ => List Handle
  counts : ℕ → Option ℤ

namespace Heap

variable (s : Heap)

/-- The handle at a place. -/
def handle (pl : Place) : Option Handle :=
  (s.objects.lookup pl.1).bind fun members => members[pl.2]?

/-- A handle is read. -/
def get (pl : Place) : Except Crash Handle :=
  match s.handle pl with
  | some x => .ok x
  | none => .error .destroyedHandle

/-- A handle is written. -/
def put (pl : Place) (x : Handle) : Except Crash Heap :=
  match s.objects.lookup pl.1 with
  | some members => .ok { s with objects := s.objects.insert pl.1 (members.set pl.2 x) }
  | none => .error .destroyedHandle

/-- `--(*used_count)`, with the value it has then. -/
def decrement (u : ℕ) : Except Crash (ℤ × Heap) :=
  match s.counts u with
  | some n => .ok (n - 1, { s with counts := Function.update s.counts u (some (n - 1)) })
  | none => .error .freedCount

/-- `delete used_count`. -/
def deleteCount (u : ℕ) : Except Crash Heap :=
  match s.counts u with
  | some _ => .ok { s with counts := Function.update s.counts u none }
  | none => .error .freedCount

/-- The object `p` is gone. -/
def erase (p : ℕ) : Heap :=
  { s with objects := s.objects.erase p }

/-- `delete ptr`: the handles of the object are destroyed, the last one first. -/
def deletePtr (release : Handle → Heap → Except Crash Heap) (ptr : Option ℕ) (s : Heap) :
    Except Crash Heap :=
  match ptr with
  | none => .ok s
  | some p =>
      match s.objects.lookup p with
      | some members => members.reverse.foldlM (fun s x => release x s) (s.erase p)
      | none => .error .deletedObject

/-- The body of `release()`. -/
def releaseWith (delete : Option ℕ → Heap → Except Crash Heap) (x : Handle) (s : Heap) :
    Except Crash Heap :=
  match x.usedCount with
  | none => .ok s
  | some u => do
      let (n, s) ← s.decrement u
      if n = 0 then
        let s ← delete x.ptr s
        s.deleteCount u
      else pure s

/-- `release()`, which deletes objects in objects to a depth of at most `fuel`. -/
def release : ℕ → Handle → Heap → Except Crash Heap
  | 0 => releaseWith fun _ _ => .error .fuel
  | fuel + 1 => releaseWith (deletePtr (release fuel))

/-- `h = std::move(other)`. -/
def moveAssign (h other : Place) : Except Crash Heap :=
  if other ≠ h then do
    let y ← s.get h
    let s ← release s.objects.keys.card y s
    let x ← s.get other
    let s ← s.put h x
    s.put other .empty
  else .ok s

/-- The places of all the handles. -/
def places : Finset Place :=
  s.objects.keys.biUnion fun a =>
    (Finset.range ((s.objects.lookup a).getD []).length).image (Prod.mk a)

/-- The places of the handles that share the object `p`, but for one that is hidden. -/
def sharing (hidden : Option Place) (p : ℕ) : Finset Place :=
  s.places.filter fun pl => s.handle pl = some (soleHandle p) ∧ some pl ≠ hidden

/-- The handle is one of nothing or of an object that has a counter. -/
def Valid (x : Handle) : Prop :=
  x = .empty ∨ ∃ p n, x = soleHandle p ∧ p ∈ s.objects ∧ s.counts p = some n

/-- The counter of every object is the number of handles that share it, among them those that are
destroyed and have not been released, and without the one at the place that is hidden. -/
structure Counted (hidden : Option Place) (pending : List Handle) : Prop where
  valid : ∀ pl x, some pl ≠ hidden → s.handle pl = some x → s.Valid x
  waiting : ∀ x, x ∈ pending → s.Valid x
  count : ∀ p n, p ∈ s.objects → s.counts p = some n →
    0 < n ∧ n = (s.sharing hidden p).card + pending.count (soleHandle p)

/-- Every object of the set is there, and has no counter or is held by one of the set. -/
def Supports (hidden : Option Place) (K : Set ℕ) : Prop :=
  ∀ b, b ∈ K → b ∈ s.objects ∧ (s.counts b = none ∨
    ∃ pl, pl.1 ∈ K ∧ some pl ≠ hidden ∧ s.handle pl = some (soleHandle b))

end Heap

/-! ### Places -/

variable {s s' : Heap} {hidden : Option Place} {pl : Place} {x : Handle} {p q : ℕ}
  {members rest : List Handle}

/-- The number of positions at which a list has an element. -/
theorem card_positions (members : List Handle) (x : Handle) :
  ((Finset.range members.length).filter fun i => members[i]? = some x).card = members.count x
  := by
  rw [Finset.card_filter]
  induction members with
  | nil => rfl
  | cons y members ih =>
      rw [List.length_cons, Finset.sum_range_succ', List.count_cons]
      congr 1
      · rw [List.getElem?_cons_zero]
        simp

namespace Heap

theorem handle_of_lookup (h : s.objects.lookup pl.1 = some members) :
  s.handle pl = members[pl.2]?
  := by
  rw [handle, h]
  rfl

theorem mem_of_handle (h : s.handle pl = some x) :
  pl.1 ∈ s.objects
  := by
  obtain ⟨members, hlookup, -⟩ := Option.bind_eq_some_iff.mp h
  apply Finmap.mem_of_lookup_eq_some hlookup

theorem mem_places :
  pl ∈ s.places ↔ ∃ x, s.handle pl = some x
  := by
  obtain ⟨a, i⟩ := pl
  rw [places, Finset.mem_biUnion]
  constructor
  · rintro ⟨b, hb, hmem⟩
    obtain ⟨j, hj, heq⟩ := Finset.mem_image.mp hmem
    obtain ⟨rfl, rfl⟩ := Prod.mk.inj heq
    obtain ⟨members, hlookup⟩ := Finmap.mem_iff.mp (Finmap.mem_keys.mp hb)
    rw [hlookup, Option.getD_some, Finset.mem_range] at hj
    rw [handle_of_lookup hlookup]
    use members[j], List.getElem?_eq_getElem hj
  · rintro ⟨x, hx⟩
    obtain ⟨members, hlookup, hget⟩ := Option.bind_eq_some_iff.mp hx
    refine ⟨a, Finmap.mem_keys.mpr (Finmap.mem_of_lookup_eq_some hlookup), ?_⟩
    rw [hlookup, Option.getD_some]
    apply Finset.mem_image_of_mem
    rw [Finset.mem_range]
    apply (List.getElem?_eq_some_iff.mp hget).1

theorem mem_sharing :
  pl ∈ s.sharing hidden p ↔ s.handle pl = some (soleHandle p) ∧ some pl ≠ hidden
  := by
  rw [sharing, Finset.mem_filter, mem_places, and_iff_right_iff_imp]
  rintro ⟨hx, -⟩
  exact ⟨_, hx⟩

theorem handle_erase (h : pl.1 ≠ p) :
  (s.erase p).handle pl = s.handle pl
  := by
  rw [handle, erase, Finmap.lookup_erase_ne h]
  rfl

theorem handle_erase_self (h : pl.1 = p) :
  (s.erase p).handle pl = none
  := by
  rw [handle, erase, h, Finmap.lookup_erase]
  rfl

/-- The handles of an object are no longer among those that share one when it is gone. -/
theorem card_sharing_erase (h : s.objects.lookup p = some members)
    (hhidden : ∀ pl, hidden = some pl → pl.1 ≠ p) :
  (s.sharing hidden q).card =
    ((s.erase p).sharing hidden q).card + members.count (soleHandle q)
  := by
  have hkept : (s.sharing hidden q).filter (fun pl => ¬ pl.1 = p) =
      (s.erase p).sharing hidden q := by
    ext pl
    rw [Finset.mem_filter, mem_sharing, mem_sharing]
    rcases Classical.em (pl.1 = p) with heq | hne
    · rw [handle_erase_self heq]
      simp [heq]
    · rw [handle_erase hne]
      simp [hne]
  have hgone : (s.sharing hidden q).filter (fun pl => pl.1 = p) =
      ((Finset.range members.length).filter
        fun i => members[i]? = some (soleHandle q)).image (Prod.mk p) := by
    ext ⟨a, i⟩
    rw [Finset.mem_filter, mem_sharing, Finset.mem_image]
    constructor
    · rintro ⟨⟨hx, -⟩, rfl⟩
      rw [handle_of_lookup h] at hx
      use i
      rw [Finset.mem_filter, Finset.mem_range]
      use ⟨(List.getElem?_eq_some_iff.mp hx).1, hx⟩
    · rintro ⟨j, hj, heq⟩
      obtain ⟨rfl, rfl⟩ := Prod.mk.inj heq
      obtain ⟨-, hx⟩ := Finset.mem_filter.mp hj
      refine ⟨⟨?_, ?_⟩, rfl⟩
      · rw [handle_of_lookup h]
        exact hx
      · intro heq
        apply hhidden _ heq.symm rfl
  have hinj : Function.Injective (Prod.mk p : ℕ → Place) := by
    intro i j hij
    apply (Prod.mk.inj hij).2
  have hsplit := Finset.card_filter_add_card_filter_not (s := s.sharing hidden q)
    (fun pl : Place => pl.1 = p)
  rw [hkept, hgone, Finset.card_image_of_injective _ hinj, card_positions] at hsplit
  rw [← hsplit, Nat.add_comm]

/-! ### Releasing a handle -/

theorem ok_bind {α β : Type} (x : α) (f : α → Except Crash β) :
  (Except.ok x >>= f) = f x
  := rfl

/-- Objects are deleted, with their counters, and those that remain have the same handles. -/
structure Shrinks (s s' : Heap) : Prop where
  kept : ∀ p members, s'.objects.lookup p = some members → s.objects.lookup p = some members
  counted : ∀ p, p ∈ s'.objects → (s'.counts p = none ↔ s.counts p = none)
  frame : ∀ p, p ∉ s.objects → s'.counts p = s.counts p

theorem Shrinks.refl (s : Heap) :
  Shrinks s s
  := ⟨fun _ _ h => h, fun _ _ => Iff.rfl, fun _ _ => rfl⟩

theorem Shrinks.mem (h : Shrinks s s') (hp : p ∈ s'.objects) :
  p ∈ s.objects
  := by
  obtain ⟨members, hlookup⟩ := Finmap.mem_iff.mp hp
  apply Finmap.mem_of_lookup_eq_some (h.kept p members hlookup)

theorem Shrinks.trans {s'' : Heap} (h : Shrinks s s') (h' : Shrinks s' s'') :
  Shrinks s s''
  := by
  constructor
  · intro p members hlookup
    apply h.kept p members (h'.kept p members hlookup)
  · intro p hp
    rw [h'.counted p hp, h.counted p (h'.mem hp)]
  · intro p hp
    rw [h'.frame p fun hp' => hp (h.mem hp'), h.frame p hp]

theorem Shrinks.card_le (h : Shrinks s s') :
  s'.objects.keys.card ≤ s.objects.keys.card
  := by
  apply Finset.card_le_card
  intro p hp
  apply Finmap.mem_keys.mpr (h.mem (Finmap.mem_keys.mp hp))

theorem Shrinks.handle (h : Shrinks s s') (hx : s'.handle pl = some x) :
  s.handle pl = some x
  := by
  obtain ⟨members, hlookup, hget⟩ := Option.bind_eq_some_iff.mp hx
  rw [handle_of_lookup (h.kept _ _ hlookup)]
  exact hget

/-- What the counters of deleted objects are does not matter. -/
theorem Counted.congr (h : s.Counted hidden rest) (hobjects : s'.objects = s.objects)
    (hcounts : ∀ p, p ∈ s.objects → s'.counts p = s.counts p) :
  s'.Counted hidden rest
  := by
  have hhandle : ∀ pl, s'.handle pl = s.handle pl := by
    intro pl
    rw [Heap.handle, Heap.handle, hobjects]
  have hvalid : ∀ x, s.Valid x → s'.Valid x := by
    rintro x (rfl | ⟨p, n, rfl, hp, hn⟩)
    · exact Or.inl rfl
    · right
      refine ⟨p, n, rfl, ?_, ?_⟩
      · rw [hobjects]
        exact hp
      · rw [hcounts p hp]
        exact hn
  have hsharing : ∀ p, s'.sharing hidden p = s.sharing hidden p := by
    intro p
    ext pl
    rw [mem_sharing, mem_sharing, hhandle]
  constructor
  · intro pl x hpl hx
    rw [hhandle] at hx
    apply hvalid x (h.valid pl x hpl hx)
  · intro x hx
    apply hvalid x (h.waiting x hx)
  · intro p n hp hn
    rw [hobjects] at hp
    rw [hcounts p hp] at hn
    rw [hsharing]
    apply h.count p n hp hn

theorem Supports.congr {K : Set ℕ} (h : s.Supports hidden K) (s' : Heap) (hK : ∀ b, b ∈ K → b ∈ s'.objects)
    (hkept : ∀ p members, s'.objects.lookup p = some members → s.objects.lookup p = some members)
    (hcounted : ∀ p, p ∈ s'.objects → (s'.counts p = none ↔ s.counts p = none)) :
  s'.Supports hidden K
  := by
  intro b hb
  use hK b hb
  rcases (h b hb).2 with hnone | ⟨pl, hpl, hne, hx⟩
  · left
    rw [hcounted b (hK b hb)]
    exact hnone
  · right
    use pl, hpl, hne
    obtain ⟨members, hlookup⟩ := Finmap.mem_iff.mp (hK pl.1 hpl)
    rw [handle_of_lookup hlookup, ← handle_of_lookup (hkept _ _ hlookup)]
    exact hx

/-- A handle of an object whose other handles remain is released. -/
theorem Counted.decrement {n : ℤ} (h : s.Counted hidden (soleHandle p :: rest))
    (hn : s.counts p = some n) (hne : n - 1 ≠ 0) :
  Counted { s with counts := Function.update s.counts p (some (n - 1)) } hidden rest
  := by
  have hvalid : ∀ x, s.Valid x →
      Valid { s with counts := Function.update s.counts p (some (n - 1)) } x := by
    rintro x (rfl | ⟨q, k, rfl, hq, hk⟩)
    · exact Or.inl rfl
    · right
      rcases Classical.em (q = p) with rfl | hqp
      · exact ⟨q, n - 1, rfl, hq, Function.update_self _ _ _⟩
      · exact ⟨q, k, rfl, hq, (Function.update_of_ne hqp _ _).trans hk⟩
  constructor
  · intro pl x hpl hx
    apply hvalid x (h.valid pl x hpl hx)
  · intro x hx
    apply hvalid x (h.waiting x (List.mem_cons_of_mem _ hx))
  · intro q k hq hk
    have hsharing : sharing { s with counts := Function.update s.counts p (some (n - 1)) } hidden q =
        s.sharing hidden q := rfl
    rw [hsharing]
    simp only at hk
    rcases Classical.em (q = p) with rfl | hqp
    · rw [Function.update_self] at hk
      obtain rfl := Option.some.inj hk
      obtain ⟨hpos, hcount⟩ := h.count q n hq hn
      rw [List.count_cons_self] at hcount
      omega
    · rw [Function.update_of_ne hqp] at hk
      obtain ⟨hpos, hcount⟩ := h.count q k hq hk
      rw [List.count_cons_of_ne] at hcount
      · exact ⟨hpos, hcount⟩
      · intro heq
        apply hqp (soleHandle_inj heq).symm

/-- The handle that is released is the only one of its object. -/
theorem Counted.last (h : s.Counted hidden (soleHandle p :: rest)) (hp : p ∈ s.objects)
    (hn : s.counts p = some 1) :
  s.sharing hidden p = ∅ ∧ soleHandle p ∉ rest
  := by
  obtain ⟨-, hcount⟩ := h.count p 1 hp hn
  rw [List.count_cons_self] at hcount
  constructor
  · apply Finset.card_eq_zero.mp
    omega
  · apply List.count_eq_zero.mp
    omega

/-- The only handle of an object that is released is not one of an object that is held by something
that stays. -/
theorem Supports.not_last {K : Set ℕ} (hK : s.Supports hidden K)
    (hsharing : s.sharing hidden p = ∅) (hn : s.counts p = some 1) :
  p ∉ K
  := by
  intro hp
  rcases (hK p hp).2 with hnone | ⟨pl, -, hne, hx⟩
  · rw [hn] at hnone
    cases hnone
  · have hmem : pl ∈ s.sharing hidden p := mem_sharing.mpr ⟨hx, hne⟩
    rw [hsharing] at hmem
    cases hmem

/-- The handles in an object whose last handle is released are the next ones to be. -/
theorem Counted.delete (h : s.Counted hidden (soleHandle p :: rest)) (hn : s.counts p = some 1)
    (hlookup : s.objects.lookup p = some members)
    (hhidden : ∀ pl, hidden = some pl → pl.1 ≠ p) :
  Counted ⟨s.objects.erase p, Function.update s.counts p (some 0)⟩ hidden (members.reverse ++ rest)
  := by
  have hp := Finmap.mem_of_lookup_eq_some hlookup
  obtain ⟨hsharing, hrest⟩ := h.last hp hn
  have hvalid : ∀ x, x ≠ soleHandle p → s.Valid x →
      Valid ⟨s.objects.erase p, Function.update s.counts p (some 0)⟩ x := by
    rintro x hne (rfl | ⟨q, k, rfl, hq, hk⟩)
    · exact Or.inl rfl
    · right
      have hqp : q ≠ p := by
        rintro rfl
        apply hne rfl
      exact ⟨q, k, rfl, Finmap.mem_erase.mpr ⟨hqp, hq⟩, (Function.update_of_ne hqp _ _).trans hk⟩
  have hplace : ∀ pl, some pl ≠ hidden → s.handle pl ≠ some (soleHandle p) := by
    intro pl hpl hx
    have hmem : pl ∈ s.sharing hidden p := mem_sharing.mpr ⟨hx, hpl⟩
    rw [hsharing] at hmem
    cases hmem
  constructor
  · intro pl x hpl hx
    have hne : pl.1 ≠ p := by
      intro heq
      have hnone := handle_erase_self (s := s) heq
      rw [show (s.erase p).handle pl = some x from hx] at hnone
      cases hnone
    have hx : s.handle pl = some x := by
      rw [← handle_erase hne]
      exact hx
    apply hvalid x _ (h.valid pl x hpl hx)
    rintro rfl
    apply hplace pl hpl hx
  · intro x hx
    rcases List.mem_append.mp hx with hx | hx
    · rw [List.mem_reverse] at hx
      obtain ⟨i, hi⟩ := List.mem_iff_getElem?.mp hx
      have hhandle : s.handle (p, i) = some x := by
        rw [handle_of_lookup hlookup]
        exact hi
      have hne : some (p, i) ≠ hidden := by
        intro heq
        apply hhidden _ heq.symm rfl
      apply hvalid x _ (h.valid _ x hne hhandle)
      rintro rfl
      apply hplace _ hne hhandle
    · apply hvalid x _ (h.waiting x (List.mem_cons_of_mem _ hx))
      rintro rfl
      apply hrest hx
  · intro q k hq hk
    obtain ⟨hqp, hq⟩ := Finmap.mem_erase.mp hq
    simp only at hk
    rw [Function.update_of_ne hqp] at hk
    obtain ⟨hpos, hcount⟩ := h.count q k hq hk
    have hcard := card_sharing_erase (q := q) hlookup hhidden
    have hsame : sharing ⟨s.objects.erase p, Function.update s.counts p (some 0)⟩ hidden q =
        (s.erase p).sharing hidden q := rfl
    use hpos
    rw [hsame, List.count_append, List.count_reverse]
    rw [List.count_cons_of_ne] at hcount
    · omega
    · intro heq
      apply hqp (soleHandle_inj heq).symm

/-- What `release` does to a handle. -/
def Releases (release : Handle → Heap → Except Crash Heap) (hidden : Option Place) (K : Set ℕ)
    (fuel : ℕ) : Prop :=
  ∀ s x rest, s.objects.keys.card ≤ fuel → s.Counted hidden (x :: rest) → s.Supports hidden K →
    ∃ s', release x s = .ok s' ∧ s'.Counted hidden rest ∧ s'.Supports hidden K ∧ Shrinks s s'

/-- Several handles are released one after the other. -/
theorem Releases.foldlM {release : Handle → Heap → Except Crash Heap} {K : Set ℕ} {fuel : ℕ}
    (h : Releases release hidden K fuel) (xs : List Handle) (hfuel : s.objects.keys.card ≤ fuel)
    (hs : s.Counted hidden (xs ++ rest)) (hK : s.Supports hidden K) :
  ∃ s', xs.foldlM (fun s x => release x s) s = .ok s' ∧ s'.Counted hidden rest ∧
    s'.Supports hidden K ∧ Shrinks s s'
  := by
  induction xs generalizing s with
  | nil => exact ⟨s, rfl, hs, hK, Shrinks.refl s⟩
  | cons x xs ih =>
      obtain ⟨s₁, hrelease, hs₁, hK₁, hshrinks⟩ := h s x (xs ++ rest) hfuel hs hK
      obtain ⟨s₂, hfold, hs₂, hK₂, hshrinks'⟩ :=
        ih (Nat.le_trans hshrinks.card_le hfuel) hs₁ hK₁
      refine ⟨s₂, ?_, hs₂, hK₂, hshrinks.trans hshrinks'⟩
      rw [List.foldlM_cons, hrelease, ok_bind]
      exact hfold

/-- A handle whose object stays is released. -/
theorem releaseWith_spec {delete : Option ℕ → Heap → Except Crash Heap} {K : Set ℕ}
    (hs : s.Counted hidden (x :: rest)) (hK : s.Supports hidden K)
    (hdelete : ∀ p members, x = soleHandle p → s.objects.lookup p = some members →
      s.counts p = some 1 → ∃ s',
      delete (some p) { s with counts := Function.update s.counts p (some 0) } = .ok s' ∧
      s'.counts p = some 0 ∧ p ∉ s'.objects ∧ s'.Counted hidden rest ∧ s'.Supports hidden K ∧
      Shrinks s s') :
  ∃ s', releaseWith delete x s = .ok s' ∧ s'.Counted hidden rest ∧ s'.Supports hidden K ∧
    Shrinks s s'
  := by
  rcases hs.waiting x List.mem_cons_self with rfl | ⟨p, n, rfl, hp, hn⟩
  · refine ⟨s, rfl, ⟨hs.valid, ?_, ?_⟩, hK, Shrinks.refl s⟩
    · intro x hx
      apply hs.waiting x (List.mem_cons_of_mem _ hx)
    · intro q k hq hk
      have hcount := hs.count q k hq hk
      rw [List.count_cons_of_ne] at hcount
      · exact hcount
      · apply Ne.symm (soleHandle_ne_empty q)
  · have hdecrement : s.decrement p =
        .ok (n - 1, { s with counts := Function.update s.counts p (some (n - 1)) }) := by
      rw [decrement, hn]
    have hrelease : releaseWith delete (soleHandle p) s = (do
        let (n, s) ← s.decrement p
        if n = 0 then
          let s ← delete (some p) s
          s.deleteCount p
        else pure s) := rfl
    rw [hrelease, hdecrement, ok_bind]
    simp only
    rcases Classical.em (n - 1 = 0) with hzero | hne
    · obtain rfl : n = 1 := by omega
      obtain ⟨members, hlookup⟩ := Finmap.mem_iff.mp hp
      obtain ⟨s₁, hdel, hcount, hnot, hs₁, hK₁, hshrinks⟩ := hdelete p members rfl hlookup hn
      have hdone : s₁.deleteCount p =
          .ok { s₁ with counts := Function.update s₁.counts p none } := by
        rw [deleteCount, hcount]
      have hother : ∀ q, q ∈ s₁.objects → Function.update s₁.counts p none q = s₁.counts q := by
        intro q hq
        apply Function.update_of_ne
        rintro rfl
        apply hnot hq
      rw [if_pos hzero, hzero, hdel, ok_bind, hdone]
      have hcounted : ∀ q, q ∈ s₁.objects →
          (Function.update s₁.counts p none q = none ↔ s.counts q = none) := by
        intro q hq
        rw [hother q hq, hshrinks.counted q hq]
      refine ⟨_, rfl, hs₁.congr rfl hother, ?_, hshrinks.kept, hcounted, ?_⟩
      · apply hK.congr ⟨s₁.objects, Function.update s₁.counts p none⟩ (fun b hb => (hK₁ b hb).1)
          hshrinks.kept hcounted
      · intro q hq
        rw [← hshrinks.frame q hq]
        apply Function.update_of_ne
        rintro rfl
        apply hq hp
    · have hcounted : ∀ q, q ∈ s.objects →
          (Function.update s.counts p (some (n - 1)) q = none ↔ s.counts q = none) := by
        intro q hq
        rcases Classical.em (q = p) with rfl | hqp
        · rw [Function.update_self, hn]
          simp
        · rw [Function.update_of_ne hqp]
      rw [if_neg hne]
      refine ⟨_, rfl, hs.decrement hn hne, ?_, fun _ _ hq => hq, hcounted, ?_⟩
      · apply hK.congr ⟨s.objects, Function.update s.counts p (some (n - 1))⟩ (fun b hb => (hK b hb).1)
          (fun _ _ hq => hq) hcounted
      · intro q hq
        apply Function.update_of_ne
        rintro rfl
        apply hq hp

/-- A handle that is released may be the last one of its object, and then those in the object are
released; the objects that are held by something that stays are not deleted. -/
theorem release_spec {K : Set ℕ} (hhidden : ∀ pl, hidden = some pl → pl.1 ∈ K) (fuel : ℕ) :
  Releases (release fuel) hidden K fuel
  := by
  induction fuel with
  | zero =>
      intro s x rest hfuel hs hK
      apply releaseWith_spec hs hK
      intro p members hx hlookup hn
      have hmem := Finmap.mem_keys.mpr (Finmap.mem_of_lookup_eq_some hlookup)
      rw [Finset.card_eq_zero.mp (Nat.le_zero.mp hfuel)] at hmem
      cases hmem
  | succ fuel ih =>
      intro s x rest hfuel hs hK
      apply releaseWith_spec hs hK
      rintro p members rfl hlookup hn
      have hp := Finmap.mem_of_lookup_eq_some hlookup
      have hnot := hK.not_last (hs.last hp hn).1 hn
      have hne : ∀ pl, hidden = some pl → pl.1 ≠ p := by
        rintro pl hpl rfl
        apply hnot (hhidden pl hpl)
      have hcard : (s.objects.erase p).keys.card ≤ fuel := by
        have hkeys : (s.objects.erase p).keys = s.objects.keys.erase p := Finmap.keys_erase p _
        rw [hkeys, Finset.card_erase_of_mem (Finmap.mem_keys.mpr hp)]
        omega
      have hkept : ∀ q members, (s.objects.erase p).lookup q = some members →
          s.objects.lookup q = some members := by
        intro q members hq
        have hmem := Finmap.mem_of_lookup_eq_some hq
        rw [Finmap.lookup_erase_ne (Finmap.mem_erase.mp hmem).1] at hq
        exact hq
      have hcounted : ∀ q, q ∈ s.objects.erase p →
          (Function.update s.counts p (some 0) q = none ↔ s.counts q = none) := by
        intro q hq
        rw [Function.update_of_ne (Finmap.mem_erase.mp hq).1]
      have hK' : Supports ⟨s.objects.erase p, Function.update s.counts p (some 0)⟩ hidden K := by
        apply hK.congr ⟨s.objects.erase p, Function.update s.counts p (some 0)⟩ _ hkept hcounted
        intro b hb
        apply Finmap.mem_erase.mpr
        use fun heq => hnot (heq ▸ hb), (hK b hb).1
      obtain ⟨s', hfold, hs', hKs', hshrinks⟩ :=
        ih.foldlM members.reverse hcard (hs.delete hn hlookup hne) hK'
      have hdelete : deletePtr (release fuel) (some p)
          { s with counts := Function.update s.counts p (some 0) } = .ok s' := by
        rw [deletePtr]
        simp only [hlookup]
        exact hfold
      refine ⟨s', hdelete, ?_, ?_, hs', hKs', ?_, ?_, ?_⟩
      · have hgone : p ∉ s.objects.erase p := fun hmem => (Finmap.mem_erase.mp hmem).1 rfl
        rw [hshrinks.frame p hgone]
        apply Function.update_self
      · intro hmem
        apply (Finmap.mem_erase.mp (hshrinks.mem hmem)).1 rfl
      · intro q members hq
        apply hkept q members (hshrinks.kept q members hq)
      · intro q hq
        rw [hshrinks.counted q hq]
        apply hcounted q (hshrinks.mem hq)
      · intro q hq
        have hgone : q ∉ s.objects.erase p := fun hmem => hq (Finmap.mem_erase.mp hmem).2
        rw [hshrinks.frame q hgone]
        apply Function.update_of_ne
        rintro rfl
        apply hq hp

end Heap

end MySharedPtr
