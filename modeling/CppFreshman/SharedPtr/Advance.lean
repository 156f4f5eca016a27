import CppFreshman.SharedPtr.Nested
import Mathlib.Data.Fintype.Pigeonhole
import Mathlib.Logic.Relation

/-!
# Assignment from inside an object

`h = std::move(o.f)`, where the object `o` is owned only through the handle `h`, as in the step
`head = std::move(head->next)` along a list.  The assignment releases `h` before it reads `o.f`:
unless `o` is kept by a cycle of objects that hold one another, it is deleted by then
(`assignsSafely_iff`).
-/

namespace MySharedPtr

/-- Behind an element of a finite set, each of which has a predecessor in it, there is a cycle. -/
theorem exists_cycle {α : Type*} {r : α → α → Prop} {R : Set α} {o : α} (hfinite : R.Finite)
    (hpred : ∀ b, b ∈ R → ∃ a, a ∈ R ∧ r a b) (ho : o ∈ R) :
  ∃ c, Relation.TransGen r c c ∧ Relation.ReflTransGen r c o
  := by
  have hfinite := hfinite.to_subtype
  choose f hmem hstep using hpred
  let g : R → R := fun b => ⟨f b.val b.property, hmem b.val b.property⟩
  have hback : ∀ n (b : R), Relation.ReflTransGen r (g^[n] b).val b.val := by
    intro n
    induction n with
    | zero =>
        intro b
        apply Relation.ReflTransGen.refl
    | succ n ih =>
        intro b
        rw [Function.iterate_succ_apply]
        apply Relation.ReflTransGen.tail (ih (g b))
        apply hstep
  obtain ⟨m, n, hne, heq⟩ := Finite.exists_ne_map_eq_of_infinite fun n => g^[n] ⟨o, ho⟩
  have hcycle : ∀ {m n}, m < n → g^[m] ⟨o, ho⟩ = g^[n] ⟨o, ho⟩ →
      Relation.TransGen r (g^[m] ⟨o, ho⟩).val (g^[m] ⟨o, ho⟩).val := by
    intro m n hlt heq
    obtain ⟨k, rfl⟩ := Nat.exists_eq_add_of_lt hlt
    have hsplit : g^[m + k + 1] ⟨o, ho⟩ = g^[k] (g (g^[m] ⟨o, ho⟩)) := by
      rw [← Function.iterate_succ_apply, ← Function.iterate_add_apply]
      congr 1
      omega
    have hpath := hback k (g (g^[m] ⟨o, ho⟩))
    rw [← hsplit, ← heq] at hpath
    apply Relation.TransGen.tail' hpath
    apply hstep
  rcases Nat.lt_or_gt_of_ne hne with hlt | hgt
  · exact ⟨_, hcycle hlt heq, hback m ⟨o, ho⟩⟩
  · exact ⟨_, hcycle hgt heq.symm, hback n ⟨o, ho⟩⟩

namespace Heap

/-- The object `a` has a handle of the object `b`, other than the hidden one. -/
def Edge (s : Heap) (hidden : Option Place) (a b : ℕ) : Prop :=
  ∃ pl, pl.1 = a ∧ some pl ≠ hidden ∧ s.handle pl = some (soleHandle b)

/-- The object is reached from one without a counter, that is from a variable, through handles
other than the hidden one. -/
def Reached (s : Heap) (hidden : Option Place) (b : ℕ) : Prop :=
  ∃ r, r ∈ s.objects ∧ s.counts r = none ∧ Relation.ReflTransGen (s.Edge hidden) r b

/-- The object is owned, directly or through other objects, and only through the handle at `h`. -/
structure OwnedThrough (s : Heap) (h : Place) (o : ℕ) : Prop where
  owned : s.Reached none o
  only : ¬ s.Reached (some h) o

/-- The object is reached from a cycle of objects that hold one another, or is on one, without the
handle at `h`. -/
def KeptByCycle (s : Heap) (h : Place) (o : ℕ) : Prop :=
  ∃ c, Relation.TransGen (s.Edge (some h)) c c ∧ Relation.ReflTransGen (s.Edge (some h)) c o

/-- `h = std::move(other)` leaves `h` with the object that `other` had, which is not deleted and
has the right count, and reads no field of a handle that is destroyed. -/
def AssignsSafely (s : Heap) (h other : Place) : Prop :=
  ∃ x s', s.handle other = some x ∧ s.moveAssign h other = .ok s' ∧ s'.handle h = some x ∧
    ∀ p, x = soleHandle p → p ∈ s'.objects ∧ s'.counts p = some ((s'.sharing none p).card : ℤ)

variable {s s' : Heap} {h other pl : Place} {x y : Handle} {hidden : Option Place} {a b o p : ℕ}

/-! ### Who is reached -/

theorem mem_of_get (hget : s.get pl = .ok x) :
  s.handle pl = some x
  := by
  rw [get] at hget
  rcases hx : s.handle pl with _ | z
  · rw [hx] at hget
    cases hget
  · rw [hx] at hget
    rw [Except.ok.inj hget]

theorem get_eq (hx : s.handle pl = some x) :
  s.get pl = .ok x
  := by
  rw [get, hx]

/-- Either a path does without the handle at `h`, or the object of the handle is reached without
it. -/
theorem reached_or (hpath : Relation.ReflTransGen (s.Edge none) a b) :
  Relation.ReflTransGen (s.Edge (some h)) a b ∨
    Relation.ReflTransGen (s.Edge (some h)) a h.1 ∧ ∃ c, s.handle h = some (soleHandle c)
  := by
  induction hpath with
  | refl => exact Or.inl Relation.ReflTransGen.refl
  | @tail b c hpath hedge ih =>
      rcases ih with hb | hh
      · obtain ⟨pl, rfl, -, hx⟩ := hedge
        rcases Classical.em (pl = h) with rfl | hne
        · exact Or.inr ⟨hb, c, hx⟩
        · left
          apply hb.tail
          use pl, rfl
          use fun heq => hne (Option.some.inj heq), hx
      · exact Or.inr hh

/-- The object of `h` is reached without `h`, and `h` holds something. -/
theorem OwnedThrough.reached (howned : s.OwnedThrough h o) :
  s.Reached (some h) h.1 ∧ ∃ c, s.handle h = some (soleHandle c)
  := by
  obtain ⟨⟨r, hr, hnone, hpath⟩, honly⟩ := howned
  rcases reached_or (h := h) hpath with hpath | ⟨hpath, hc⟩
  · apply absurd _ honly
    exact ⟨r, hr, hnone, hpath⟩
  · exact ⟨⟨r, hr, hnone, hpath⟩, hc⟩

theorem OwnedThrough.ne (howned : s.OwnedThrough h other.1) :
  other ≠ h
  := by
  rintro rfl
  apply howned.only howned.reached.1

/-- What is held is there. -/
theorem Counted.edge_mem {pending : List Handle} (hs : s.Counted hidden pending)
    (hedge : s.Edge hidden a b) :
  b ∈ s.objects
  := by
  obtain ⟨pl, -, hne, hx⟩ := hedge
  rcases hs.valid pl _ hne hx with heq | ⟨q, n, heq, hq, -⟩
  · apply absurd heq (soleHandle_ne_empty b)
  · rw [soleHandle_inj heq]
    exact hq

/-- What is reached from variables stays. -/
theorem Counted.supports_reached {pending : List Handle} (hs : s.Counted hidden pending) :
  s.Supports hidden { b | s.Reached hidden b }
  := by
  rintro b ⟨r, hr, hnone, hpath⟩
  cases hpath with
  | refl => exact ⟨hr, Or.inl hnone⟩
  | @tail c b hpath hedge =>
      use hs.edge_mem hedge
      obtain ⟨pl, rfl, hne, hx⟩ := hedge
      exact Or.inr ⟨pl, ⟨r, hr, hnone, hpath⟩, hne, hx⟩

/-- What is reached from a cycle stays. -/
theorem Counted.supports_cycle {pending : List Handle} {c : ℕ} (hs : s.Counted hidden pending)
    (hcycle : Relation.TransGen (s.Edge hidden) c c) :
  s.Supports hidden { b | Relation.ReflTransGen (s.Edge hidden) c b }
  := by
  have hstep : ∀ {d b}, Relation.ReflTransGen (s.Edge hidden) c d → s.Edge hidden d b →
      b ∈ s.objects ∧ (s.counts b = none ∨
        ∃ pl, Relation.ReflTransGen (s.Edge hidden) c pl.1 ∧ some pl ≠ hidden ∧
          s.handle pl = some (soleHandle b)) := by
    intro d b hd hedge
    use hs.edge_mem hedge
    obtain ⟨pl, rfl, hne, hx⟩ := hedge
    exact Or.inr ⟨pl, hd, hne, hx⟩
  intro b hb
  cases hb with
  | refl =>
      obtain ⟨d, hd, hedge⟩ := Relation.TransGen.tail'_iff.mp hcycle
      apply hstep hd hedge
  | tail hb hedge => exact hstep hb hedge

theorem Supports.union {K K' : Set ℕ} (hK : s.Supports hidden K) (hK' : s.Supports hidden K') :
  s.Supports hidden (K ∪ K')
  := by
  rintro b (hb | hb)
  · obtain ⟨hmem, hheld⟩ := hK b hb
    use hmem
    rcases hheld with hnone | ⟨pl, hpl, hx⟩
    · exact Or.inl hnone
    · exact Or.inr ⟨pl, Or.inl hpl, hx⟩
  · obtain ⟨hmem, hheld⟩ := hK' b hb
    use hmem
    rcases hheld with hnone | ⟨pl, hpl, hx⟩
    · exact Or.inl hnone
    · exact Or.inr ⟨pl, Or.inr hpl, hx⟩

/-! ### The assignment -/

/-- A handle is written where there is one. -/
theorem put_eq (hx : s.handle pl = some y) (x : Handle) :
  ∃ s', s.put pl x = .ok s' ∧ s'.counts = s.counts ∧ (∀ p, p ∈ s'.objects ↔ p ∈ s.objects) ∧
    s'.handle pl = some x ∧ ∀ pl', pl' ≠ pl → s'.handle pl' = s.handle pl'
  := by
  obtain ⟨members, hlookup, hget⟩ := Option.bind_eq_some_iff.mp hx
  obtain ⟨hlt, -⟩ := List.getElem?_eq_some_iff.mp hget
  refine ⟨{ s with objects := s.objects.insert pl.1 (members.set pl.2 x) }, ?_, rfl, ?_, ?_, ?_⟩
  · rw [put, hlookup]
  · intro p
    rw [Finmap.mem_insert]
    constructor
    · rintro (rfl | hp)
      · apply Finmap.mem_of_lookup_eq_some hlookup
      · exact hp
    · exact Or.inr
  · rw [handle_of_lookup (Finmap.lookup_insert _), List.getElem?_set_self hlt]
  · intro pl' hne
    rw [handle, handle]
    rcases Classical.em (pl'.1 = pl.1) with heq | hobject
    · rw [heq, Finmap.lookup_insert, hlookup, Option.bind_some, Option.bind_some,
        List.getElem?_set_ne]
      intro hsame
      apply hne (Prod.ext heq hsame.symm)
    · rw [Finmap.lookup_insert_of_ne _ hobject]

/-- Before the assignment the handle at `h` is one that is to be released. -/
theorem Counted.hide (hs : s.Counted none []) (hy : s.handle h = some y) :
  s.Counted (some h) [y]
  := by
  constructor
  · intro pl x _ hx
    apply hs.valid pl x nofun hx
  · intro x hx
    obtain rfl := List.mem_singleton.mp hx
    apply hs.valid h x nofun hy
  · intro p n hp hn
    obtain ⟨hpos, hcount⟩ := hs.count p n hp hn
    rw [List.count_nil] at hcount
    use hpos
    rcases Classical.em (y = soleHandle p) with rfl | hne
    · have hmem : h ∈ s.sharing none p := mem_sharing.mpr ⟨hy, nofun⟩
      have herase : s.sharing (some h) p = (s.sharing none p).erase h := by
        ext pl
        rw [Finset.mem_erase, mem_sharing, mem_sharing]
        simp
        tauto
      have hcard := Finset.card_pos.mpr ⟨h, hmem⟩
      rw [herase, Finset.card_erase_of_mem hmem, List.count_singleton_self, hcount]
      omega
    · have hsame : s.sharing (some h) p = s.sharing none p := by
        ext pl
        rw [mem_sharing, mem_sharing]
        constructor
        · rintro ⟨hx, -⟩
          exact ⟨hx, nofun⟩
        · rintro ⟨hx, -⟩
          use hx
          intro heq
          obtain rfl := Option.some.inj heq
          apply hne (Option.some.inj (hy.symm.trans hx))
      rw [hsame, List.count_singleton, hcount]
      simp [hne]

/-- The assignment begins with a release of the object of `h`, which is not deleted with it. -/
theorem OwnedThrough.release (howned : s.OwnedThrough h o) (hs : s.Counted none []) {K : Set ℕ}
    (hK : s.Supports (some h) K) :
  ∃ y s₁, s.handle h = some y ∧ release s.objects.keys.card y s = .ok s₁ ∧
    s₁.Counted (some h) [] ∧ s₁.Supports (some h) K ∧ Shrinks s s₁ ∧ h.1 ∈ s₁.objects
  := by
  obtain ⟨hreached, c, hc⟩ := howned.reached
  have hs' := hs.hide hc
  have hboth := hs'.supports_reached.union hK
  have hhidden : ∀ pl, some h = some pl → pl.1 ∈ { b | s.Reached (some h) b } ∪ K := by
    intro pl hpl
    obtain rfl := Option.some.inj hpl
    exact Or.inl hreached
  obtain ⟨s₁, hrelease, hs₁, hK₁, hshrinks⟩ :=
    release_spec hhidden _ s _ [] (Nat.le_refl _) hs' hboth
  refine ⟨_, s₁, hc, hrelease, hs₁, ?_, hshrinks, (hK₁ h.1 (Or.inl hreached)).1⟩
  apply hK.congr s₁ (fun b hb => (hK₁ b (Or.inr hb)).1) hshrinks.kept hshrinks.counted

/-- What is left after the release is held. -/
theorem OwnedThrough.keptByCycle (howned : s.OwnedThrough h o) {s₁ : Heap}
    (hs₁ : s₁.Counted (some h) []) (hshrinks : Shrinks s s₁) (ho : o ∈ s₁.objects) :
  s.KeptByCycle h o
  := by
  have hfinite : { b | b ∈ s₁.objects ∧
      Relation.ReflTransGen (s.Edge (some h)) b o }.Finite := by
    apply s₁.objects.keys.finite_toSet.subset
    rintro b ⟨hb, -⟩
    apply Finmap.mem_keys.mpr hb
  apply exists_cycle hfinite
  · rintro b ⟨hb, hpath⟩
    rcases hn : s₁.counts b with _ | n
    · apply absurd _ howned.only
      rw [hshrinks.counted b hb] at hn
      exact ⟨b, hshrinks.mem hb, hn, hpath⟩
    · obtain ⟨hpos, hcount⟩ := hs₁.count b n hb hn
      rw [List.count_nil] at hcount
      obtain ⟨pl, hpl⟩ := Finset.card_pos.mp (show 0 < (s₁.sharing (some h) b).card by omega)
      obtain ⟨hx, hne⟩ := mem_sharing.mp hpl
      use pl.1
      constructor
      · use mem_of_handle hx
        apply Relation.ReflTransGen.head _ hpath
        exact ⟨pl, rfl, hne, hshrinks.handle hx⟩
      · exact ⟨pl, rfl, hne, hshrinks.handle hx⟩
  · exact ⟨ho, Relation.ReflTransGen.refl⟩

/-- The fields are taken over after the release. -/
theorem Counted.takeOver (hs : s.Counted (some h) []) (hh : s.handle h = some y)
    (hx : s.handle other = some x) (hne : other ≠ h) :
  ∃ s' s'', s.put h x = .ok s' ∧ s'.put other .empty = .ok s'' ∧ s''.handle h = some x ∧
    ∀ p, x = soleHandle p → p ∈ s''.objects ∧ s''.counts p = some ((s''.sharing none p).card : ℤ)
  := by
  obtain ⟨s', hput, hcounts, hmem, hself, hrest⟩ := put_eq hh x
  have hother : s'.handle other = some x := by
    rw [hrest other hne, hx]
  obtain ⟨s'', hput', hcounts', hmem', hself', hrest'⟩ := put_eq hother .empty
  refine ⟨s', s'', hput, hput', ?_, ?_⟩
  · rw [hrest' h (Ne.symm hne), hself]
  · rintro p rfl
    have hplace : some other ≠ some h := fun heq => hne (Option.some.inj heq)
    rcases hs.valid other _ hplace hx with heq | ⟨q, n, heq, hq, hn⟩
    · apply absurd heq (soleHandle_ne_empty p)
    · obtain rfl := soleHandle_inj heq
      rw [hmem', hmem]
      use hq
      have hsharing : s''.sharing none p = insert h ((s.sharing (some h) p).erase other) := by
        ext pl
        rw [Finset.mem_insert, Finset.mem_erase, mem_sharing, mem_sharing]
        rcases Classical.em (pl = other) with rfl | hpo
        · rw [hself']
          simp [hne, Ne.symm (soleHandle_ne_empty p)]
        · rw [hrest' pl hpo]
          rcases Classical.em (pl = h) with rfl | hph
          · simp [hself]
          · rw [hrest pl hph]
            simp [hpo, hph]
      have hin : other ∈ s.sharing (some h) p := mem_sharing.mpr ⟨hx, hplace⟩
      have hout : h ∉ (s.sharing (some h) p).erase other := by
        intro hmem
        apply (mem_sharing.mp (Finset.mem_erase.mp hmem).2).2 rfl
      have hcard := Finset.card_pos.mpr ⟨other, hin⟩
      obtain ⟨-, hcount⟩ := hs.count p n hq hn
      rw [List.count_nil] at hcount
      rw [hcounts', hcounts, hn, hsharing, Finset.card_insert_of_notMem hout,
        Finset.card_erase_of_mem hin, hcount]
      congr 1
      omega

/-- `h = std::move(o.f)`, with `o` owned only through `h`, in any heap with the right counters:
it is safe exactly if `o` is kept by a cycle of objects. -/
theorem assignsSafely_iff (hs : s.Counted none []) (hx : s.handle other = some x)
    (howned : s.OwnedThrough h other.1) :
  s.AssignsSafely h other ↔ s.KeptByCycle h other.1
  := by
  have hne := howned.ne
  constructor
  · rintro ⟨x', s', -, hassign, -, -⟩
    have hK : s.Supports (some h) ∅ := nofun
    obtain ⟨y, s₁, hy, hrelease, hs₁, -, hshrinks, -⟩ := howned.release hs hK
    rw [moveAssign, if_pos hne, get_eq hy, ok_bind, hrelease, ok_bind] at hassign
    rcases hget : s₁.get other with e | z
    · rw [hget] at hassign
      cases hassign
    · apply howned.keptByCycle hs₁ hshrinks (mem_of_handle (mem_of_get hget))
  · rintro ⟨c, hcycle, hpath⟩
    obtain ⟨-, z, hz⟩ := howned.reached
    have hK := (hs.hide hz).supports_cycle hcycle
    obtain ⟨y, s₁, hy, hrelease, hs₁, hK₁, hshrinks, hh⟩ := howned.release hs hK
    have hkept : ∀ {pl x}, pl.1 ∈ s₁.objects → s.handle pl = some x →
        s₁.handle pl = some x := by
      intro pl x hpl hx
      obtain ⟨members, hlookup⟩ := Finmap.mem_iff.mp hpl
      rw [handle_of_lookup hlookup, ← handle_of_lookup (hshrinks.kept _ _ hlookup)]
      exact hx
    have hx₁ := hkept (hK₁ _ hpath).1 hx
    obtain ⟨s', s'', hput, hput', hself, hcount⟩ := hs₁.takeOver (hkept hh hy) hx₁ hne
    refine ⟨x, s'', hx, ?_, hself, hcount⟩
    rw [moveAssign, if_pos hne, get_eq hy, ok_bind, hrelease, ok_bind, get_eq hx₁, ok_bind, hput,
      ok_bind, hput']

/-- An object with its handles. -/
def add (s : Heap) (p : ℕ) (members : List Handle) : Heap :=
  { s with objects := s.objects.insert p members }

/-- A variable `head` with a list of two nodes: the first one has the handles `members`, the second
one has none. -/
def listHeap (members : List Handle) (n : ℤ) : Heap :=
  (((Heap.mk ∅ fun p => if p = 1 then some n else if p = 2 then some 1 else none).add 0
    [soleHandle 1]).add 1 members).add 2 []

theorem listHeap_objects (members : List Handle) (n : ℤ) :
  (listHeap members n).objects.lookup 0 = some [soleHandle 1] ∧
    (listHeap members n).objects.lookup 1 = some members ∧
    (listHeap members n).objects.lookup 2 = some []
  := by
  simp only [listHeap, add]
  refine ⟨?_, ?_, Finmap.lookup_insert _⟩
  · rw [Finmap.lookup_insert_of_ne _ (by decide), Finmap.lookup_insert_of_ne _ (by decide),
      Finmap.lookup_insert]
  · rw [Finmap.lookup_insert_of_ne _ (by decide), Finmap.lookup_insert]

/-- `head` is the only variable. -/
theorem listHeap_owned (members : List Handle) (n : ℤ) :
  (listHeap members n).OwnedThrough (0, 0) 1
  := by
  obtain ⟨hhead, -, -⟩ := listHeap_objects members n
  have hvariable : ∀ r, (listHeap members n).counts r = none → r ∈ (listHeap members n).objects →
      r = 0 := by
    intro r hnone hr
    simp only [listHeap, add, Finmap.mem_insert, Finmap.notMem_empty, or_false] at hnone hr
    rcases hr with rfl | rfl | rfl
    · cases hnone
    · cases hnone
    · rfl
  constructor
  · use 0, Finmap.mem_of_lookup_eq_some hhead, rfl
    apply Relation.ReflTransGen.single
    use (0, 0), rfl, nofun
    rw [handle_of_lookup hhead]
    rfl
  · rintro ⟨r, hr, hnone, hpath⟩
    obtain rfl := hvariable r hnone hr
    rcases Relation.ReflTransGen.cases_head hpath with heq | ⟨b, ⟨⟨a, i⟩, rfl, hne, hx⟩, -⟩
    · cases heq
    · rw [handle_of_lookup hhead] at hx
      cases i with
      | zero => apply hne rfl
      | succ i => cases hx

/-- The counters are right if those of the two nodes are. -/
theorem listHeap_counted {members : List Handle} {n : ℤ} (hpos : 0 < n)
    (hmembers : ∀ x, x ∈ members → x = soleHandle 1 ∨ x = soleHandle 2)
    (hone : n = (((listHeap members n).sharing none 1).card : ℤ))
    (htwo : ((listHeap members n).sharing none 2).card = 1) :
  (listHeap members n).Counted none []
  := by
  obtain ⟨hhead, hfirst, hsecond⟩ := listHeap_objects members n
  have hvalid : ∀ x, x = soleHandle 1 ∨ x = soleHandle 2 → (listHeap members n).Valid x := by
    rintro x (rfl | rfl)
    · exact Or.inr ⟨1, n, rfl, Finmap.mem_of_lookup_eq_some hfirst, rfl⟩
    · exact Or.inr ⟨2, 1, rfl, Finmap.mem_of_lookup_eq_some hsecond, rfl⟩
  constructor
  · rintro pl x - hx
    obtain ⟨xs, hlookup, hget⟩ := Option.bind_eq_some_iff.mp hx
    have hmem := List.mem_of_getElem? hget
    have hp := Finmap.mem_of_lookup_eq_some hlookup
    simp only [listHeap, add, Finmap.mem_insert, Finmap.notMem_empty, or_false] at hp
    apply hvalid
    rcases hp with hp | hp | hp
    · rw [hp, hsecond] at hlookup
      obtain rfl := Option.some.inj hlookup
      cases hmem
    · rw [hp, hfirst] at hlookup
      obtain rfl := Option.some.inj hlookup
      apply hmembers x hmem
    · rw [hp, hhead] at hlookup
      obtain rfl := Option.some.inj hlookup
      exact Or.inl (List.mem_singleton.mp hmem)
  · nofun
  · intro p k hp hk
    simp only [listHeap, add, Finmap.mem_insert, Finmap.notMem_empty, or_false] at hp
    rw [List.count_nil]
    rcases hp with rfl | rfl | rfl
    · obtain rfl := Option.some.inj hk
      rw [htwo]
      exact ⟨by decide, rfl⟩
    · obtain rfl : n = k := Option.some.inj hk
      use hpos
      omega
    · cases hk

/-- The step `head = std::move(head->next)` along a list deletes the first node and then reads
its `next`. -/
theorem listStep_not_safe :
  (listHeap [soleHandle 2] 1).Counted none [] ∧ (listHeap [soleHandle 2] 1).OwnedThrough (0, 0) 1 ∧
    ¬ (listHeap [soleHandle 2] 1).AssignsSafely (0, 0) (1, 0)
  := by
  refine ⟨?_, listHeap_owned _ _, ?_⟩
  · apply listHeap_counted (by decide)
    · intro x hx
      exact Or.inr (List.mem_singleton.mp hx)
    · decide +kernel
    · decide +kernel
  · rintro ⟨x, s', -, hassign, -⟩
    have hcrash : (match (listHeap [soleHandle 2] 1).moveAssign (0, 0) (1, 0) with
        | .error e => decide (e = .destroyedHandle)
        | .ok _ => false) = true := by
      decide +kernel
    rw [hassign] at hcrash
    cases hcrash

/-- A first node with a handle of itself stays, and the step is safe. -/
theorem assignsSafely_iff_listHeap :
  (listHeap [soleHandle 2, soleHandle 1] 2).AssignsSafely (0, 0) (1, 0) ↔
    (listHeap [soleHandle 2, soleHandle 1] 2).KeptByCycle (0, 0) 1
  := by
  apply assignsSafely_iff (x := soleHandle 2) _ rfl (listHeap_owned _ _)
  apply listHeap_counted (by decide)
  · intro x hx
    rcases List.mem_cons.mp hx with rfl | hx
    · exact Or.inr rfl
    · exact Or.inl (List.mem_singleton.mp hx)
  · decide +kernel
  · decide +kernel

end Heap

end MySharedPtr
