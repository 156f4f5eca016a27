import Mathlib.Data.List.Nodup
import Mathlib.Logic.Function.Basic

/-!
# Linked chains

`Leads next p l` says that the nodes of the list `l` follow one another along the pointers
`next` and that the pointer of the last one is `p`.  With `p = none` the list is a whole
null-terminated chain.  A chain grows at its end (`Leads.link`), and a node whose pointer is
null is its last one (`Leads.getLast?_of_next`).
-/

universe u

variable {α : Type u}

/-- The nodes of the list point one to the next, and the last one to `p`. -/
def Leads (next : α → Option α) (p : Option α) : List α → Prop
  | [] => True
  | x :: l => next x = l.head?.or p ∧ Leads next p l

/-- A node is reached from a pointer along the pointers. -/
inductive Reaches (next : α → Option α) : Option α → α → Prop
  | here (x : α) : Reaches next (some x) x
  | there {x y : α} (h : Reaches next (next x) y) : Reaches next (some x) y

variable {next next' : α → Option α} {p : Option α} {l l' : List α} {x y : α}

@[simp]
theorem leads_nil :
  Leads next p []
  := trivial

@[simp]
theorem leads_cons :
  Leads next p (x :: l) ↔ next x = l.head?.or p ∧ Leads next p l
  := Iff.rfl

/-- A list leads to `p` if its first part leads to its second and that to `p`. -/
theorem leads_append :
  Leads next p (l ++ l') ↔ Leads next (l'.head?.or p) l ∧ Leads next p l'
  := by
  induction l with
  | nil => simp
  | cons x l ih =>
      rw [List.cons_append, leads_cons, leads_cons, ih, List.head?_append, Option.or_assoc,
        and_assoc]

/-- Only the pointers of the nodes of the list matter. -/
theorem Leads.congr (h : Leads next p l) (heq : ∀ x, x ∈ l → next' x = next x) :
  Leads next' p l
  := by
  induction l with
  | nil => trivial
  | cons x l ih =>
      constructor
      · rw [heq x List.mem_cons_self]
        apply h.1
      · apply ih h.2
        intro y hy
        apply heq y (List.mem_cons_of_mem x hy)

/-- The node at a position points to the one at the next position. -/
theorem Leads.next_eq (h : Leads next none l) {k : ℕ} (hk : l[k]? = some x) :
  next x = l[k + 1]?
  := by
  induction l generalizing k with
  | nil => simp at hk
  | cons y l ih =>
      cases k with
      | zero =>
          obtain rfl : y = x := by simpa using hk
          rw [h.1, Option.or_none, List.getElem?_cons_succ, List.head?_eq_getElem?]
      | succ k =>
          rw [List.getElem?_cons_succ] at hk ⊢
          apply ih h.2 hk

/-- The pointers of the nodes of a list lead to the list or to where it leads. -/
theorem Leads.mem_or_eq (h : Leads next p l) (hx : x ∈ l) (hy : next x = some y) :
  y ∈ l ∨ p = some y
  := by
  induction l with
  | nil => cases hx
  | cons z l ih =>
      rcases List.mem_cons.mp hx with rfl | hx
      · rw [h.1] at hy
        cases l with
        | nil => exact Or.inr hy
        | cons w l =>
            obtain rfl := Option.some.inj hy
            left
            simp
      · rcases ih h.2 hx with hmem | heq
        · exact Or.inl (List.mem_cons_of_mem z hmem)
        · exact Or.inr heq

/-- A list that leads to a node has no null pointer. -/
theorem Leads.next_ne_none (h : Leads next (some y) l) (hx : x ∈ l) :
  next x ≠ none
  := by
  induction l with
  | nil => cases hx
  | cons z l ih =>
      rcases List.mem_cons.mp hx with rfl | hx
      · rw [h.1]
        cases l <;> simp
      · apply ih h.2 hx

/-- A node of a chain whose pointer is null is at the last position. -/
theorem Leads.length_of_next (h : Leads next none l) {k : ℕ} (hk : l[k]? = some x)
    (hx : next x = none) :
  k + 1 = l.length
  := by
  rw [h.next_eq hk, List.getElem?_eq_none_iff] at hx
  obtain ⟨hlt, -⟩ := List.getElem?_eq_some_iff.mp hk
  omega

theorem Leads.getLast?_of_next (h : Leads next none l) (hl : x ∈ l) (hx : next x = none) :
  l.getLast? = some x
  := by
  obtain ⟨k, hk⟩ := List.mem_iff_getElem?.mp hl
  have hlast := h.length_of_next hk hx
  rw [List.getLast?_eq_getElem?, ← hlast, Nat.add_sub_cancel, hk]

/-- The nodes that are reached from the first node of a chain are those of the chain. -/
theorem Leads.reaches_iff (h : Leads next none l) :
  Reaches next l.head? x ↔ x ∈ l
  := by
  induction l with
  | nil =>
      constructor
      · intro hreaches
        cases hreaches
      · nofun
  | cons y l ih =>
      obtain ⟨hnext, htail⟩ := h
      rw [Option.or_none] at hnext
      rw [List.head?_cons, List.mem_cons, ← ih htail, ← hnext]
      constructor
      · intro hreaches
        cases hreaches with
        | here => exact Or.inl rfl
        | there hreaches => exact Or.inr hreaches
      · rintro (rfl | hreaches)
        · apply Reaches.here
        · apply Reaches.there hreaches

/-- What is at a position of a list is there in every list it begins. -/
theorem getElem?_of_isPrefix (h : l <+: l') {k : ℕ} (hk : l[k]? = some x) :
  l'[k]? = some x
  := by
  obtain ⟨hlt, rfl⟩ := List.getElem?_eq_some_iff.mp hk
  apply List.prefix_iff_getElem?.mp h k hlt

/-- The beginning of a list together with the element after it is a beginning too. -/
theorem prefix_concat (h : l <+: l') (hx : l'[l.length]? = some x) :
  l ++ [x] <+: l'
  := by
  obtain ⟨m, rfl⟩ := h
  rw [List.getElem?_append_right (Nat.le_refl _), Nat.sub_self] at hx
  obtain ⟨y, m, rfl⟩ := List.exists_cons_of_ne_nil (l := m) (by rintro rfl; simp at hx)
  obtain rfl : y = x := by simpa using hx
  use m
  rw [List.append_assoc, List.singleton_append]

variable [DecidableEq α]

/-- A node that is not in a list is linked to its last one, whatever that pointed to. -/
theorem Leads.link_last (h : Leads next p l) (hnodup : l.Nodup) (hlast : l.getLast? = some x)
    (hy : y ∉ l) :
  Leads (Function.update next x (some y)) (next y) (l ++ [y])
  := by
  obtain ⟨l, rfl⟩ := List.getLast?_eq_some_iff.mp hlast
  obtain ⟨hinit, -⟩ := leads_append.mp h
  have hxl : x ∉ l := by
    intro hx
    apply (List.nodup_append.mp hnodup).2.2 x hx x List.mem_cons_self rfl
  have hyx : y ≠ x := by
    rintro rfl
    apply hy (List.mem_append_right l List.mem_cons_self)
  rw [List.append_assoc, leads_append]
  constructor
  · apply hinit.congr
    intro z hz
    apply Function.update_of_ne
    rintro rfl
    apply hxl hz
  · rw [List.singleton_append, leads_cons, leads_cons]
    refine ⟨?_, ?_, trivial⟩
    · rw [Function.update_self]
      rfl
    · rw [Function.update_of_ne hyx]
      rfl

/-- A new node with a null pointer is linked to the last node of a chain. -/
theorem Leads.link (h : Leads next none l) (hnodup : l.Nodup) (hlast : l.getLast? = some x)
    (hy : y ∉ l) (hnull : next y = none) :
  Leads (Function.update next x (some y)) none (l ++ [y])
  := by
  rw [← hnull]
  apply h.link_last hnodup hlast hy
