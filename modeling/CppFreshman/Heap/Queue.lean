import CppFreshman.Heap.Linked
import Mathlib.Data.List.Infix

/-!
# Queues of linked nodes

A queue that is kept as a chain of nodes: the sentinel, which is the node 0, and behind it the nodes
that have been linked.  The node `head` is as far along the chain as nodes have been taken, so that
the first value in the queue is that of the node behind it; and `tail` is the last node or the one
before it.  Nodes are numbered in the order in which they are built.

A queue is `Ordered` if this is so.  It stays ordered when a node is built (`new`), when a fresh
node is linked to one with a null pointer that `tail` has reached (`link`), when `tail` moves
from a node to the one that follows it (`swapTail`), and when `head` does (`advance`).  None of
these goes back (`Grows`), and each does to the values in the queue what it should (`left_link`,
`left_advance`).
-/

universe u

/-- The pointers and the values of the nodes, of which there are those below `made`; the two ends;
and, as histories, the nodes that were linked, each with its value, and how often `head` has
moved. -/
@[ext]
structure LinkedQueue (ν : Type u) where
  next : ℕ → Option ℕ
  value : ℕ → ν
  made : ℕ
  head : Option ℕ
  tail : Option ℕ
  inserted : List (ℕ × ν)
  taken : ℕ

namespace LinkedQueue

variable {ν : Type u}

/-- A queue with the sentinel only, which has the value `x`. -/
def empty (x : ν) : LinkedQueue ν where
  next _ := none
  value _ := x
  made := 1
  head := some 0
  tail := some 0
  inserted := []
  taken := 0

section

variable (q : LinkedQueue ν)

/-- A node is built, with a value and a pointer. -/
def new (x : ν) (p : Option ℕ) : LinkedQueue ν :=
  { q with
    next := Function.update q.next q.made p
    value := Function.update q.value q.made x
    made := q.made + 1 }

/-- The pointer of `cur` is set to a node with the value `x`. -/
def link (x : ν) (cur node : ℕ) : LinkedQueue ν :=
  { q with
    next := Function.update q.next cur (some node)
    inserted := q.inserted ++ [(node, x)] }

/-- The compare-and-swap of `tail` from `cur` to `next`. -/
def swapTail (cur : ℕ) (next : Option ℕ) : LinkedQueue ν :=
  if q.tail = some cur then { q with tail := next } else q

/-- `head` moves to `next`. -/
def advance (next : ℕ) : LinkedQueue ν :=
  { q with head := some next, taken := q.taken + 1 }

/-- The nodes linked, in order. -/
def linked : List ℕ :=
  q.inserted.map Prod.fst

/-- The sentinel and the nodes linked. -/
def chain : List ℕ :=
  0 :: q.linked

/-- The values in the queue. -/
def left : List ν :=
  (q.inserted.drop q.taken).map Prod.snd

/-- The node `n` is on the chain and `tail` is there or further along. -/
def BehindTail (n : ℕ) : Prop :=
  ∃ k t : ℕ, q.chain[k]? = some n ∧ k ≤ t ∧ t < q.chain.length ∧ q.tail = q.chain[t]?

/-- The node `n` follows `m` on the chain. -/
def Follows (m n : ℕ) : Prop :=
  ∃ k : ℕ, q.chain[k]? = some m ∧ q.chain[k + 1]? = some n

/-- The node is built with `x` and not linked yet. -/
structure Fresh (x : ν) (node : ℕ) : Prop where
  made : node < q.made
  unlinked : node ∉ q.chain
  null : q.next node = none
  value : q.value node = x

/-- The nodes from the sentinel on form the chain of the nodes linked; `head` is as far along as
nodes were taken; and `tail` is the last node or the one before it. -/
structure Ordered : Prop where
  leads : Leads q.next none q.chain
  nodup : q.chain.Nodup
  made : ∀ n, n ∈ q.chain → n < q.made
  head : q.head = q.chain[q.taken]?
  taken : q.taken < q.chain.length
  tail : ∃ t : ℕ, q.tail = q.chain[t]? ∧ t < q.chain.length ∧ q.chain.length ≤ t + 2
  value : ∀ n x, (n, x) ∈ q.inserted → q.value n = x

end

/-- The histories are only extended, `tail` only moves on, and a pointer of the chain that is
set stays set. -/
structure Grows (q q' : LinkedQueue ν) : Prop where
  inserted : q.inserted <+: q'.inserted
  taken : q.taken ≤ q'.taken
  next : ∀ n, n ∈ q.chain → q.next n ≠ none → q'.next n ≠ none
  tail : ∀ n, q.BehindTail n → q'.BehindTail n

variable {q q' : LinkedQueue ν} {x : ν} {cur node m n : ℕ}

/-! ### What never goes back -/

theorem BehindTail.mem (h : q.BehindTail n) :
  n ∈ q.chain
  := by
  obtain ⟨k, t, hk, -⟩ := h
  apply List.mem_of_getElem? hk

theorem Follows.mem_right (h : q.Follows m n) :
  n ∈ q.chain
  := by
  obtain ⟨k, -, hn⟩ := h
  apply List.mem_of_getElem? hn

theorem Grows.refl (q : LinkedQueue ν) :
  q.Grows q
  := ⟨List.prefix_refl _, Nat.le_refl _, fun _ _ => id, fun _ => id⟩

theorem Grows.chain_isPrefix (h : q.Grows q') :
  q.chain <+: q'.chain
  := (List.prefix_cons_inj 0).mpr (h.inserted.map Prod.fst)

theorem Grows.trans {q'' : LinkedQueue ν} (h : q.Grows q') (h' : q'.Grows q'') :
  q.Grows q''
  := by
  refine ⟨h.inserted.trans h'.inserted, h.taken.trans h'.taken, ?_, ?_⟩
  · intro n hn hne
    apply h'.next n (h.chain_isPrefix.subset hn) (h.next n hn hne)
  · intro n hn
    apply h'.tail n (h.tail n hn)

/-- A node stays where it is on the chain. -/
theorem Grows.chain (h : q.Grows q') {k : ℕ} (hk : q.chain[k]? = some n) :
  q'.chain[k]? = some n
  := getElem?_of_isPrefix h.chain_isPrefix hk

theorem Grows.follows (h : q.Grows q') (hf : q.Follows m n) :
  q'.Follows m n
  := by
  obtain ⟨k, hm, hn⟩ := hf
  use k, h.chain hm
  apply h.chain hn

theorem ordered_empty (x : ν) :
  (empty x).Ordered
  := by
  refine ⟨⟨rfl, trivial⟩, List.nodup_singleton 0, ?_, rfl, Nat.one_pos,
    ⟨0, rfl, Nat.one_pos, Nat.le_succ 1⟩, ?_⟩
  · intro n hn
    obtain rfl := List.mem_singleton.mp hn
    apply Nat.one_pos
  · intro n y hn
    cases hn

/-! ### Positions on the chain -/

theorem length_chain (q : LinkedQueue ν) :
  q.chain.length = q.inserted.length + 1
  := by
  rw [chain, linked, List.length_cons, List.length_map]

/-- Positions on the chain are unique. -/
theorem Ordered.position (h : q.Ordered) {j k : ℕ} (hj : q.chain[j]? = some n)
    (hk : q.chain[k]? = some n) :
  j = k
  := by
  obtain ⟨hlt, -⟩ := List.getElem?_eq_some_iff.mp hj
  apply (List.getElem?_inj hlt h.nodup).mp
  rw [hj, hk]

/-- What `tail` points to is behind it. -/
theorem Ordered.behindTail (h : q.Ordered) :
  ∃ n, q.tail = some n ∧ q.BehindTail n
  := by
  obtain ⟨t, ht, hlt, -⟩ := h.tail
  have hn := List.getElem?_eq_getElem hlt
  use q.chain[t]
  constructor
  · rw [ht, hn]
  · use t, t

/-- A node on the chain with a pointer that is set points to the one that follows it. -/
theorem Ordered.follows (h : q.Ordered) (hm : m ∈ q.chain) (hn : q.next m = some n) :
  q.Follows m n
  := by
  obtain ⟨k, hk⟩ := List.mem_iff_getElem?.mp hm
  use k, hk
  rw [← h.leads.next_eq hk, hn]

/-- The node that follows another is what that points to. -/
theorem Ordered.next_of_follows (h : q.Ordered) (hf : q.Follows m n) :
  q.next m = some n
  := by
  obtain ⟨k, hm, hn⟩ := hf
  rw [h.leads.next_eq hm, hn]

/-- A node follows only one. -/
theorem Ordered.follows_inj (h : q.Ordered) {m' : ℕ} (hf : q.Follows m n)
    (hf' : q.Follows m' n) :
  m = m'
  := by
  obtain ⟨k, hm, hn⟩ := hf
  obtain ⟨k', hm', hn'⟩ := hf'
  obtain rfl := Nat.succ_injective (h.position hn hn')
  apply Option.some.inj (hm.symm.trans hm')

/-- A node on the chain other than the sentinel was linked. -/
theorem inserted_of_chain (q : LinkedQueue ν) {k : ℕ} (hn : q.chain[k + 1]? = some n) :
  ∃ x, q.inserted[k]? = some (n, x)
  := by
  rw [chain, List.getElem?_cons_succ, linked, List.getElem?_map, Option.map_eq_some_iff] at hn
  obtain ⟨⟨m, x⟩, hx, rfl⟩ := hn
  use x, hx

/-- The node behind `head` is the next one that was linked. -/
theorem Ordered.inserted_of_head (h : q.Ordered) (hhead : q.head = some cur)
    (hf : q.Follows cur n) :
  ∃ x, q.inserted[q.taken]? = some (n, x)
  := by
  obtain ⟨k, hk, hnext⟩ := hf
  have hpos := h.head
  rw [hhead] at hpos
  obtain rfl := h.position hk hpos.symm
  apply q.inserted_of_chain hnext

/-- The node that follows `tail` is ahead of it. -/
theorem Ordered.not_behindTail (h : q.Ordered) (htail : q.tail = some cur)
    (hf : q.Follows cur n) :
  ¬ q.BehindTail n
  := by
  rintro ⟨j, t, hj, hjt, -, ht⟩
  obtain ⟨k, hk, hnext⟩ := hf
  rw [htail] at ht
  obtain rfl := h.position hk ht.symm
  have hpos := h.position hj hnext
  omega

/-- A node that is not ahead of `head` and has a null pointer is `head`, and everything was
taken. -/
theorem Ordered.taken_of_null (h : q.Ordered) {k : ℕ} (hk : k ≤ q.taken)
    (hn : q.chain[k]? = some n) (hnull : q.next n = none) :
  q.taken = q.inserted.length
  := by
  have hlast := h.leads.length_of_next hn hnull
  have hlt := h.taken
  rw [length_chain] at hlast hlt
  omega

/-! ### A node is built -/

theorem next_new (q : LinkedQueue ν) (x : ν) (p : Option ℕ) (h : n ≠ q.made) :
  (q.new x p).next n = q.next n
  := by
  apply Function.update_of_ne h

theorem value_new (q : LinkedQueue ν) (x : ν) (p : Option ℕ) (h : n ≠ q.made) :
  (q.new x p).value n = q.value n
  := by
  apply Function.update_of_ne h

/-- Building a node changes nothing on the chain. -/
theorem Ordered.new (h : q.Ordered) (x : ν) (p : Option ℕ) :
  (q.new x p).Ordered
  := by
  have hne : ∀ n, n ∈ q.chain → n ≠ q.made := by
    intro n hn
    apply Nat.ne_of_lt (h.made n hn)
  refine ⟨?_, h.nodup, ?_, h.head, h.taken, h.tail, ?_⟩
  · apply h.leads.congr
    intro n hn
    apply next_new q x p (hne n hn)
  · intro n hn
    apply Nat.lt_succ_of_lt (h.made n hn)
  · intro n y hn
    have hmem : n ∈ q.chain := List.mem_cons_of_mem 0 (List.mem_map_of_mem hn)
    rw [value_new q x p (hne n hmem)]
    apply h.value n y hn

theorem Grows.new (h : q.Ordered) (x : ν) (p : Option ℕ) :
  q.Grows (q.new x p)
  := by
  refine ⟨List.prefix_refl _, Nat.le_refl _, ?_, fun _ => id⟩
  intro n hmem hn
  rw [next_new q x p (Nat.ne_of_lt (h.made n hmem))]
  apply hn

/-- Building a node leaves the fresh ones fresh. -/
theorem Fresh.new {y : ν} (h : q.Fresh y node) (x : ν) (p : Option ℕ) :
  (q.new x p).Fresh y node
  := by
  have hne := Nat.ne_of_lt h.made
  constructor
  · apply Nat.lt_succ_of_lt h.made
  · apply h.unlinked
  · rw [next_new q x p hne, h.null]
  · rw [value_new q x p hne, h.value]

/-- The node just built is fresh if its pointer is null. -/
theorem fresh_new (h : q.Ordered) (x : ν) :
  (q.new x none).Fresh x q.made
  := by
  constructor
  · apply Nat.lt_succ_self
  · intro hmem
    apply Nat.lt_irrefl q.made (h.made q.made hmem)
  · apply Function.update_self
  · apply Function.update_self

/-! ### A node is linked -/

theorem next_link (q : LinkedQueue ν) (x : ν) (cur node : ℕ) :
  (q.link x cur node).next = Function.update q.next cur (some node)
  := rfl

theorem chain_link (q : LinkedQueue ν) (x : ν) (cur node : ℕ) :
  (q.link x cur node).chain = q.chain ++ [node]
  := by
  simp [LinkedQueue.chain, linked, link]

theorem Grows.link (q : LinkedQueue ν) (x : ν) (cur node : ℕ) :
  q.Grows (q.link x cur node)
  := by
  have hpre : q.chain <+: (q.link x cur node).chain := by
    rw [chain_link]
    apply List.prefix_append
  refine ⟨List.prefix_append _ _, Nat.le_refl _, ?_, ?_⟩
  · intro n _ hn
    rw [next_link]
    rcases Classical.em (n = cur) with rfl | heq
    · simp
    · rw [Function.update_of_ne heq]
      apply hn
  · rintro n ⟨k, t, hk, hkt, hlt, ht⟩
    have htail := List.getElem?_eq_getElem hlt
    use k, t, getElem?_of_isPrefix hpre hk, hkt, hlt.trans_le hpre.length_le
    rw [getElem?_of_isPrefix hpre htail, ← htail]
    apply ht

/-- Linking a fresh node to the last one extends the chain. -/
theorem Ordered.link (h : q.Ordered) (hf : q.Fresh x node) (hcur : q.BehindTail cur)
    (hnull : q.next cur = none) :
  (q.link x cur node).Ordered
  := by
  obtain ⟨k, t, hk, hkt, hlt, ht⟩ := hcur
  have hlast := h.leads.length_of_next hk hnull
  have hpre := (Grows.link q x cur node).chain_isPrefix
  have hold : ∀ {j : ℕ}, j < q.chain.length → (q.link x cur node).chain[j]? = q.chain[j]? := by
    intro j hj
    have hval := List.getElem?_eq_getElem hj
    rw [hval, getElem?_of_isPrefix hpre hval]
  constructor
  · rw [next_link, chain_link]
    apply h.leads.link h.nodup _ hf.unlinked hf.null
    apply h.leads.getLast?_of_next (List.mem_of_getElem? hk) hnull
  · rw [chain_link, List.nodup_append]
    refine ⟨h.nodup, List.nodup_singleton node, ?_⟩
    intro m hm n hn
    obtain rfl := List.mem_singleton.mp hn
    rintro rfl
    apply hf.unlinked hm
  · intro n hn
    rw [chain_link, List.mem_append, List.mem_singleton] at hn
    rcases hn with hn | rfl
    · apply h.made n hn
    · apply hf.made
  · have hhead := hold h.taken
    apply h.head.trans hhead.symm
  · apply h.taken.trans_le hpre.length_le
  · use t
    rw [hold hlt, chain_link, List.length_append, List.length_singleton]
    refine ⟨ht, ?_, ?_⟩ <;> omega
  · intro n y hn
    rcases List.mem_append.mp hn with hn | hn
    · apply h.value n y hn
    · obtain ⟨rfl, rfl⟩ := Prod.mk.inj (List.mem_singleton.mp hn)
      apply hf.value

/-- Linking a node leaves the other fresh ones fresh. -/
theorem Fresh.link {y : ν} (h : q.Fresh y n) (hcur : cur ∈ q.chain) (hne : n ≠ node) :
  (q.link x cur node).Fresh y n
  := by
  constructor
  · apply h.made
  · rw [chain_link, List.mem_append, List.mem_singleton]
    rintro (hmem | heq)
    · apply h.unlinked hmem
    · apply hne heq
  · rw [next_link, Function.update_of_ne, h.null]
    rintro rfl
    apply h.unlinked hcur
  · apply h.value

/-- The node just linked follows the one it was linked to. -/
theorem follows_link (h : q.Ordered) (hcur : cur ∈ q.chain) (hnull : q.next cur = none) :
  (q.link x cur node).Follows cur node
  := by
  obtain ⟨k, hk⟩ := List.mem_iff_getElem?.mp hcur
  have hlast := h.leads.length_of_next hk hnull
  use k, (Grows.link q x cur node).chain hk
  rw [chain_link, hlast]
  simp

/-- A value is put to the end. -/
theorem Ordered.left_link (h : q.Ordered) (x : ν) (cur node : ℕ) :
  (q.link x cur node).left = q.left ++ [x]
  := by
  have hlt := h.taken
  rw [length_chain] at hlt
  rw [left, left, LinkedQueue.link, List.drop_append_of_le_length (Nat.le_of_lt_succ hlt),
    List.map_append]
  rfl

/-! ### The ends move -/

/-- Moving `tail` from a node to the one that follows it keeps the queue ordered. -/
theorem Ordered.swapTail (h : q.Ordered) (hf : q.Follows cur n) :
  (q.swapTail cur (some n)).Ordered
  := by
  rw [LinkedQueue.swapTail]
  split
  · next heq =>
      obtain ⟨k, hk, hnext⟩ := hf
      obtain ⟨t, ht, hlt, hle⟩ := h.tail
      rw [heq] at ht
      obtain rfl := h.position hk ht.symm
      obtain ⟨hlt', -⟩ := List.getElem?_eq_some_iff.mp hnext
      exact ⟨h.leads, h.nodup, h.made, h.head, h.taken,
        ⟨k + 1, hnext.symm, hlt', hle.trans (by omega)⟩, h.value⟩
  · apply h

theorem Grows.swapTail (h : q.Ordered) (hf : q.Follows cur n) :
  q.Grows (q.swapTail cur (some n))
  := by
  rw [LinkedQueue.swapTail]
  split
  · next heq =>
      obtain ⟨k, hk, hnext⟩ := hf
      refine ⟨List.prefix_refl _, Nat.le_refl _, fun _ _ => id, ?_⟩
      rintro m ⟨j, t, hj, hjt, hlt, ht⟩
      rw [heq] at ht
      obtain rfl := h.position hk ht.symm
      obtain ⟨hlt', -⟩ := List.getElem?_eq_some_iff.mp hnext
      exact ⟨j, k + 1, hj, Nat.le_succ_of_le hjt, hlt', hnext.symm⟩
  · apply Grows.refl

theorem Fresh.swapTail (h : q.Fresh x node) (cur : ℕ) (p : Option ℕ) :
  (q.swapTail cur p).Fresh x node
  := by
  rw [LinkedQueue.swapTail]
  split
  · exact ⟨h.made, h.unlinked, h.null, h.value⟩
  · apply h

/-- Moving `head` from a node to the one that follows it keeps the queue ordered. -/
theorem Ordered.advance (h : q.Ordered) (hhead : q.head = some cur) (hf : q.Follows cur n) :
  (q.advance n).Ordered
  := by
  obtain ⟨k, hk, hnext⟩ := hf
  have hpos := h.head
  rw [hhead] at hpos
  obtain rfl := h.position hk hpos.symm
  obtain ⟨hlt, -⟩ := List.getElem?_eq_some_iff.mp hnext
  exact ⟨h.leads, h.nodup, h.made, hnext.symm, hlt, h.tail, h.value⟩

theorem Grows.advance (q : LinkedQueue ν) (n : ℕ) :
  q.Grows (q.advance n)
  := ⟨List.prefix_refl _, Nat.le_succ _, fun _ _ => id, fun _ => id⟩

theorem Fresh.advance (h : q.Fresh x node) (n : ℕ) :
  (q.advance n).Fresh x node
  := ⟨h.made, h.unlinked, h.null, h.value⟩

/-- The first value is taken. -/
theorem Ordered.left_advance (h : q.Ordered) (hhead : q.head = some cur) (hf : q.Follows cur n) :
  q.left = q.value n :: (q.advance n).left
  := by
  obtain ⟨x, hx⟩ := h.inserted_of_head hhead hf
  obtain ⟨hlt, hget⟩ := List.getElem?_eq_some_iff.mp hx
  rw [left, left, List.drop_eq_getElem_cons hlt, hget, List.map_cons,
    h.value n x (List.mem_of_getElem? hx)]
  rfl

/-- Where the pointer of a node that is not ahead of `head` is null, no value is left. -/
theorem Ordered.left_of_null (h : q.Ordered) {k : ℕ} (hk : k ≤ q.taken)
    (hn : q.chain[k]? = some n) (hnull : q.next n = none) :
  q.left = []
  := by
  rw [left, h.taken_of_null hk hn hnull, List.drop_length]
  rfl

/-- Where no value is left the pointer of `head` is null. -/
theorem Ordered.null_of_left (h : q.Ordered) (hleft : q.left = []) :
  ∃ n, q.head = some n ∧ q.next n = none
  := by
  have hlt := h.taken
  have hcur := List.getElem?_eq_getElem hlt
  use q.chain[q.taken], h.head.trans hcur
  have hle : q.inserted.length ≤ q.taken := by
    apply List.drop_eq_nil_iff.mp
    apply List.map_eq_nil_iff.mp hleft
  rw [h.leads.next_eq hcur, List.getElem?_eq_none]
  rw [length_chain]
  apply Nat.succ_le_succ hle

/-- Where a value is left `head` is followed by the node with it. -/
theorem Ordered.follows_of_left (h : q.Ordered) {values : List ν} (hleft : q.left = x :: values) :
  ∃ m n, q.head = some m ∧ q.Follows m n ∧ q.value n = x ∧ (q.advance n).left = values
  := by
  have hin := h.taken
  have hcur := List.getElem?_eq_getElem hin
  have hlt : q.taken < q.inserted.length := by
    by_contra hge
    rw [left, List.drop_eq_nil_of_le (Nat.le_of_not_lt hge)] at hleft
    cases hleft
  have hnext : q.taken + 1 < q.chain.length := by
    rw [length_chain]
    apply Nat.succ_lt_succ hlt
  have hhead := h.head.trans hcur
  have hf : q.Follows q.chain[q.taken] q.chain[q.taken + 1] :=
    ⟨q.taken, hcur, List.getElem?_eq_getElem hnext⟩
  obtain ⟨hvalue, hvalues⟩ := List.cons.inj ((h.left_advance hhead hf).symm.trans hleft)
  exact ⟨_, _, hhead, hf, hvalue, hvalues⟩

end LinkedQueue
