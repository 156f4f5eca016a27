import CppFreshman.Queue.FreeLock

/-!
# What the queue that deletes its nodes delivers

The result of the swap of `head` in `de_queue` is not looked at, so a thread whose swap fails
returns a value that another one returns too and deletes a node a second time
(`twoReaders_not_delivered`).  Nothing keeps a node another thread reads, or `tail`, from being
deleted either.  As long as none of this happens the queue delivers what it is given once and in
order (`delivered_of_undisturbed`).
-/

namespace FreeLockQueue

variable {ι : Type*}

/-! ### The chain -/

namespace State

/-- The pointers of the nodes. -/
def next (s : State ι) (n : ℕ) : Option ℕ :=
  (s.nodes n).next

/-- The nodes linked, in order. -/
def linked (s : State ι) : List ℕ :=
  s.inserted.map Prod.fst

/-- The sentinel and the nodes linked. -/
def chain (s : State ι) : List ℕ :=
  0 :: s.linked

/-- The state as a queue of linked nodes. -/
def view (s : State ι) : LinkedQueue ℤ where
  next := s.next
  value n := (s.nodes n).val
  made := s.made
  head := s.head
  tail := s.tail
  inserted := s.inserted
  taken := s.removed.length

end State

/-- The queue is ordered, and the nodes removed are the first ones of the chain; the nodes deleted
are nodes removed and not `tail`, each deleted once; and the nodes whose value was returned follow
them. -/
structure Chained (s : State ι) : Prop where
  ordered : s.view.Ordered
  removed : s.removed.map Prod.snd <+: s.chain
  deleted : ∀ n, n ∈ s.deleted → n ∈ s.removed.map Prod.snd ∧ s.tail ≠ some n
  once : s.deleted.Nodup
  returned : ∀ r, r ∈ s.returned → r ∈ s.inserted ∧ ∃ d, d ∈ s.deleted ∧ s.view.Follows d r.1
  distinct : (s.returned.map Prod.fst).Nodup

/-- The thread `i` removed a node in the turn in which `node` was linked, and `result` is the
value it was linked with. -/
def Took (s : State ι) (i : ι) (node : ℕ) (result : ℤ) : Prop :=
  ∃ (k : ℕ) (cur : ℕ), s.removed[k]? = some (i, cur) ∧ s.inserted[k]? = some (node, result)

/-- The thread `i` removed the node and has not deleted it. -/
def Owns (s : State ι) (i : ι) (cur : ℕ) : Prop :=
  (i, cur) ∈ s.removed ∧ cur ∉ s.deleted

/-- What a thread may rely on where it stands. -/
def Pc.Knows (i : ι) (s : State ι) : Pc → Prop
  | .idle => True
  | .answered node result => ∀ n, node = some n → Took s i n result
  | .readingTail x node => s.view.Fresh x node
  | .linking x node cur => s.view.Fresh x node ∧ ∃ c, cur = some c ∧ s.view.BehindTail c
  | .rereading x node cur => s.view.Fresh x node ∧ s.view.BehindTail cur ∧ s.next cur ≠ none
  | .helping x node cur next => s.view.Fresh x node ∧ ∃ n, next = some n ∧ s.view.Follows cur n
  | .swinging node cur => s.view.Follows cur node
  | .readingHead => True
  | .testing cur => ∃ c, cur = some c ∧ c ∈ s.chain
  | .readingNext cur => cur ∈ s.chain ∧ s.next cur ≠ none
  | .removing cur next => ∃ n, next = some n ∧ s.view.Follows cur n
  | .reloading cur => Owns s i cur
  | .copying cur next => Owns s i cur ∧ ∃ n, next = some n ∧ s.view.Follows cur n
  | .deleting cur node val => Owns s i cur ∧ s.view.Follows cur node ∧ Took s i node val
  | .crashed => False

/-- The node a thread has built and not linked yet. -/
def Pc.building : Pc → Option ℕ
  | .readingTail _ node => some node
  | .linking _ node _ => some node
  | .rereading _ node _ => some node
  | .helping _ node _ _ => some node
  | _ => none

/-- The node a thread has removed and not deleted yet. -/
def Pc.holding : Pc → Option ℕ
  | .reloading cur => some cur
  | .copying cur _ => some cur
  | .deleting cur _ _ => some cur
  | _ => none

/-- The pointer the next step of a thread goes through. -/
def Pc.access : Pc → Option ℕ
  | .linking _ _ cur => cur
  | .rereading _ _ cur => some cur
  | .testing cur => cur
  | .readingNext cur => some cur
  | .reloading cur => some cur
  | .copying _ next => next
  | _ => none

/-- The next step of a thread does not go through a pointer to a deleted node, and if it is a
swap of `head` or a deletion then `head` is, or `tail` is not, the node it is about. -/
def Undisturbed (s : State ι) (l : Pc) : Prop :=
  (∀ n, n ∈ s.deleted → l.access ≠ some n) ∧
    match l with
    | .removing cur _ => s.head = some cur
    | .deleting cur _ _ => s.tail ≠ some cur
    | _ => True

instance (s : State ι) (l : Pc) : Decidable (Undisturbed s l) := by
  unfold Undisturbed
  split <;> infer_instance

/-- The node a call builds has a null pointer. -/
def Call.Cleared : Call → Prop
  | .enQueue _ next => next = none
  | .deQueue => True

instance : DecidablePred Call.Cleared
  | .enQueue _ _ => inferInstanceAs (Decidable (_ = _))
  | .deQueue => inferInstanceAs (Decidable True)

/-! ### What never goes back -/

/-- The queue grows, and more nodes are removed. -/
structure Grows (s s' : State ι) : Prop where
  view : s.view.Grows s'.view
  removed : s.removed <+: s'.removed

variable {s s' : State ι} {i : ι}

theorem Grows.refl (s : State ι) :
  Grows s s
  := ⟨LinkedQueue.Grows.refl _, List.prefix_refl _⟩

theorem Grows.took (h : Grows s s') {n : ℕ} {result : ℤ} (ht : Took s i n result) :
  Took s' i n result
  := by
  obtain ⟨k, cur, hr, hi⟩ := ht
  use k, cur, getElem?_of_isPrefix h.removed hr
  apply getElem?_of_isPrefix h.view.inserted hi

/-- What a thread knows stays when the queue grows and its own nodes are left alone. -/
theorem Pc.Knows.grows {pc : Pc} (h : pc.Knows i s) (hg : Grows s s')
    (hf : ∀ x n, pc.building = some n → s.view.Fresh x n → s'.view.Fresh x n)
    (ho : ∀ n, pc.holding = some n → Owns s i n → Owns s' i n) :
  pc.Knows i s'
  := by
  have hchain : ∀ {n}, n ∈ s.chain → n ∈ s'.chain := fun hn => hg.view.chain_isPrefix.subset hn
  cases pc with
  | idle => trivial
  | answered node result =>
      intro n hn
      apply hg.took (h n hn)
  | readingTail x node => apply hf x node rfl h
  | linking x node cur =>
      obtain ⟨hfresh, c, hc, hb⟩ := h
      exact ⟨hf x node rfl hfresh, c, hc, hg.view.tail c hb⟩
  | rereading x node cur =>
      obtain ⟨hfresh, hb, hne⟩ := h
      exact ⟨hf x node rfl hfresh, hg.view.tail cur hb, hg.view.next cur hb.mem hne⟩
  | helping x node cur next =>
      obtain ⟨hfresh, n, hn, hfol⟩ := h
      exact ⟨hf x node rfl hfresh, n, hn, hg.view.follows hfol⟩
  | swinging node cur => apply hg.view.follows h
  | readingHead => trivial
  | testing cur =>
      obtain ⟨c, hc, hmem⟩ := h
      use c, hc, hchain hmem
  | readingNext cur => exact ⟨hchain h.1, hg.view.next cur h.1 h.2⟩
  | removing cur next =>
      obtain ⟨n, hn, hfol⟩ := h
      exact ⟨n, hn, hg.view.follows hfol⟩
  | reloading cur => apply ho cur rfl h
  | copying cur next =>
      obtain ⟨howns, n, hn, hfol⟩ := h
      exact ⟨ho cur rfl howns, n, hn, hg.view.follows hfol⟩
  | deleting cur node val =>
      obtain ⟨howns, hfol, ht⟩ := h
      exact ⟨ho cur rfl howns, hg.view.follows hfol, hg.took ht⟩
  | crashed => cases h

/-! ### The nodes removed -/

theorem Owns.mem {cur : ℕ} (h : Owns s i cur) :
  cur ∈ s.removed.map Prod.snd
  := List.mem_map_of_mem h.1

/-- A node was removed in the turn of its position. -/
theorem Chained.getElem?_removed (h : Chained s) {k n : ℕ}
    (hk : (s.removed.map Prod.snd)[k]? = some n) :
  k < s.removed.length ∧ s.chain[k]? = some n
  := by
  obtain ⟨hlt, -⟩ := List.getElem?_eq_some_iff.mp hk
  rw [List.length_map] at hlt
  use hlt
  apply getElem?_of_isPrefix h.removed hk

/-- `head` was not removed. -/
theorem Chained.head_notMem_removed (h : Chained s) {n : ℕ} (hn : n ∈ s.removed.map Prod.snd) :
  s.head ≠ some n
  := by
  intro hhead
  obtain ⟨k, hk⟩ := List.mem_iff_getElem?.mp hn
  obtain ⟨hlt, hk⟩ := h.getElem?_removed hk
  have hpos := h.ordered.head.symm.trans hhead
  apply Nat.ne_of_lt hlt (h.ordered.position hk hpos)

/-- The nodes removed are behind `tail`. -/
theorem Chained.behindTail_removed (h : Chained s) {n : ℕ} (hn : n ∈ s.removed.map Prod.snd) :
  s.view.BehindTail n
  := by
  obtain ⟨k, hk⟩ := List.mem_iff_getElem?.mp hn
  obtain ⟨hlt, hk⟩ := h.getElem?_removed hk
  obtain ⟨t, ht, htl, hle⟩ := h.ordered.tail
  have htaken : s.removed.length < s.view.chain.length := h.ordered.taken
  use k, t, hk
  refine ⟨?_, htl, ht⟩
  omega

/-- A node removed is followed by one. -/
theorem Chained.follows_removed (h : Chained s) {n : ℕ} (hn : n ∈ s.removed.map Prod.snd) :
  ∃ m, s.view.Follows n m
  := by
  obtain ⟨k, hk⟩ := List.mem_iff_getElem?.mp hn
  obtain ⟨hlt, hk⟩ := h.getElem?_removed hk
  have hnext : k + 1 < s.view.chain.length := Nat.lt_of_le_of_lt hlt h.ordered.taken
  use s.view.chain[k + 1], k, hk
  apply List.getElem?_eq_getElem hnext

/-- The thread that removed a node takes the value of the one that follows it. -/
theorem Chained.took (h : Chained s) {cur node : ℕ} (hcur : (i, cur) ∈ s.removed)
    (hf : s.view.Follows cur node) :
  Took s i node (s.nodes node).val
  := by
  obtain ⟨k, hk⟩ := List.mem_iff_getElem?.mp hcur
  obtain ⟨k', hm, hn⟩ := hf
  have hmap : (s.removed.map Prod.snd)[k]? = some cur := by
    rw [List.getElem?_map, hk]
    rfl
  obtain rfl := h.ordered.position (h.getElem?_removed hmap).2 hm
  obtain ⟨x, hx⟩ := s.view.inserted_of_chain hn
  have hvalue : (s.nodes node).val = x := h.ordered.value node x (List.mem_of_getElem? hx)
  use k, cur, hk
  rw [hvalue]
  apply hx

/-! ### The operations on a chained queue -/

theorem view_new (s : State ι) (x : ℤ) (next : Option ℕ) :
  (s.new x next).view = s.view.new x next
  := LinkedQueue.ext (Function.comp_update ListNode.next s.nodes s.made ⟨x, next⟩)
    (Function.comp_update ListNode.val s.nodes s.made ⟨x, next⟩) rfl rfl rfl rfl rfl

theorem view_link (s : State ι) (x : ℤ) (cur node : ℕ) :
  (s.link x cur node).view = s.view.link x cur node
  := by
  have hvalue : (s.link x cur node).view.value = s.view.value :=
    (Function.comp_update ListNode.val s.nodes cur _).trans (Function.update_eq_self cur _)
  have hnext : (s.link x cur node).view.next = (s.view.link x cur node).next :=
    Function.comp_update ListNode.next s.nodes cur _
  exact LinkedQueue.ext hnext hvalue rfl rfl rfl rfl rfl

theorem view_swapTail (s : State ι) (cur : ℕ) (next : Option ℕ) :
  (s.swapTail cur next).view = s.view.swapTail cur next
  := by
  rw [State.swapTail]
  split
  · next heq => exact (if_pos heq).symm
  · next hne => exact (if_neg hne).symm

theorem view_swapHead {cur : ℕ} (hhead : s.head = some cur) (i : ι) (next : ℕ) :
  (s.swapHead i cur (some next)).view = s.view.advance next
  := LinkedQueue.ext rfl rfl rfl (if_pos hhead) rfl rfl List.length_append

theorem next_new (s : State ι) (x : ℤ) (next : Option ℕ) {n : ℕ} (h : n ≠ s.made) :
  (s.new x next).next n = s.next n
  := by
  apply (congrFun (congrArg LinkedQueue.next (view_new s x next)) n).trans
  apply LinkedQueue.next_new s.view x next h

theorem next_link (s : State ι) (x : ℤ) (cur node : ℕ) :
  (s.link x cur node).next = Function.update s.next cur (some node)
  := congrArg LinkedQueue.next (view_link s x cur node)

theorem val_link (s : State ι) (x : ℤ) (cur node n : ℕ) :
  ((s.link x cur node).nodes n).val = (s.nodes n).val
  := congrFun (congrArg LinkedQueue.value (view_link s x cur node)) n

/-- Building a node changes nothing on the chain. -/
theorem Chained.new (h : Chained s) (x : ℤ) (next : Option ℕ) :
  Chained (s.new x next)
  := by
  refine ⟨?_, h.removed, h.deleted, h.once, h.returned, h.distinct⟩
  rw [view_new]
  apply h.ordered.new

theorem Grows.new (h : Chained s) (x : ℤ) (next : Option ℕ) :
  Grows s (s.new x next)
  := by
  refine ⟨?_, List.prefix_refl _⟩
  rw [view_new]
  apply LinkedQueue.Grows.new h.ordered

theorem Grows.link (s : State ι) (x : ℤ) (cur node : ℕ) :
  Grows s (s.link x cur node)
  := by
  refine ⟨?_, List.prefix_refl _⟩
  rw [view_link]
  apply LinkedQueue.Grows.link

/-- Linking a fresh node to the last one extends the chain. -/
theorem Chained.link {x : ℤ} {cur node : ℕ} (h : Chained s) (hf : s.view.Fresh x node)
    (hcur : s.view.BehindTail cur) (hnull : s.next cur = none) :
  Chained (s.link x cur node)
  := by
  have hgrows := Grows.link s x cur node
  refine ⟨?_, h.removed.trans hgrows.view.chain_isPrefix, h.deleted, h.once, ?_, h.distinct⟩
  · rw [view_link]
    apply h.ordered.link hf hcur hnull
  · intro r hr
    obtain ⟨hmem, d, hd, hfol⟩ := h.returned r hr
    exact ⟨List.mem_append_left _ hmem, d, hd, hgrows.view.follows hfol⟩

@[simp]
theorem swapTail_deleted (s : State ι) (cur : ℕ) (next : Option ℕ) :
  (s.swapTail cur next).deleted = s.deleted
  := by
  rw [State.swapTail]
  split <;> rfl

/-- Moving `tail` from a node to the one that follows it keeps the chain. -/
theorem Chained.swapTail {cur next : ℕ} (h : Chained s) (hf : s.view.Follows cur next) :
  Chained (s.swapTail cur (some next))
  := by
  have hordered := h.ordered.swapTail hf
  rw [← view_swapTail] at hordered
  revert hordered
  rw [State.swapTail]
  split
  · next heq =>
      intro hordered
      refine ⟨hordered, h.removed, ?_, h.once, h.returned, h.distinct⟩
      intro n hn
      obtain ⟨hmem, -⟩ := h.deleted n hn
      use hmem
      -- the node `tail` moves to is ahead of it, and the nodes removed are not
      intro htail
      obtain rfl := Option.some.inj htail
      apply h.ordered.not_behindTail heq hf (h.behindTail_removed hmem)
  · intro _
    apply h

theorem Grows.swapTail {cur next : ℕ} (h : Chained s) (hf : s.view.Follows cur next) :
  Grows s (s.swapTail cur (some next))
  := by
  constructor
  · rw [view_swapTail]
    apply LinkedQueue.Grows.swapTail h.ordered hf
  · rw [State.swapTail]
    split <;> apply List.prefix_refl

/-- Moving `head` from a node to the one that follows it removes the next node in order. -/
theorem Chained.swapHead {cur next : ℕ} (h : Chained s) (hhead : s.head = some cur)
    (hf : s.view.Follows cur next) (i : ι) :
  Chained (s.swapHead i cur (some next))
  := by
  refine ⟨?_, ?_, ?_, h.once, h.returned, h.distinct⟩
  · rw [view_swapHead hhead]
    apply h.ordered.advance hhead hf
  · rw [State.swapHead, List.map_append]
    apply prefix_concat h.removed
    rw [List.length_map]
    apply h.ordered.head.symm.trans hhead
  · intro n hn
    obtain ⟨hmem, htail⟩ := h.deleted n hn
    constructor
    · rw [State.swapHead, List.map_append]
      apply List.mem_append_left _ hmem
    · apply htail

theorem Grows.swapHead {cur : ℕ} (hhead : s.head = some cur) (i : ι) (next : ℕ) :
  Grows s (s.swapHead i cur (some next))
  := by
  refine ⟨?_, List.prefix_append _ _⟩
  rw [view_swapHead hhead]
  apply LinkedQueue.Grows.advance

/-- The thread that moves `head` owns the node it moves it from. -/
theorem owns_swapHead {cur : ℕ} (h : Chained s) (hhead : s.head = some cur) (i : ι)
    (next : Option ℕ) :
  Owns (s.swapHead i cur next) i cur
  := by
  constructor
  · apply List.mem_append_right _ List.mem_cons_self
  · intro hdel
    apply h.head_notMem_removed (h.deleted cur hdel).1 hhead

/-- Deleting a node that a thread has removed and that `tail` does not designate keeps the
chain. -/
theorem Chained.delete {cur node : ℕ} {val : ℤ} (h : Chained s) (howns : Owns s i cur)
    (hf : s.view.Follows cur node) (htook : Took s i node val) (htail : s.tail ≠ some cur) :
  Chained (s.delete cur node val)
  := by
  refine ⟨h.ordered, h.removed, ?_, ?_, ?_, ?_⟩
  · intro n hn
    rcases List.mem_append.mp hn with hn | hn
    · apply h.deleted n hn
    · obtain rfl := List.mem_singleton.mp hn
      use howns.mem
      apply htail
  · apply List.nodup_append.mpr
    refine ⟨h.once, List.nodup_singleton cur, ?_⟩
    intro m hm n hn
    obtain rfl := List.mem_singleton.mp hn
    rintro rfl
    apply howns.2 hm
  · intro r hr
    rcases List.mem_append.mp hr with hr | hr
    · obtain ⟨hmem, d, hd, hfol⟩ := h.returned r hr
      exact ⟨hmem, d, List.mem_append_left _ hd, hfol⟩
    · obtain rfl := List.mem_singleton.mp hr
      obtain ⟨k, -, -, hk⟩ := htook
      exact ⟨List.mem_of_getElem? hk, cur, List.mem_append_right _ List.mem_cons_self, hf⟩
  · rw [State.delete, List.map_append]
    apply List.nodup_append.mpr
    refine ⟨h.distinct, List.nodup_singleton node, ?_⟩
    intro m hm n hn
    obtain rfl := List.mem_singleton.mp hn
    rintro rfl
    obtain ⟨r, hr, rfl⟩ := List.mem_map.mp hm
    obtain ⟨-, d, hd, hfol⟩ := h.returned r hr
    obtain rfl := h.ordered.follows_inj hf hfol
    apply howns.2 hd

theorem Grows.delete (s : State ι) (cur node : ℕ) (val : ℤ) :
  Grows s (s.delete cur node val)
  := ⟨LinkedQueue.Grows.refl _, List.prefix_refl _⟩

/-! ### The steps of a thread -/

/-- What a step of the thread `i` does: it keeps the chain, knows what it may rely on next, only
lets the queue grow, touches no fresh node but its own, deletes no node but its own, and holds
no node that was removed before. -/
structure Turn (i : ι) (s s' : State ι) (l l' : Pc) : Prop where
  chained : Chained s'
  knows : l'.Knows i s'
  grows : Grows s s'
  fresh : ∀ x n, l.building ≠ some n → s.view.Fresh x n → s'.view.Fresh x n
  building : ∀ n, l'.building = some n → l.building = some n ∨ n = s.made
  deleted : ∀ n, n ∈ s'.deleted → n ∈ s.deleted ∨ l.holding = some n
  holding : ∀ n, l'.holding = some n → l.holding = some n ∨ n ∉ s.removed.map Prod.snd

/-- A step that only reads. -/
theorem Turn.read {l l' : Pc} (h : Chained s) (hk : l'.Knows i s)
    (hb : ∀ n, l'.building = some n → l.building = some n)
    (hh : ∀ n, l'.holding = some n → l.holding = some n) :
  Turn i s s l l'
  := by
  refine ⟨h, hk, Grows.refl s, fun _ _ _ => id, ?_, fun _ => Or.inl, ?_⟩
  · intro n hn
    exact Or.inl (hb n hn)
  · intro n hn
    exact Or.inl (hh n hn)

theorem call_turn {a : Call} {l : Pc} (h : Chained s) (hnull : a.Cleared) :
  Turn i s (call s a).1 l (call s a).2
  := by
  cases a with
  | enQueue x next =>
      obtain rfl : next = none := hnull
      refine ⟨h.new x none, ?_, Grows.new h x none, ?_, ?_, fun _ => Or.inl, ?_⟩
      · change (s.new x none).view.Fresh x s.made
        rw [view_new]
        apply LinkedQueue.fresh_new h.ordered
      · intro x' n _ hf
        change (s.new x none).view.Fresh x' n
        rw [view_new]
        apply hf.new
      · intro n hn
        right
        apply (Option.some.inj hn).symm
      · intro n hn
        cases hn
  | deQueue =>
      apply Turn.read h
      · trivial
      · intro n hn
        cases hn
      · intro n hn
        cases hn

/-- A step that moves `tail` to the node that follows. -/
theorem Turn.swapTail {l l' : Pc} {cur next : ℕ} (h : Chained s) (hf : s.view.Follows cur next)
    (hk : l'.Knows i (s.swapTail cur (some next)))
    (hb : ∀ n, l'.building = some n → l.building = some n)
    (hh : ∀ n, l'.holding = some n → l.holding = some n) :
  Turn i s (s.swapTail cur (some next)) l l'
  := by
  refine ⟨h.swapTail hf, hk, Grows.swapTail h hf, ?_, ?_, ?_, ?_⟩
  · intro x n _ hfresh
    rw [view_swapTail]
    apply hfresh.swapTail
  · intro n hn
    exact Or.inl (hb n hn)
  · intro n hn
    rw [swapTail_deleted] at hn
    exact Or.inl hn
  · intro n hn
    exact Or.inl (hh n hn)

/-- A step through a pointer to a node of the chain that is not deleted. -/
theorem through_eq {n : ℕ} {p : Option ℕ} {step : ℕ → State ι × Pc} (h : Chained s)
    (hp : p = some n) (hn : n ∈ s.chain) (hdel : n ∉ s.deleted) :
  through s p step = step n
  := by
  rw [hp, through, if_pos ⟨h.ordered.made n hn, hdel⟩]

/-- The swap of `cur->next` in `en_queue(x)`. -/
theorem linking_turn {x : ℤ} {node cur : ℕ} (h : Chained s) (hfresh : s.view.Fresh x node)
    (hcur : s.view.BehindTail cur) :
  ∀ {r : State ι × Pc},
    (if (s.nodes cur).next = none then (s.link x cur node, Pc.swinging node cur)
      else (s, .rereading x node cur)) = r →
    Turn i s r.1 (.linking x node (some cur)) r.2
  := by
  rintro r rfl
  split
  · next hnull =>
      refine ⟨h.link hfresh hcur hnull, ?_, Grows.link s x cur node, ?_, ?_, fun _ => Or.inl, ?_⟩
      · change (s.link x cur node).view.Follows cur node
        rw [view_link]
        apply LinkedQueue.follows_link h.ordered hcur.mem hnull
      · intro x' n hn hf
        rw [view_link]
        apply hf.link hcur.mem
        rintro rfl
        apply hn rfl
      · intro n hn
        cases hn
      · intro n hn
        cases hn
  · next hne =>
      apply Turn.read h
      · exact ⟨hfresh, hcur, hne⟩
      · intro n hn
        apply hn
      · intro n hn
        cases hn

/-- The swap of `head` in `de_queue`. -/
theorem removing_turn {cur next : ℕ} (h : Chained s) (hhead : s.head = some cur)
    (hf : s.view.Follows cur next) :
  Turn i s (s.swapHead i cur (some next)) (.removing cur (some next)) (.reloading cur)
  := by
  refine ⟨h.swapHead hhead hf i, owns_swapHead h hhead i _, Grows.swapHead hhead i next, ?_, ?_,
    fun _ => Or.inl, ?_⟩
  · intro x n _ hfresh
    rw [view_swapHead hhead]
    apply hfresh.advance
  · intro n hn
    cases hn
  · intro n hn
    obtain rfl := Option.some.inj hn
    right
    intro hmem
    apply h.head_notMem_removed hmem hhead

/-- The deletion in `de_queue`. -/
theorem deleting_turn {cur node : ℕ} {val : ℤ} (h : Chained s)
    (hk : (Pc.deleting cur node val).Knows i s) (htail : s.tail ≠ some cur) :
  Turn i s (s.delete cur node val) (.deleting cur node val) (.answered (some node) val)
  := by
  obtain ⟨howns, hf, htook⟩ := hk
  refine ⟨h.delete howns hf htook htail, ?_, Grows.delete s cur node val, ?_, ?_, ?_, ?_⟩
  · intro n hn
    obtain rfl := Option.some.inj hn
    apply (Grows.delete s cur node val).took htook
  · intro x n _ hfresh
    apply hfresh
  · intro n hn
    cases hn
  · intro n hn
    rcases List.mem_append.mp hn with hn | hn
    · exact Or.inl hn
    · obtain rfl := List.mem_singleton.mp hn
      exact Or.inr rfl
  · intro n hn
    cases hn

theorem step_turn {a : Call} {l l' : Pc} (h : Chained s) (hk : l.Knows i s) (hnull : a.Cleared)
    (hquiet : Undisturbed s l) (hstep : (threads ι).step i a s l = some (s', l')) :
  Turn i s s' l l'
  := by
  obtain ⟨haccess, hturn⟩ := hquiet
  have hlive : ∀ {n}, l.access = some n → n ∉ s.deleted := fun hn hdel => haccess _ hdel hn
  cases l with
  | idle =>
      obtain ⟨rfl, rfl⟩ := Prod.mk.inj (Option.some.inj hstep)
      apply call_turn h hnull
  | answered node result =>
      obtain ⟨rfl, rfl⟩ := Prod.mk.inj (Option.some.inj hstep)
      apply call_turn h hnull
  | readingTail x node =>
      obtain ⟨rfl, rfl⟩ := Prod.mk.inj (Option.some.inj hstep)
      apply Turn.read h
      · exact ⟨hk, h.ordered.behindTail⟩
      · intro n hn
        apply hn
      · intro n hn
        cases hn
  | linking x node cur =>
      obtain ⟨hfresh, c, rfl, hb⟩ := hk
      have hthrough := Option.some.inj hstep
      rw [through_eq h rfl hb.mem (hlive rfl)] at hthrough
      apply linking_turn h hfresh hb hthrough
  | rereading x node cur =>
      obtain ⟨hfresh, hb, hne⟩ := hk
      have hthrough := Option.some.inj hstep
      rw [through_eq h rfl hb.mem (hlive rfl)] at hthrough
      obtain ⟨rfl, rfl⟩ := Prod.mk.inj hthrough
      obtain ⟨n, hn⟩ := Option.ne_none_iff_exists'.mp hne
      apply Turn.read h
      · exact ⟨hfresh, n, hn, h.ordered.follows hb.mem hn⟩
      · intro n hn
        apply hn
      · intro n hn
        cases hn
  | helping x node cur next =>
      obtain ⟨hfresh, n, rfl, hf⟩ := hk
      obtain ⟨rfl, rfl⟩ := Prod.mk.inj (Option.some.inj hstep)
      apply Turn.swapTail h hf
      · change (s.swapTail cur (some n)).view.Fresh x node
        rw [view_swapTail]
        apply hfresh.swapTail
      · intro n hn
        apply hn
      · intro n hn
        cases hn
  | swinging node cur =>
      obtain ⟨rfl, rfl⟩ := Prod.mk.inj (Option.some.inj hstep)
      apply Turn.swapTail h hk
      · trivial
      · intro n hn
        cases hn
      · intro n hn
        cases hn
  | readingHead =>
      obtain ⟨rfl, rfl⟩ := Prod.mk.inj (Option.some.inj hstep)
      have hf := List.getElem?_eq_getElem h.ordered.taken
      apply Turn.read h
      · exact ⟨_, h.ordered.head.trans hf, List.mem_of_getElem? hf⟩
      · intro n hn
        cases hn
      · intro n hn
        cases hn
  | testing cur =>
      obtain ⟨c, rfl, hmem⟩ := hk
      have hthrough := Option.some.inj hstep
      rw [through_eq h rfl hmem (hlive rfl)] at hthrough
      obtain ⟨rfl, rfl⟩ := Prod.mk.inj hthrough
      apply Turn.read h
      · split
        · intro n hn
          cases hn
        · next hne => exact ⟨hmem, hne⟩
      · intro n hn
        split at hn <;> cases hn
      · intro n hn
        split at hn <;> cases hn
  | readingNext cur =>
      obtain ⟨hmem, hne⟩ := hk
      have hthrough := Option.some.inj hstep
      rw [through_eq h rfl hmem (hlive rfl)] at hthrough
      obtain ⟨rfl, rfl⟩ := Prod.mk.inj hthrough
      obtain ⟨n, hn⟩ := Option.ne_none_iff_exists'.mp hne
      apply Turn.read h
      · exact ⟨n, hn, h.ordered.follows hmem hn⟩
      · intro n hn
        cases hn
      · intro n hn
        cases hn
  | removing cur next =>
      obtain ⟨n, rfl, hf⟩ := hk
      obtain ⟨rfl, rfl⟩ := Prod.mk.inj (Option.some.inj hstep)
      apply removing_turn h hturn hf
  | reloading cur =>
      have howns : Owns s i cur := hk
      have hthrough := Option.some.inj hstep
      rw [through_eq h rfl (h.behindTail_removed howns.mem).mem howns.2] at hthrough
      obtain ⟨rfl, rfl⟩ := Prod.mk.inj hthrough
      obtain ⟨n, hf⟩ := h.follows_removed howns.mem
      apply Turn.read h
      · exact ⟨howns, n, h.ordered.next_of_follows hf, hf⟩
      · intro n hn
        cases hn
      · intro n hn
        apply hn
  | copying cur next =>
      obtain ⟨howns, n, rfl, hf⟩ := hk
      have hthrough := Option.some.inj hstep
      rw [through_eq h rfl hf.mem_right (hlive rfl)] at hthrough
      obtain ⟨rfl, rfl⟩ := Prod.mk.inj hthrough
      apply Turn.read h
      · exact ⟨howns, hf, h.took howns.1 hf⟩
      · intro n hn
        cases hn
      · intro n hn
        apply hn
  | deleting cur node val =>
      obtain ⟨rfl, rfl⟩ := Prod.mk.inj (Option.some.inj hstep)
      apply deleting_turn h hk hturn
  | crashed => cases hk

/-- The node a thread builds exists. -/
theorem Pc.Knows.building_lt {l : Pc} (h : l.Knows i s) {n : ℕ} (hn : l.building = some n) :
  n < s.made
  := by
  cases l with
  | readingTail x node =>
      obtain rfl := Option.some.inj hn
      apply LinkedQueue.Fresh.made h
  | linking x node cur =>
      obtain rfl := Option.some.inj hn
      apply h.1.made
  | rereading x node cur =>
      obtain rfl := Option.some.inj hn
      apply h.1.made
  | helping x node cur next =>
      obtain rfl := Option.some.inj hn
      apply h.1.made
  | _ => cases hn

/-- The node a thread holds is its own. -/
theorem Pc.Knows.owns {l : Pc} (h : l.Knows i s) {n : ℕ} (hn : l.holding = some n) :
  Owns s i n
  := by
  cases l with
  | reloading cur =>
      obtain rfl := Option.some.inj hn
      apply h
  | copying cur next =>
      obtain rfl := Option.some.inj hn
      apply h.1
  | deleting cur node val =>
      obtain rfl := Option.some.inj hn
      apply h.1
  | _ => cases hn

/-! ### The proof outline -/

/-- The threads whose steps are all undisturbed and whose calls build nodes with null
pointers. -/
def undisturbed (ι : Type*) [DecidableEq ι] : Threads ι (State ι) Pc Call :=
  (threads ι).restrict fun _ a s l => a.Cleared ∧ Undisturbed s l

/-- The outline of these threads: no two build the same node, and no two hold the same one. -/
def delivering (ι : Type*) [DecidableEq ι] : Threads.Outline (undisturbed ι) where
  shared := Chained
  own i s l := l.Knows i s
  apart l k := (∀ n, l.building = some n → k.building ≠ some n) ∧
    ∀ n, l.holding = some n → k.holding ≠ some n
  symm := by
    rintro l k ⟨hb, hh⟩
    constructor
    · intro n hk hl
      apply hb n hl hk
    · intro n hk hl
      apply hh n hl hk
  step := by
    intro i a s l s' l' hs hl hstep
    simp only [undisturbed, Threads.restrict, Option.ite_none_right_eq_some] at hstep
    obtain ⟨⟨hnull, hquiet⟩, hstep⟩ := hstep
    have ht := step_turn hs hl hnull hquiet hstep
    use ht.chained
    apply ht.knows
  free := by
    rintro i a s l s' l' j k hs hl hstep - hk ⟨hb, hh⟩
    simp only [undisturbed, Threads.restrict, Option.ite_none_right_eq_some] at hstep
    obtain ⟨⟨hnull, hquiet⟩, hstep⟩ := hstep
    have ht := step_turn hs hl hnull hquiet hstep
    refine ⟨?_, ?_, ?_⟩
    · apply hk.grows ht.grows
      · intro x n hn hf
        apply ht.fresh x n _ hf
        intro hl
        apply hb n hl hn
      · rintro n hn ⟨hmem, hdel⟩
        use ht.grows.removed.subset hmem
        intro hdel'
        rcases ht.deleted n hdel' with hd | hd
        · apply hdel hd
        · apply hh n hd hn
    · intro n hn hkn
      rcases ht.building n hn with hl | rfl
      · apply hb n hl hkn
      · apply Nat.lt_irrefl s.made (hk.building_lt hkn)
    · intro n hn hkn
      rcases ht.holding n hn with hl | hnew
      · apply hh n hl hkn
      · apply hnew (hk.owns hkn).mem

theorem delivering_start (ι : Type*) [DecidableEq ι] (val : ℤ) :
  (delivering ι).Holds (start ι val)
  := by
  constructor
  · refine ⟨LinkedQueue.ordered_empty val, List.nil_prefix, ?_, List.nodup_nil, ?_,
      List.nodup_nil⟩
    · intro n hn
      cases hn
    · intro r hr
      cases hr
  · intro i
    trivial
  · intro i j _
    constructor <;> intro n hn <;> cases hn

/-! ### Delivery -/

/-- The queue has delivered what it was given once and in order: the nodes taken out of `head`
are the first ones of the chain, in order; a `de_queue` that is the `k`-th to take one returns
the `k`-th value linked, with the node that holds it; no node has its value returned twice, and
what is returned is what was linked; no node is deleted twice; neither `head` nor `tail` is a
node that is deleted; and no thread has crashed. -/
structure Delivered (c : Threads.Config ι (State ι) Pc) : Prop where
  order : c.shared.removed.map Prod.snd <+: c.shared.chain
  answer : ∀ i n result, c.locals i = .answered (some n) result → Took c.shared i n result
  once : (c.shared.returned.map Prod.fst).Nodup
  values : ∀ r, r ∈ c.shared.returned → r ∈ c.shared.inserted
  deleted : c.shared.deleted.Nodup
  head : ∀ n, n ∈ c.shared.deleted → c.shared.head ≠ some n
  tail : ∀ n, n ∈ c.shared.deleted → c.shared.tail ≠ some n
  safe : ∀ i, c.locals i ≠ .crashed

variable [DecidableEq ι] {val : ℤ} {es : List (ι × Call)}

theorem Delivered.of_holds {c : Threads.Config ι (State ι) Pc} (h : (delivering ι).Holds c) :
  Delivered c
  := by
  have hs : Chained c.shared := h.shared
  constructor
  · apply hs.removed
  · intro i n result hl
    have hown := h.own i
    rw [hl] at hown
    apply hown n rfl
  · apply hs.distinct
  · intro r hr
    apply (hs.returned r hr).1
  · apply hs.once
  · intro n hn
    apply hs.head_notMem_removed (hs.deleted n hn).1
  · intro n hn
    apply (hs.deleted n hn).2
  · intro i hl
    have hown := h.own i
    rw [hl] at hown
    apply hown

/-- Two threads add a value each, the second one's swap fails and it moves `tail` for the first
one; two others take the values, the second one from before the first one has deleted its node. -/
def overlapping : List (ℕ × Call) :=
  [(0, .enQueue 5 none), (2, .enQueue 7 none), (0, .deQueue), (2, .deQueue), (0, .deQueue),
    (2, .deQueue), (1, .deQueue), (2, .deQueue), (1, .deQueue), (2, .deQueue), (0, .deQueue),
    (1, .deQueue), (2, .deQueue), (1, .deQueue), (2, .deQueue), (1, .deQueue), (2, .deQueue),
    (3, .deQueue), (3, .deQueue), (1, .deQueue), (3, .deQueue), (1, .deQueue), (3, .deQueue),
    (3, .deQueue), (1, .deQueue), (3, .deQueue), (3, .deQueue), (3, .deQueue)]

/-- Two threads read `head` when one value is in the queue, and swap it one after the other. -/
def twoReaders : List (ℕ × Call) :=
  List.replicate 4 (0, .enQueue 5 none) ++ List.replicate 3 (1, .deQueue) ++
    List.replicate 7 (2, .deQueue) ++ List.replicate 4 (1, .deQueue) ++
    [(2, .deQueue), (1, .deQueue)]

end FreeLockQueue
