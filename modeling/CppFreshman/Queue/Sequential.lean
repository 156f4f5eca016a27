import CppFreshman.Queue.Delivery

/-!
# The queue that deletes its nodes, used by one thread

The constructor of a node does not set `next`, and `en_queue` and `de_queue` follow what the
last node then holds; and -1 is both a value and the answer of an empty queue.  A sequence of
calls by one thread is served as a first-in, first-out queue serves it exactly if no call goes
where one of the two matters (`fifo_iff`).
-/

namespace FreeLockQueue

/-! ### Calls of one thread -/

/-- The steps of a thread until its call has returned, and what it returns (`en_queue` nothing
of interest), if no more than `fuel` steps are needed. -/
def finish : ℕ → State Unit → Pc → Option (State Unit × Option ℤ)
  | _, s, .idle => some (s, none)
  | _, s, .answered _ result => some (s, some result)
  | 0, _, _ => none
  | fuel + 1, s, l => ((threads Unit).step () .deQueue s l).bind fun r => finish fuel r.1 r.2

/-- A call, if it returns within `fuel` steps. -/
def perform (fuel : ℕ) (s : State Unit) (c : Call) : Option (State Unit × Option ℤ) :=
  finish fuel (call s c).1 (call s c).2

/-- The call returns `r` and leaves the queue in `s'`. -/
def Returns (s : State Unit) (c : Call) (s' : State Unit) (r : Option ℤ) : Prop :=
  ∃ fuel, perform fuel s c = some (s', r)

/-- What a queue with these values, the oldest first, holds after a call. -/
def stored (values : List ℤ) : Call → List ℤ
  | .enQueue x _ => values ++ [x]
  | .deQueue => values.tail

/-- A call of a queue with these values returns what it should: `de_queue` the oldest value,
and -1 exactly if there is none. -/
def Right (values : List ℤ) : Call → Option ℤ → Prop
  | .enQueue _ _, r => r = none
  | .deQueue, r => ∃ v, r = some v ∧ (∀ w, values.head? = some w → v = w) ∧ (v = -1 ↔ values = [])

/-- Each of the calls returns, and what it should, where the queue has these values. -/
def Fifo (s : State Unit) (values : List ℤ) : List Call → Prop
  | [] => True
  | c :: calls => ∃ s' r, Returns s c s' r ∧ Right values c r ∧ Fifo s' (stored values c) calls

/-! ### What the calls depend on -/

/-- The values of a queue, the oldest first, what its last node holds in `next`, and the number
of the next node. -/
structure Contents where
  values : List ℤ
  last : Option ℕ
  made : ℕ

/-- The contents after a call. -/
def Contents.after (q : Contents) (c : Call) : Contents where
  values := stored q.values c
  last :=
    match c with
    | .enQueue _ next => if q.last = none then next else some q.made
    | .deQueue => q.last
  made :=
    match c with
    | .enQueue _ _ => q.made + 1
    | .deQueue => q.made

/-- The call finds a null pointer where it looks for the end of the queue, or what the last node
holds happens to be the address of the new node and that has a null pointer; and `de_queue` does
not return the value -1. -/
def Contents.Serves (q : Contents) : Call → Prop
  | .enQueue _ next => q.last = none ∨ (q.last = some q.made ∧ next = none)
  | .deQueue => (q.values = [] → q.last = none) ∧ ∀ v, q.values.head? = some v → v ≠ -1

/-- The contents of a queue under its calls. -/
def contents : Machine Contents Call where
  step q c := some (q.after c)

/-- The queue has these contents in the node `first`, whose value has been returned, and the
nodes `rest`. -/
structure Stores (s : State Unit) (q : Contents) (first : ℕ) (rest : List ℕ) : Prop where
  made : s.made = q.made
  leads : Leads s.next q.last (first :: rest)
  head : s.head = some first
  tail : s.tail = (first :: rest).getLast?
  values : rest.map (fun n => (s.nodes n).val) = q.values
  nodup : (first :: rest).Nodup
  alive : ∀ n, s.Alive n ↔ n ∈ first :: rest
  deleted : ∀ n, n ∈ s.deleted → n < s.made
  sentinel : q.values = [] → q.last ≠ none → (s.nodes first).val ≠ -1

variable {s s' s'' : State Unit} {q : Contents} {first : ℕ} {rest : List ℕ} {l : Pc} {c : Call}
  {r r' : Option ℤ}

theorem finish_idle (fuel : ℕ) (s : State Unit) :
  finish fuel s .idle = some (s, none)
  := by
  cases fuel <;> rfl

theorem finish_answered (fuel : ℕ) (s : State Unit) (node : Option ℕ) (result : ℤ) :
  finish fuel s (.answered node result) = some (s, some result)
  := by
  cases fuel <;> rfl

/-- More steps than needed make no difference. -/
theorem finish_succ {fuel : ℕ} (h : finish fuel s l = some (s', r)) :
  finish (fuel + 1) s l = some (s', r)
  := by
  induction fuel generalizing s l with
  | zero =>
      cases l with
      | idle =>
          rw [finish_idle] at h ⊢
          apply h
      | answered node result =>
          rw [finish_answered] at h ⊢
          apply h
      | _ => cases h
  | succ fuel ih =>
      cases l with
      | idle => apply h
      | answered node result => apply h
      | _ =>
          obtain ⟨⟨t, k⟩, hstep, hrest⟩ := Option.bind_eq_some_iff.mp h
          apply Option.bind_eq_some_iff.mpr
          use (t, k), hstep
          apply ih hrest

theorem finish_of_le {fuel fuel' : ℕ} (hle : fuel ≤ fuel') (h : finish fuel s l = some (s', r)) :
  finish fuel' s l = some (s', r)
  := by
  induction fuel', hle using Nat.le_induction with
  | base => apply h
  | succ fuel' _ ih => apply finish_succ ih

/-- A call returns in one way. -/
theorem Returns.unique (h : Returns s c s' r) (h' : Returns s c s'' r') :
  s' = s'' ∧ r = r'
  := by
  obtain ⟨fuel, hf⟩ := h
  obtain ⟨fuel', hf'⟩ := h'
  have hmax := finish_of_le (Nat.le_max_left fuel fuel') hf
  have hmax' := finish_of_le (Nat.le_max_right fuel fuel') hf'
  apply Prod.mk.inj (Option.some.inj (hmax.symm.trans hmax'))

/-! ### Calls that are served -/

/-- The last node of the queue. -/
theorem Stores.last (h : Stores s q first rest) :
  ∃ t, s.tail = some t ∧ (first :: rest).getLast? = some t ∧ s.Alive t ∧ s.next t = q.last
  := by
  obtain ⟨t, ht⟩ : ∃ t, (first :: rest).getLast? = some t :=
    ⟨_, List.getLast?_eq_getLast_of_ne_nil (List.cons_ne_nil first rest)⟩
  have hmem : t ∈ first :: rest := List.mem_of_getLast? ht
  obtain ⟨l, hl⟩ := List.getLast?_eq_some_iff.mp ht
  have hleads := h.leads
  rw [hl] at hleads
  use t, h.tail.trans ht, ht, (h.alive t).mpr hmem
  apply (leads_append.mp hleads).2.1

/-- The number of the next node is that of none so far. -/
theorem Stores.made_notMem (h : Stores s q first rest) :
  s.made ∉ first :: rest
  := by
  intro hmem
  apply Nat.lt_irrefl s.made ((h.alive s.made).mpr hmem).1

theorem through_some {s : State Unit} {n : ℕ} (hn : s.Alive n) (step : ℕ → State Unit × Pc) :
  through s (some n) step = step n
  := by
  rw [through, if_pos hn]

/-! The steps of a call, one by one. -/

section Steps

variable {n cur node : ℕ} {x val : ℤ} {next p : Option ℕ}

theorem finish_readingTail :
  finish (n + 1) s (.readingTail x node) = finish n s (.linking x node s.tail)
  := rfl

theorem finish_linking (hcur : s.Alive cur) (hnull : s.next cur = none) :
  finish (n + 1) s (.linking x node (some cur)) =
    finish n (s.link x cur node) (.swinging node cur)
  := by
  have hnull' : (s.nodes cur).next = none := hnull
  simp only [finish, threads, Option.bind_some]
  rw [through_some hcur, if_pos hnull']

theorem finish_linking_fails (hcur : s.Alive cur) (hnext : s.next cur ≠ none) :
  finish (n + 1) s (.linking x node (some cur)) = finish n s (.rereading x node cur)
  := by
  have hnext' : (s.nodes cur).next ≠ none := hnext
  simp only [finish, threads, Option.bind_some]
  rw [through_some hcur, if_neg hnext']

theorem finish_rereading (hcur : s.Alive cur) :
  finish (n + 1) s (.rereading x node cur) = finish n s (.helping x node cur (s.next cur))
  := by
  simp only [finish, threads, Option.bind_some]
  rw [through_some hcur]
  rfl

theorem finish_helping :
  finish (n + 1) s (.helping x node cur next) = finish n (s.swapTail cur next) (.readingTail x node)
  := rfl

theorem finish_swinging :
  finish (n + 1) s (.swinging node cur) = some (s.swapTail cur (some node), none)
  := by
  apply finish_idle

theorem finish_readingHead :
  finish (n + 1) s .readingHead = finish n s (.testing s.head)
  := rfl

theorem finish_testing_null (hcur : s.Alive cur) (hnull : s.next cur = none) :
  finish (n + 1) s (.testing (some cur)) = some (s, some (-1))
  := by
  have hnull' : (s.nodes cur).next = none := hnull
  simp only [finish, threads, Option.bind_some]
  rw [through_some hcur, if_pos hnull', finish_answered]

theorem finish_testing (hcur : s.Alive cur) (hnext : s.next cur ≠ none) :
  finish (n + 1) s (.testing (some cur)) = finish n s (.readingNext cur)
  := by
  have hnext' : (s.nodes cur).next ≠ none := hnext
  simp only [finish, threads, Option.bind_some]
  rw [through_some hcur, if_neg hnext']

theorem finish_readingNext (hcur : s.Alive cur) :
  finish (n + 1) s (.readingNext cur) = finish n s (.removing cur (s.next cur))
  := by
  simp only [finish, threads, Option.bind_some]
  rw [through_some hcur]
  rfl

theorem finish_removing (hcur : s.Alive cur) :
  finish (n + 2) s (.removing cur next) =
    finish n (s.swapHead () cur next) (.copying cur (s.next cur))
  := by
  have halive : (s.swapHead () cur next).Alive cur := hcur
  simp only [finish, threads, Option.bind_some]
  rw [through_some halive]
  rfl

theorem finish_copying (hnode : s.Alive node) :
  finish (n + 1) s (.copying cur (some node)) =
    finish n s (.deleting cur node (s.nodes node).val)
  := by
  simp only [finish, threads, Option.bind_some]
  rw [through_some hnode]

theorem finish_deleting :
  finish (n + 1) s (.deleting cur node val) = some (s.delete cur node val, some val)
  := by
  apply finish_answered

theorem finish_crashed :
  finish n s .crashed = none
  := by
  cases n <;> rfl

/-- A thread that goes through a pointer to no node does not return. -/
theorem finish_through {f : ℕ → State Unit × Pc} (hp : ∀ m, p = some m → ¬ s.Alive m) :
  finish n (through s p f).1 (through s p f).2 = none
  := by
  rcases hcase : p with _ | m
  · apply finish_crashed
  · rw [through, if_neg (hp m hcase)]
    apply finish_crashed

theorem finish_linking_dead (hp : ∀ m, p = some m → ¬ s.Alive m) :
  finish (n + 1) s (.linking x node p) = none
  := finish_through hp

theorem finish_copying_dead (hp : ∀ m, p = some m → ¬ s.Alive m) :
  finish (n + 1) s (.copying cur p) = none
  := finish_through hp

end Steps

@[simp]
theorem next_swapTail (s : State Unit) (cur : ℕ) (next : Option ℕ) :
  (s.swapTail cur next).next = s.next
  := by
  rw [State.swapTail]
  split <;> rfl

@[simp]
theorem alive_swapTail (s : State Unit) (cur : ℕ) (next : Option ℕ) (n : ℕ) :
  (s.swapTail cur next).Alive n ↔ s.Alive n
  := by
  rw [State.swapTail]
  split <;> rfl

theorem tail_swapTail {cur : ℕ} {next : Option ℕ} (h : s.tail = some cur) :
  (s.swapTail cur next).tail = next
  := by
  rw [State.swapTail, if_pos h]

/-- The state after `en_queue(x)` with `cur` swapped in the node `made` that holds `next`. -/
def State.entered (s : State Unit) (x : ℤ) (next : Option ℕ) (cur : ℕ) : State Unit :=
  { (s.new x next).link x cur s.made with tail := some s.made }

theorem next_entered (s : State Unit) (x : ℤ) (next : Option ℕ) (cur : ℕ) :
  (s.entered x next cur).next = Function.update (s.new x next).next cur (some s.made)
  := next_link (s.new x next) x cur s.made

theorem next_new_made (s : State Unit) (x : ℤ) (next : Option ℕ) :
  (s.new x next).next s.made = next
  := by
  simp [State.next, State.new]

/-- Only the node that is built gets a new value. -/
theorem val_entered (s : State Unit) (x : ℤ) (next : Option ℕ) (cur n : ℕ) :
  ((s.entered x next cur).nodes n).val = if n = s.made then x else (s.nodes n).val
  := by
  have hval := val_link (s.new x next) x cur s.made n
  apply hval.trans
  rcases Classical.em (n = s.made) with rfl | hne
  · simp [State.new]
  · simp [State.new, hne]

/-- A new node is the last one if the pointers lead there. -/
theorem Stores.entered (h : Stores s q first rest) {x : ℤ} {next last : Option ℕ} {cur : ℕ}
    (hleads : Leads (s.entered x next cur).next last (first :: (rest ++ [s.made]))) :
  Stores (s.entered x next cur) ⟨q.values ++ [x], last, q.made + 1⟩ first (rest ++ [s.made])
  := by
  have hmade := h.made_notMem
  refine ⟨congrArg Nat.succ h.made, hleads, h.head, ?_, ?_, ?_, ?_, ?_, ?_⟩
  · rw [← List.cons_append, List.getLast?_concat]
    rfl
  · rw [List.map_append, ← h.values, List.map_singleton, val_entered, if_pos rfl]
    congr 1
    apply List.map_congr_left
    intro n hn
    rw [val_entered, if_neg]
    rintro rfl
    apply hmade (List.mem_cons_of_mem first hn)
  · rw [← List.cons_append]
    apply List.nodup_append.mpr
    refine ⟨h.nodup, List.nodup_singleton s.made, ?_⟩
    intro m hm n hn
    obtain rfl := List.mem_singleton.mp hn
    rintro rfl
    apply hmade hm
  · intro n
    rw [← List.cons_append, List.mem_append, List.mem_singleton, ← h.alive]
    constructor
    · rintro ⟨hlt, hdel⟩
      rcases Nat.lt_succ_iff_lt_or_eq.mp hlt with hlt | heq
      · exact Or.inl ⟨hlt, hdel⟩
      · exact Or.inr heq
    · rintro (⟨hlt, hdel⟩ | rfl)
      · exact ⟨Nat.lt_succ_of_lt hlt, hdel⟩
      · use Nat.lt_succ_self s.made
        intro hdel
        apply Nat.lt_irrefl s.made (h.deleted s.made hdel)
  · intro n hn
    apply Nat.lt_succ_of_lt (h.deleted n hn)
  · intro hvalues
    simp at hvalues

/-- Building a node changes no pointer of the queue. -/
theorem Stores.leads_new (h : Stores s q first rest) (x : ℤ) (next : Option ℕ) :
  Leads (s.new x next).next q.last (first :: rest)
  := by
  apply h.leads.congr
  intro n hn
  apply next_new
  rintro rfl
  apply h.made_notMem hn

/-- `en_queue` links a new node behind the last one, if that has a null pointer. -/
theorem Stores.enQueue_null (h : Stores s q first rest) (x : ℤ) (next : Option ℕ)
    (hlast : q.last = none) :
  ∃ s', Returns s (.enQueue x next) s' none ∧
    Stores s' ⟨q.values ++ [x], next, q.made + 1⟩ first (rest ++ [s.made])
  := by
  obtain ⟨t, ht, hgetLast, ⟨hlt, hdel⟩, hnext⟩ := h.last
  have hmade := h.made_notMem
  have hne : t ≠ s.made := by
    rintro rfl
    apply hmade (List.mem_of_getLast? hgetLast)
  have halive : (s.new x next).Alive t := ⟨Nat.lt_succ_of_lt hlt, hdel⟩
  have hnull : (s.new x next).next t = none := by
    rw [next_new s x next hne, hnext, hlast]
  use s.entered x next t
  have htail : (s.new x next).tail = some t := ht
  have hswap : ((s.new x next).link x t s.made).swapTail t (some s.made) = s.entered x next t :=
    if_pos ht
  constructor
  · use 3
    rw [perform, call, finish_readingTail, htail, finish_linking halive hnull, finish_swinging,
      hswap]
  · apply h.entered
    have hlink := (h.leads_new x next).link_last h.nodup hgetLast hmade
    rw [next_new_made, ← next_entered] at hlink
    apply hlink

/-- `en_queue` links a new node to itself, if the last one happens to point there. -/
theorem Stores.enQueue_self (h : Stores s q first rest) (x : ℤ) (hlast : q.last = some q.made) :
  ∃ s', Returns s (.enQueue x none) s' none ∧
    Stores s' ⟨q.values ++ [x], some q.made, q.made + 1⟩ first (rest ++ [s.made])
  := by
  obtain ⟨t, ht, hgetLast, ⟨hlt, hdel⟩, hnext⟩ := h.last
  have hmade := h.made_notMem
  have hne : t ≠ s.made := by
    rintro rfl
    apply hmade (List.mem_of_getLast? hgetLast)
  have halive : (s.new x none).Alive t := ⟨Nat.lt_succ_of_lt hlt, hdel⟩
  have halive' : (s.new x none).Alive s.made := by
    use Nat.lt_succ_self s.made
    intro hdel
    apply Nat.lt_irrefl s.made (h.deleted s.made hdel)
  have htail : (s.new x none).tail = some t := ht
  have hnext' : (s.new x none).next t = some s.made := by
    rw [next_new s x none hne, hnext, hlast, h.made]
  have hset : (s.new x none).next t ≠ none := by
    rw [hnext']
    apply Option.some_ne_none
  have hnull : ((s.new x none).swapTail t (some s.made)).next s.made = none := by
    rw [next_swapTail, next_new_made]
  have hswap : (((s.new x none).swapTail t (some s.made)).link x s.made s.made).swapTail s.made
      (some s.made) = s.entered x none s.made := by
    have htail' : (s.new x none).swapTail t (some s.made) =
      { s.new x none with tail := some s.made } := if_pos ht
    rw [htail']
    apply if_pos rfl
  use s.entered x none s.made
  constructor
  · use 7
    rw [perform, call, finish_readingTail, htail, finish_linking_fails halive hset,
      finish_rereading halive, hnext', finish_helping, finish_readingTail, tail_swapTail htail,
      finish_linking ((alive_swapTail _ _ _ _).mpr halive') hnull, finish_swinging, hswap]
  · apply h.entered
    rw [← List.cons_append, leads_append, next_entered]
    constructor
    · have hleads := h.leads_new x none
      rw [hlast, ← h.made] at hleads
      apply hleads.congr
      intro n hn
      rw [Function.update_of_ne]
      rintro rfl
      apply hmade hn
    · rw [leads_cons, Function.update_self, h.made]
      exact ⟨rfl, trivial⟩

/-- `de_queue` returns the oldest value. -/
theorem Stores.deQueue_cons {second : ℕ} (h : Stores s q first (second :: rest))
    (hvalue : ∀ v, q.values.head? = some v → v ≠ -1) :
  ∃ s' v, Returns s .deQueue s' (some v) ∧ q.values.head? = some v ∧
    Stores s' ⟨q.values.tail, q.last, q.made⟩ second rest
  := by
  have hfirst : s.Alive first := (h.alive first).mpr List.mem_cons_self
  have hsecond : s.Alive second :=
    (h.alive second).mpr (List.mem_cons_of_mem first List.mem_cons_self)
  have hsecond' : (s.swapHead () first (some second)).Alive second := hsecond
  have hnext : s.next first = some second := h.leads.1
  have hset : s.next first ≠ none := by
    rw [hnext]
    apply Option.some_ne_none
  have hvalues := h.values
  rw [List.map_cons] at hvalues
  have hv : q.values.head? = some (s.nodes second).val := by
    rw [← hvalues]
    rfl
  have hout : ∀ n, n ∈ second :: rest → n ≠ first := by
    rintro n hn rfl
    apply (List.nodup_cons.mp h.nodup).1 hn
  use (s.swapHead () first (some second)).delete first second (s.nodes second).val,
    (s.nodes second).val
  refine ⟨?_, hv, ?_⟩
  · use 7
    rw [perform, call, finish_readingHead, h.head, finish_testing hfirst hset,
      finish_readingNext hfirst, finish_removing hfirst, hnext, finish_copying hsecond',
      finish_deleting]
    rfl
  · refine ⟨h.made, h.leads.2, if_pos h.head, ?_, ?_, (List.nodup_cons.mp h.nodup).2, ?_, ?_, ?_⟩
    · apply h.tail.trans
      apply List.getLast?_cons_cons
    · rw [← hvalues]
      rfl
    · intro n
      have halive := h.alive n
      constructor
      · rintro ⟨hlt, hdel⟩
        have hdel' : n ∉ s.deleted := fun hn => hdel (List.mem_append_left _ hn)
        rcases List.mem_cons.mp (halive.mp ⟨hlt, hdel'⟩) with rfl | hn
        · apply absurd (List.mem_append_right _ List.mem_cons_self) hdel
        · apply hn
      · intro hn
        obtain ⟨hlt, hdel⟩ := halive.mpr (List.mem_cons_of_mem first hn)
        use hlt
        intro hdel'
        rcases List.mem_append.mp hdel' with hd | hd
        · apply hdel hd
        · apply hout n hn (List.mem_singleton.mp hd)
    · intro n hn
      rcases List.mem_append.mp hn with hd | hd
      · apply h.deleted n hd
      · obtain rfl := List.mem_singleton.mp hd
        apply hfirst.1
    · intro _ _
      apply hvalue _ hv

/-- `de_queue` finds nothing if the last node has a null pointer. -/
theorem Stores.deQueue_nil (h : Stores s q first []) (hlast : q.last = none) :
  Returns s .deQueue s (some (-1))
  := by
  have hfirst : s.Alive first := (h.alive first).mpr List.mem_cons_self
  have hnull : s.next first = none := by
    rw [h.leads.1, hlast]
    rfl
  use 2
  rw [perform, call, finish_readingHead, h.head, finish_testing_null hfirst hnull]

/-! ### Calls that are not served -/

/-- `de_queue` does not return -1 if the last node, whose value was returned, does not have a
null pointer. -/
theorem Stores.not_deQueue (h : Stores s q first []) (hlast : q.last ≠ none) :
  ¬ Returns s .deQueue s' (some (-1))
  := by
  rintro ⟨fuel, hfuel⟩
  have hfirst : s.Alive first := (h.alive first).mpr List.mem_cons_self
  obtain ⟨p, hp⟩ := Option.ne_none_iff_exists'.mp hlast
  have hnext : s.next first = some p := by
    rw [h.leads.1, hp]
    rfl
  have hset : s.next first ≠ none := by
    rw [hnext]
    apply Option.some_ne_none
  have hmore := finish_of_le (Nat.le_add_right fuel 7) hfuel
  rw [call, finish_readingHead, h.head, finish_testing hfirst hset, finish_readingNext hfirst,
    finish_removing hfirst, hnext] at hmore
  rcases Classical.em (s.Alive p) with halive | hdead
  · obtain rfl := List.mem_singleton.mp ((h.alive p).mp halive)
    have halive' : (s.swapHead () p (some p)).Alive p := halive
    rw [finish_copying halive', finish_deleting] at hmore
    have hval := (Prod.mk.inj (Option.some.inj hmore)).2
    apply h.sentinel _ hlast (Option.some.inj hval)
    rw [← h.values]
    rfl
  · have hnone : finish (fuel + 2) (s.swapHead () first (some p)) (.copying first (some p)) =
        none := by
      apply finish_copying_dead
      intro m hm
      obtain rfl := Option.some.inj hm
      apply hdead
    cases hnone.symm.trans hmore

/-- Every pointer of a node leads to a node that has a pointer, or to none. -/
def Endless (s : State Unit) : Prop :=
  ∀ n m, s.Alive n → s.next n = some m → s.Alive m → s.next m ≠ none

/-- Where a thread is in the loop of `en_queue` if `tail` does not lead out of it. -/
def Loops (s : State Unit) : Pc → Prop
  | .readingTail _ _ => ∀ n, s.tail = some n → s.Alive n → s.next n ≠ none
  | .linking _ _ cur => s.tail = cur ∧ ∀ n, cur = some n → s.Alive n → s.next n ≠ none
  | .rereading _ _ cur => s.tail = some cur ∧ s.Alive cur ∧ s.next cur ≠ none
  | .helping _ _ cur next => s.tail = some cur ∧ ∀ n, next = some n → s.Alive n → s.next n ≠ none
  | .crashed => True
  | _ => False

/-- The loop of `en_queue` goes on. -/
theorem Loops.finish_eq_none (hend : Endless s) (h : Loops s l) (fuel : ℕ) :
  finish fuel s l = none
  := by
  induction fuel generalizing s l with
  | zero => cases l <;> first | rfl | cases h
  | succ fuel ih =>
      cases l with
      | readingTail x node =>
          rw [finish_readingTail]
          apply ih hend
          exact ⟨rfl, h⟩
      | linking x node cur =>
          obtain ⟨htail, hnext⟩ := h
          rcases Classical.em (∃ c, cur = some c ∧ s.Alive c) with ⟨c, rfl, halive⟩ | hdead
          · rw [finish_linking_fails halive (hnext c rfl halive)]
            apply ih hend
            exact ⟨htail, halive, hnext c rfl halive⟩
          · apply finish_linking_dead
            intro m hm halive
            apply hdead ⟨m, hm, halive⟩
      | rereading x node cur =>
          obtain ⟨htail, halive, hnext⟩ := h
          rw [finish_rereading halive]
          apply ih hend
          use htail
          intro n hn
          apply hend cur n halive hn
      | helping x node cur next =>
          obtain ⟨htail, hnext⟩ := h
          rw [finish_helping]
          apply ih
          · intro n m
            simp only [next_swapTail, alive_swapTail]
            apply hend
          · intro n
            rw [tail_swapTail htail, next_swapTail, alive_swapTail]
            apply hnext
      | crashed => apply finish_crashed
      | _ => cases h

/-- `en_queue` does not return if the last node has a pointer, unless that is one to the new
node and the new node has none. -/
theorem Stores.not_enQueue (h : Stores s q first rest) {x : ℤ} {next : Option ℕ}
    (hserves : ¬ q.Serves (.enQueue x next)) :
  ¬ Returns s (.enQueue x next) s' r
  := by
  rintro ⟨fuel, hfuel⟩
  have hmade := h.made_notMem
  obtain ⟨p, hp⟩ : ∃ p, q.last = some p :=
    Option.ne_none_iff_exists'.mp fun hnull => hserves (Or.inl hnull)
  have hleads := h.leads_new x next
  rw [hp] at hleads
  have hnode : ∀ n, (s.new x next).Alive n → n ∈ first :: rest ∨ n = s.made := by
    rintro n ⟨hlt, hdel⟩
    rcases Nat.lt_succ_iff_lt_or_eq.mp hlt with hlt | heq
    · exact Or.inl ((h.alive n).mp ⟨hlt, hdel⟩)
    · exact Or.inr heq
  have hend : Endless (s.new x next) := by
    intro n m hn hnm hm hnull
    rcases hnode m hm with hmem | rfl
    · apply hleads.next_ne_none hmem hnull
    · rw [next_new_made] at hnull
      rcases hnode n hn with hmem | rfl
      · rcases hleads.mem_or_eq hmem hnm with hmem' | heq
        · apply hmade hmem'
        · apply hserves
          right
          rw [hp, heq, h.made]
          exact ⟨rfl, hnull⟩
      · rw [next_new_made, hnull] at hnm
        cases hnm
  have hloops : Loops (s.new x next) (.readingTail x s.made) := by
    intro n htail _
    apply hleads.next_ne_none
    obtain ⟨t, ht, hgetLast, -⟩ := h.last
    obtain rfl := Option.some.inj (ht.symm.trans htail)
    apply List.mem_of_getLast? hgetLast
  rw [perform, call, hloops.finish_eq_none hend] at hfuel
  cases hfuel

/-! ### Sequences of calls -/

/-- A call that is served returns what it should and leaves the queue with the contents it
should have. -/
theorem Stores.served (h : Stores s q first rest) (hserves : q.Serves c) :
  ∃ s' r first' rest', Returns s c s' r ∧ Right q.values c r ∧
    Stores s' (q.after c) first' rest'
  := by
  cases c with
  | enQueue x next =>
      rcases hserves with hlast | ⟨hlast, rfl⟩
      · obtain ⟨s', hreturns, hstores⟩ := h.enQueue_null x next hlast
        use s', none, first, rest ++ [s.made], hreturns, rfl
        rw [Contents.after]
        simp only [hlast, if_pos]
        apply hstores
      · obtain ⟨s', hreturns, hstores⟩ := h.enQueue_self x hlast
        use s', none, first, rest ++ [s.made], hreturns, rfl
        rw [Contents.after]
        simp only [hlast, Option.some_ne_none, if_false]
        apply hstores
  | deQueue =>
      obtain ⟨hempty, hvalue⟩ := hserves
      cases rest with
      | nil =>
          have hvalues : q.values = [] := h.values.symm
          use s, some (-1), first, [], h.deQueue_nil (hempty hvalues)
          constructor
          · use -1, rfl
            simp [hvalues]
          · have hafter : q.after .deQueue = q := by
              rw [Contents.after, stored, hvalues, List.tail_nil, ← hvalues]
            rw [hafter]
            apply h
      | cons second rest =>
          obtain ⟨s', v, hreturns, hhead, hstores⟩ := h.deQueue_cons hvalue
          use s', some v, second, rest, hreturns
          constructor
          · use v, rfl
            constructor
            · intro w hw
              apply Option.some.inj (hhead.symm.trans hw)
            · constructor
              · intro hv
                apply absurd hv (hvalue v hhead)
              · intro hnil
                rw [hnil] at hhead
                cases hhead
          · apply hstores

/-- A call that is not served does not return what it should. -/
theorem Stores.not_served (h : Stores s q first rest) (hserves : ¬ q.Serves c)
    (hreturns : Returns s c s' r) :
  ¬ Right q.values c r
  := by
  cases c with
  | enQueue x next => apply absurd hreturns (h.not_enQueue hserves)
  | deQueue =>
      rintro ⟨v, rfl, holdest, hempty⟩
      cases rest with
      | nil =>
          have hvalues : q.values = [] := h.values.symm
          have hlast : q.last ≠ none := by
            intro hnull
            apply hserves
            use fun _ => hnull
            simp [hvalues]
          obtain rfl := hempty.mpr hvalues
          apply h.not_deQueue hlast hreturns
      | cons second rest =>
          apply hserves
          have hne : q.values ≠ [] := by
            rw [← h.values]
            apply List.cons_ne_nil
          use fun hnil => absurd hnil hne
          rintro w hw rfl
          apply hne
          apply hempty.mp (holdest _ hw)

/-- The calls of a queue with these contents return what they should exactly if they are served. -/
theorem Stores.fifo_iff_steps (h : Stores s q first rest) (calls : List Call) :
  Fifo s q.values calls ↔ contents.Steps Contents.Serves q calls
  := by
  induction calls generalizing s q first rest with
  | nil => simp [Fifo, Machine.steps_nil]
  | cons c calls ih =>
      rw [Machine.steps_cons]
      constructor
      · rintro ⟨s', r, hreturns, hright, hrest⟩
        have hserves : q.Serves c := by
          by_contra hserves
          apply h.not_served hserves hreturns hright
        obtain ⟨s'', r', first', rest', hreturns', -, hstores⟩ := h.served hserves
        obtain ⟨rfl, rfl⟩ := hreturns.unique hreturns'
        use hserves
        intro q' hq'
        obtain rfl := Option.some.inj hq'
        apply (ih hstores).mp hrest
      · rintro ⟨hserves, hrest⟩
        obtain ⟨s', r, first', rest', hreturns, hright, hstores⟩ := h.served hserves
        use s', r, hreturns, hright
        apply (ih hstores).mpr (hrest _ rfl)

theorem stores_empty (val : ℤ) :
  Stores (empty Unit val) ⟨[], none, 1⟩ 0 []
  := by
  refine ⟨rfl, ⟨rfl, trivial⟩, rfl, rfl, rfl, List.nodup_singleton 0, ?_, ?_, ?_⟩
  · intro n
    constructor
    · rintro ⟨hlt, -⟩
      apply List.mem_singleton.mpr (Nat.lt_one_iff.mp hlt)
    · intro hn
      obtain rfl := List.mem_singleton.mp hn
      use Nat.one_pos, List.not_mem_nil
  · intro n hn
    cases hn
  · intro _ hlast
    apply absurd rfl hlast

/-- Take any sequence of calls of `en_queue` and `de_queue` by one thread, whatever the new nodes
hold in `next`, on a queue that is empty.  All of them return, and what a first-in, first-out queue
returns, exactly if each of them is served. -/
theorem fifo_iff (val : ℤ) (calls : List Call) :
  Fifo (empty Unit val) [] calls ↔ contents.Steps Contents.Serves ⟨[], none, 1⟩ calls
  := (stores_empty val).fifo_iff_steps calls

/-- The value -1 is added to the queue and taken; or two values are added and the first node has
a pointer to no node. -/
theorem minusOne_not_fifo :
  ¬ Fifo (empty Unit 0) [] [.enQueue (-1) none, .deQueue] ∧
    ¬ Fifo (empty Unit 0) [] [.enQueue 1 (some 7), .enQueue 2 none]
  := by
  rw [(stores_empty 0).fifo_iff_steps, (stores_empty 0).fifo_iff_steps, Machine.steps_cons,
    Machine.steps_cons]
  constructor
  · rintro ⟨-, h⟩
    have hserves := (Machine.steps_cons.mp (h _ rfl)).1
    apply hserves.2 (-1) rfl rfl
  · rintro ⟨-, h⟩
    have hserves := (Machine.steps_cons.mp (h _ rfl)).1
    rcases hserves with hnull | ⟨hself, -⟩
    · cases hnull
    · revert hself
      decide

end FreeLockQueue
