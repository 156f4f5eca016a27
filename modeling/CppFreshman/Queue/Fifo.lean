import CppFreshman.Queue.LockFree

/-!
# The lock-free queue is a queue

Whatever the threads do, the nodes linked form one chain, `head` is on it as far along as
nodes were removed and `tail` is at its end or one before it (`queueing`).  So the values
removed are the first of the values inserted, in order; an `output` that removes a node returns
the value that node was inserted with with its next step; and an `output` that finds `first->next`
null finds it when everything inserted was removed (`output_fifo`).
-/

namespace LockFreeQueue

variable {ι : Type*} {s s' : State ι} {i : ι}

/-! ### The operations on a chained queue -/

theorem view_new (s : State ι) (data : String) :
  (s.new data).view = s.view.new data none
  := LinkedQueue.ext (Function.comp_update ListNode.next s.nodes s.made ⟨data, none⟩)
    (Function.comp_update ListNode.logInfo s.nodes s.made ⟨data, none⟩) rfl rfl rfl rfl rfl

theorem view_link (s : State ι) (data : String) (cur node : ℕ) :
  (s.link data cur node).view = s.view.link data cur node
  := by
  have hvalue : (s.link data cur node).view.value = s.view.value :=
    (Function.comp_update ListNode.logInfo s.nodes cur _).trans (Function.update_eq_self cur _)
  have hnext : (s.link data cur node).view.next = (s.view.link data cur node).next :=
    Function.comp_update ListNode.next s.nodes cur _
  exact LinkedQueue.ext hnext hvalue rfl rfl rfl rfl rfl

theorem logInfo_link (s : State ι) (data : String) (cur node n : ℕ) :
  ((s.link data cur node).nodes n).logInfo = (s.nodes n).logInfo
  := congrFun (congrArg LinkedQueue.value (view_link s data cur node)) n

theorem chain_link (s : State ι) (data : String) (cur node : ℕ) :
  (s.link data cur node).chain = s.chain ++ [node]
  := by
  have hview : (s.link data cur node).chain = (s.link data cur node).view.chain := rfl
  rw [hview, view_link, LinkedQueue.chain_link]
  rfl

theorem view_swapTail (s : State ι) (cur : ℕ) (next : Option ℕ) :
  (s.swapTail cur next).view = s.view.swapTail cur next
  := by
  rw [State.swapTail]
  split
  · next heq => exact (if_pos heq).symm
  · next hne => exact (if_neg hne).symm

theorem view_remove (s : State ι) (i : ι) (next : ℕ) :
  (s.remove i next).view = s.view.advance next
  := LinkedQueue.ext rfl rfl rfl rfl rfl rfl List.length_append

/-- Building a node changes nothing on the chain. -/
theorem Chained.new (h : Chained s) (data : String) :
  Chained (s.new data)
  := by
  refine ⟨?_, h.removed⟩
  rw [view_new]
  apply h.ordered.new

/-- Linking a fresh node to the last one extends the chain. -/
theorem Chained.link {data : String} {cur node : ℕ} (h : Chained s)
    (hf : s.view.Fresh data node) (hcur : s.view.BehindTail cur) (hnull : s.next cur = none) :
  Chained (s.link data cur node)
  := by
  constructor
  · rw [view_link]
    apply h.ordered.link hf hcur hnull
  · apply h.removed.trans
    rw [State.linked, State.linked, State.link, List.map_append]
    apply List.prefix_append

/-- Moving `tail` from a node to the one that follows it keeps the chain. -/
theorem Chained.swapTail {cur next : ℕ} (h : Chained s) (hf : s.view.Follows cur next) :
  Chained (s.swapTail cur (some next))
  := by
  constructor
  · rw [view_swapTail]
    apply h.ordered.swapTail hf
  · rw [State.swapTail]
    split <;> apply h.removed

/-- The node that follows `head` is the next one to be removed. -/
theorem Chained.linked_of_head {first next : ℕ} (h : Chained s) (hhead : s.head = some first)
    (hf : s.view.Follows first next) :
  ∃ data, s.inserted[s.removed.length]? = some (next, data)
  := h.ordered.inserted_of_head hhead hf

/-- Moving `head` to the node that follows it removes the next node in order. -/
theorem Chained.remove {first next : ℕ} (h : Chained s) (hhead : s.head = some first)
    (hf : s.view.Follows first next) (i : ι) :
  Chained (s.remove i next)
  := by
  obtain ⟨data, hdata⟩ := h.linked_of_head hhead hf
  constructor
  · rw [view_remove]
    apply h.ordered.advance hhead hf
  · rw [State.remove, List.map_append]
    apply prefix_concat h.removed
    rw [List.length_map, State.linked, List.getElem?_map, hdata]
    rfl

theorem Grows.new (h : Chained s) (data : String) :
  Grows s (s.new data)
  := by
  refine ⟨?_, List.prefix_refl _⟩
  rw [view_new]
  apply LinkedQueue.Grows.new h.ordered

theorem Grows.link (s : State ι) (data : String) (cur node : ℕ) :
  Grows s (s.link data cur node)
  := by
  refine ⟨?_, List.prefix_refl _⟩
  rw [view_link]
  apply LinkedQueue.Grows.link

theorem Grows.swapTail {cur next : ℕ} (h : Chained s) (hf : s.view.Follows cur next) :
  Grows s (s.swapTail cur (some next))
  := by
  constructor
  · rw [view_swapTail]
    apply LinkedQueue.Grows.swapTail h.ordered hf
  · rw [State.swapTail]
    split <;> apply List.prefix_refl

theorem Grows.remove (s : State ι) (i : ι) (next : ℕ) :
  Grows s (s.remove i next)
  := by
  refine ⟨?_, List.prefix_append _ _⟩
  rw [view_remove]
  apply LinkedQueue.Grows.advance

/-- The thread that has removed a node took it in its turn. -/
theorem took_remove {next : ℕ} {data : String}
    (h : s.inserted[s.removed.length]? = some (next, data)) (i : ι) :
  Took (s.remove i next) i next data
  := by
  use s.removed.length
  constructor
  · simp [State.remove]
  · apply h

/-- What was taken is what the node holds. -/
theorem Chained.logInfo_of_took (h : Chained s) {n : ℕ} {data : String} (ht : Took s i n data) :
  (s.nodes n).logInfo = data
  := by
  obtain ⟨k, -, hk⟩ := ht
  apply h.ordered.value n data (List.mem_of_getElem? hk)

/-! ### The steps of a thread -/

/-- What a step of the thread `i` does: it keeps the chain, knows what it may rely on next, only
lets the queue grow, and touches no fresh node but its own. -/
structure Turn (i : ι) (s s' : State ι) (l l' : Pc) : Prop where
  chained : Chained s'
  knows : l'.Knows i s'
  grows : Grows s s'
  fresh : ∀ data n, l.building ≠ some n → s.view.Fresh data n → s'.view.Fresh data n
  building : ∀ n, l'.building = some n → l.building = some n ∨ n = s.made

/-- A step that only reads. -/
theorem Turn.read {l l' : Pc} (h : Chained s) (hk : l'.Knows i s)
    (hb : ∀ n, l'.building = some n → l.building = some n) :
  Turn i s s l l'
  := ⟨h, hk, Grows.refl s, fun _ _ _ => id, fun n hn => Or.inl (hb n hn)⟩

theorem call_turn {a : Call} {l : Pc} (h : Chained s) :
  Turn i s (call s a).1 l (call s a).2
  := by
  cases a with
  | input data =>
      constructor
      · apply h.new
      · change (s.new data).view.Fresh data s.made
        rw [view_new]
        apply LinkedQueue.fresh_new h.ordered
      · apply Grows.new h
      · intro data' n _ hf
        change (s.new data).view.Fresh data' n
        rw [view_new]
        apply hf.new
      · intro n hn
        right
        apply (Option.some.inj hn).symm
  | output =>
      apply Turn.read h
      · trivial
      · intro n hn
        cases hn

/-- A step that moves `tail` to the node that follows. -/
theorem Turn.swapTail {l l' : Pc} {cur next : ℕ} (h : Chained s) (hf : s.view.Follows cur next)
    (hk : l'.Knows i (s.swapTail cur (some next)))
    (hb : ∀ n, l'.building = some n → l.building = some n) :
  Turn i s (s.swapTail cur (some next)) l l'
  := by
  constructor
  · apply h.swapTail hf
  · apply hk
  · apply Grows.swapTail h hf
  · intro data n _ hfresh
    rw [view_swapTail]
    apply hfresh.swapTail
  · intro n hn
    exact Or.inl (hb n hn)

/-- The swap of `cur->next` in `input(data)`. -/
theorem linking_turn {data : String} {node cur : ℕ} (h : Chained s)
    (hk : (Pc.linking data node cur).Knows i s) :
  ∀ {r : State ι × Pc},
    (if (s.nodes cur).next = none then (s.link data cur node, Pc.swinging node cur)
      else (s, .readingTail data node)) = r →
    Turn i s r.1 (.linking data node cur) r.2
  := by
  obtain ⟨hfresh, hcur⟩ := hk
  rintro r rfl
  split
  · next hnull =>
      constructor
      · apply h.link hfresh hcur hnull
      · change (s.link data cur node).view.Follows cur node
        rw [view_link]
        apply LinkedQueue.follows_link h.ordered hcur.mem hnull
      · apply Grows.link
      · intro data' n hn hf
        rw [view_link]
        apply hf.link hcur.mem
        rintro rfl
        apply hn rfl
      · intro n hn
        cases hn
  · apply Turn.read h
    · apply hfresh
    · intro n hn
      apply hn

/-- The swap of `head` in `output`. -/
theorem removing_turn {first next : ℕ} (h : Chained s)
    (hk : (Pc.removing first next).Knows i s) :
  ∀ {r : State ι × Pc},
    (if s.head = some first then (s.remove i next, Pc.copying next) else (s, .readingHead)) = r →
    Turn i s r.1 (.removing first next) r.2
  := by
  rintro r rfl
  split
  · next hhead =>
      obtain ⟨data, hdata⟩ := h.linked_of_head hhead hk
      constructor
      · apply h.remove hhead hk
      · use data
        apply took_remove hdata
      · apply Grows.remove
      · intro data n _ hf
        rw [view_remove]
        apply hf.advance
      · intro n hn
        cases hn
  · apply Turn.read h
    · trivial
    · intro n hn
      cases hn

theorem step_turn {a : Call} {l l' : Pc} (h : Chained s) (hk : l.Knows i s)
    (hstep : (threads ι).step i a s l = some (s', l')) :
  Turn i s s' l l'
  := by
  cases l with
  | idle =>
      obtain ⟨rfl, rfl⟩ := Prod.mk.inj (Option.some.inj hstep)
      apply call_turn h
  | answered node result =>
      obtain ⟨rfl, rfl⟩ := Prod.mk.inj (Option.some.inj hstep)
      apply call_turn h
  | readingTail data node =>
      obtain ⟨rfl, rfl⟩ := Prod.mk.inj (Option.some.inj hstep)
      apply Turn.read h
      · exact ⟨hk, h.ordered.behindTail⟩
      · intro n hn
        apply hn
  | readingNext data node cur =>
      obtain ⟨hfresh, c, rfl, hb⟩ := hk
      obtain ⟨rfl, rfl⟩ := Prod.mk.inj (Option.some.inj hstep)
      apply Turn.read h
      · split
        · exact ⟨hfresh, hb⟩
        · next hne => exact ⟨hfresh, hb, hne⟩
      · intro n hn
        split at hn <;> apply hn
  | linking data node cur => apply linking_turn h hk (Option.some.inj hstep)
  | rereading data node cur =>
      obtain ⟨hfresh, hb, hne⟩ := hk
      obtain ⟨rfl, rfl⟩ := Prod.mk.inj (Option.some.inj hstep)
      obtain ⟨n, hn⟩ := Option.ne_none_iff_exists'.mp hne
      apply Turn.read h
      · exact ⟨hfresh, n, hn, h.ordered.follows hb.mem hn⟩
      · intro n hn
        apply hn
  | helping data node cur next =>
      obtain ⟨hfresh, n, rfl, hf⟩ := hk
      obtain ⟨rfl, rfl⟩ := Prod.mk.inj (Option.some.inj hstep)
      apply Turn.swapTail h hf
      · change (s.swapTail cur (some n)).view.Fresh data node
        rw [view_swapTail]
        apply hfresh.swapTail
      · intro n hn
        apply hn
  | swinging node cur =>
      obtain ⟨rfl, rfl⟩ := Prod.mk.inj (Option.some.inj hstep)
      apply Turn.swapTail h hk
      · trivial
      · intro n hn
        cases hn
  | readingHead =>
      obtain ⟨rfl, rfl⟩ := Prod.mk.inj (Option.some.inj hstep)
      have hf := List.getElem?_eq_getElem h.length_removed
      apply Turn.read h
      · exact ⟨s.removed.length, _, Nat.le_refl _, h.head.trans hf, hf⟩
      · intro n hn
        cases hn
  | readingFirst first =>
      obtain ⟨k, f, hk, rfl, hf⟩ := hk
      obtain ⟨rfl, rfl⟩ := Prod.mk.inj (Option.some.inj hstep)
      apply Turn.read h
      · split
        · intro n hn
          cases hn
        · next n hn => apply h.ordered.follows (List.mem_of_getElem? hf) hn
      · intro n hn
        split at hn <;> cases hn
  | removing first next => apply removing_turn h hk (Option.some.inj hstep)
  | copying next =>
      obtain ⟨data, ht⟩ := hk
      obtain ⟨rfl, rfl⟩ := Prod.mk.inj (Option.some.inj hstep)
      apply Turn.read h
      · intro n hn
        obtain rfl := Option.some.inj hn
        rw [h.logInfo_of_took ht]
        apply ht
      · intro n hn
        cases hn
  | crashed => cases hk

/-! ### What a step does -/

/-- The swap of `tail` changes nothing else. -/
theorem swapTail_eq (s : State ι) (cur : ℕ) (next : Option ℕ) :
  ∃ tail, s.swapTail cur next = { s with tail := tail }
  := by
  rw [State.swapTail]
  split
  · use next
  · use s.tail

/-- The thread is between two calls. -/
def Pc.returned : Pc → Bool
  | .idle => true
  | .answered _ _ => true
  | _ => false

/-- What a step does to the queue: it only reads, or builds the node of an `input` that starts,
or tries to swap `tail`, or links the node built, or removes the node behind `head`. -/
inductive Moves (i : ι) (a : Call) (s : State ι) (l : Pc) : State ι → Pc → Prop
  | read {l' : Pc} (building : l'.building = l.building)
      (starts : ∀ data, l.returned = true → a ≠ .input data) : Moves i a s l s l'
  | new {data : String} (starts : l.returned = true) (h : a = .input data) :
      Moves i a s l (s.new data) (.readingTail data s.made)
  | swap {l' : Pc} {cur : ℕ} {next : Option ℕ} (building : l'.building = l.building)
      (starts : l.returned = false) : Moves i a s l (s.swapTail cur next) l'
  | link {data : String} {cur node : ℕ} (h : l = .linking data node cur)
      (null : s.next cur = none) : Moves i a s l (s.link data cur node) (.swinging node cur)
  | remove {first next : ℕ} (h : l = .removing first next) (head : s.head = some first) :
      Moves i a s l (s.remove i next) (.copying next)

theorem call_moves {a : Call} {l : Pc} (h : l.returned = true) :
  Moves i a s l (call s a).1 (call s a).2
  := by
  have hbuilding : l.building = none := by
    cases l with
    | idle => rfl
    | answered node result => rfl
    | _ => cases h
  cases a with
  | input data => apply Moves.new h rfl
  | output =>
      apply Moves.read
      · rw [hbuilding]
        rfl
      · nofun

/-- A step that only reads. -/
theorem Moves.of_eq {a : Call} {l l' : Pc} {r : State ι × Pc} (h : (s, l') = r)
    (building : l'.building = l.building) (starts : l.returned = false) :
  Moves i a s l r.1 r.2
  := by
  subst h
  apply Moves.read building
  intro data hl
  cases hl.symm.trans starts

theorem step_moves {a : Call} {l l' : Pc} (hk : l.Knows i s)
    (h : (threads ι).step i a s l = some (s', l')) :
  Moves i a s l s' l'
  := by
  cases l with
  | idle =>
      obtain ⟨rfl, rfl⟩ := Prod.mk.inj (Option.some.inj h)
      apply call_moves rfl
  | answered node result =>
      obtain ⟨rfl, rfl⟩ := Prod.mk.inj (Option.some.inj h)
      apply call_moves rfl
  | readingTail data node => apply Moves.of_eq (Option.some.inj h) (by rfl) rfl
  | readingNext data node cur =>
      obtain ⟨-, cur, rfl, -⟩ := hk
      apply Moves.of_eq (Option.some.inj h) _ rfl
      split <;> rfl
  | linking data node cur =>
      have hstep := Option.some.inj h
      split at hstep
      · next hnull =>
          obtain ⟨rfl, rfl⟩ := Prod.mk.inj hstep
          apply Moves.link rfl hnull
      · apply Moves.of_eq hstep (by rfl) rfl
  | rereading data node cur => apply Moves.of_eq (Option.some.inj h) (by rfl) rfl
  | helping data node cur next =>
      obtain ⟨rfl, rfl⟩ := Prod.mk.inj (Option.some.inj h)
      apply Moves.swap (by rfl) rfl
  | swinging node cur =>
      obtain ⟨rfl, rfl⟩ := Prod.mk.inj (Option.some.inj h)
      apply Moves.swap (by rfl) rfl
  | readingHead => apply Moves.of_eq (Option.some.inj h) (by rfl) rfl
  | readingFirst first =>
      cases first with
      | none => apply Moves.of_eq (Option.some.inj h) (by rfl) rfl
      | some first =>
          apply Moves.of_eq (Option.some.inj h) _ rfl
          split <;> rfl
  | removing first next =>
      have hstep := Option.some.inj h
      split at hstep
      · next hhead =>
          obtain ⟨rfl, rfl⟩ := Prod.mk.inj hstep
          apply Moves.remove rfl hhead
      · apply Moves.of_eq hstep (by rfl) rfl
  | copying next => apply Moves.of_eq (Option.some.inj h) (by rfl) rfl
  | crashed => cases h

/-- A step that moves `head` or adds to the nodes removed is the successful swap of `head`. -/
theorem Moves.removes {a : Call} {l l' : Pc} (h : Moves i a s l s' l')
    (hne : s'.head ≠ s.head ∨ s'.removed ≠ s.removed) :
  ∃ first next, s.head = some first ∧ l = .removing first next ∧ s' = s.remove i next ∧
    l' = .copying next
  := by
  cases h with
  | @swap _ cur next _ _ =>
      obtain ⟨tail, htail⟩ := swapTail_eq s cur next
      rw [htail] at hne
      simp at hne
  | @remove first next hl hhead => exact ⟨first, next, hhead, hl, rfl, rfl⟩
  | _ => simp [State.new, State.link] at hne

/-- What a thread that has removed a node returns. -/
theorem step_copying {a : Call} {next : ℕ} {l' : Pc}
    (h : (threads ι).step i a s (.copying next) = some (s', l')) :
  l' = .answered (some next) (s.nodes next).logInfo
  := (Prod.mk.inj (Option.some.inj h)).2.symm

/-- `output` returns without having removed a node only where the pointer behind `head` was
null. -/
theorem step_answered {a : Call} {l : Pc} {r : String}
    (h : (threads ι).step i a s l = some (s', .answered none r)) :
  ∃ first, l = .readingFirst (some first) ∧ (s.nodes first).next = none ∧ r = ""
  := by
  cases l with
  | idle => cases a <;> cases h
  | answered node result => cases a <;> cases h
  | readingNext data node cur =>
      cases cur with
      | none => cases h
      | some cur =>
          have hr := (Prod.mk.inj (Option.some.inj h)).2
          split at hr <;> cases hr
  | linking data node cur =>
      have hr := Option.some.inj h
      split at hr <;> cases hr
  | readingFirst first =>
      cases first with
      | none => cases h
      | some first =>
          have hr := (Prod.mk.inj (Option.some.inj h)).2
          split at hr
          · next hnull => exact ⟨first, rfl, hnull, (Pc.answered.inj hr).2.symm⟩
          · cases hr
  | removing first next =>
      have hr := Option.some.inj h
      split at hr <;> cases hr
  | _ => cases h

/-! ### The proof outline -/

/-- The node a thread builds exists. -/
theorem Pc.Knows.building_lt {l : Pc} (h : l.Knows i s) {n : ℕ} (hn : l.building = some n) :
  n < s.made
  := by
  cases l with
  | readingTail data node =>
      obtain rfl := Option.some.inj hn
      apply LinkedQueue.Fresh.made h
  | readingNext data node cur =>
      obtain rfl := Option.some.inj hn
      apply h.1.made
  | linking data node cur =>
      obtain rfl := Option.some.inj hn
      apply h.1.made
  | rereading data node cur =>
      obtain rfl := Option.some.inj hn
      apply h.1.made
  | helping data node cur next =>
      obtain rfl := Option.some.inj hn
      apply h.1.made
  | _ => cases hn

/-- The outline of the threads that use the queue: no two build the same node. -/
def queueing (ι : Type*) : Threads.Outline (threads ι) where
  shared := Chained
  own i s l := l.Knows i s
  apart l k := ∀ n, l.building = some n → k.building ≠ some n
  symm := by
    intro l k h n hk hl
    apply h n hl hk
  step := by
    intro i a s l s' l' hs hl hstep
    have ht := step_turn hs hl hstep
    use ht.chained
    apply ht.knows
  free := by
    intro i a s l s' l' j k hs hl hstep _ hk hapart
    have ht := step_turn hs hl hstep
    constructor
    · apply hk.grows ht.grows
      intro data n hn hf
      apply ht.fresh data n _ hf
      intro hl
      apply hapart n hl hn
    · intro n hn hkn
      rcases ht.building n hn with hl | rfl
      · apply hapart n hl hkn
      · apply Nat.lt_irrefl s.made (hk.building_lt hkn)

theorem queueing_start (ι : Type*) :
  (queueing ι).Holds (start ι)
  := by
  constructor
  · exact ⟨LinkedQueue.ordered_empty "", List.prefix_refl _⟩
  · intro i
    trivial
  · intro i j _ n hn
    cases hn

/-! ### First in, first out -/

/-- The queue is first in, first out: the nodes removed are the first ones inserted, each removed
once; what they hold is what was inserted, in order; an `output` that has removed a node returns
what that node was inserted with; where an `output` is about to find `first->next` null, all
that was inserted has been removed; and no thread reads through a null pointer. -/
structure Fifo (c : Threads.Config ι (State ι) Pc) : Prop where
  nodes : c.shared.removed.map Prod.snd <+: c.shared.inserted.map Prod.fst
  once : (c.shared.removed.map Prod.snd).Nodup
  values : (c.shared.removed.map fun r => (c.shared.nodes r.2).logInfo) <+:
    c.shared.inserted.map Prod.snd
  answer : ∀ i n result, c.locals i = .answered (some n) result → Took c.shared i n result
  empty : ∀ i first, c.locals i = .readingFirst (some first) →
    (c.shared.nodes first).next = none → c.shared.removed.length = c.shared.inserted.length
  safe : ∀ i, c.locals i ≠ .crashed

/-- The values of the nodes linked are those inserted. -/
theorem Chained.map_logInfo (h : Chained s) :
  s.linked.map (fun n => (s.nodes n).logInfo) = s.inserted.map Prod.snd
  := by
  rw [State.linked, List.map_map]
  apply List.map_congr_left
  rintro ⟨n, data⟩ hn
  apply h.ordered.value n data hn

variable [DecidableEq ι] {c : Threads.Config ι (State ι) Pc} {es : List (ι × Call)}

/-- What the calls of `output` in the run of `es` come to: `head` is moved only together with the
removal of a node; the thread that removes a node removes the first one that was not removed yet,
and with its next step it returns that node with the data it was inserted with; and a call that
returns without having removed a node returns the empty string, with a step that is taken where all
that was inserted has been removed. -/
structure Answers (es : List (ι × Call)) : Prop where
  head : ∀ {fs e c d}, (threads ι).machine.Takes (start ι) es fs e c d →
    d.shared.head ≠ c.shared.head → ∃ n, d.shared.removed = c.shared.removed ++ [(e.1, n)]
  value : ∀ {fs e c d r gs e' c' d'}, (threads ι).machine.Takes (start ι) es fs e c d →
    d.shared.removed = c.shared.removed ++ [r] →
    (threads ι).machine.Takes (start ι) es (fs ++ e :: gs) e' c' d' → e'.1 = e.1 →
    (∀ g, g ∈ gs → g.1 ≠ e.1) →
    r.1 = e.1 ∧ ∃ data, c.shared.inserted[c.shared.removed.length]? = some (r.2, data) ∧
      d'.locals e.1 = .answered (some r.2) data
  empty : ∀ {fs e c d result}, (threads ι).machine.Takes (start ι) es fs e c d →
    d.locals e.1 = .answered none result →
    result = "" ∧ c.shared.removed.length = c.shared.inserted.length

theorem fifo_of_run (h : (threads ι).machine.run (start ι) es = some c) :
  Fifo c
  := by
  have hO := (queueing ι).holds_of_run h (queueing_start ι)
  have hs : Chained c.shared := hO.shared
  have hown : ∀ {i l}, c.locals i = l → l.Knows i c.shared := by
    rintro i l rfl
    apply hO.own i
  constructor
  · apply hs.removed
  · apply List.Nodup.sublist hs.removed.sublist
    apply (List.nodup_cons.mp hs.ordered.nodup).2
  · rw [← hs.map_logInfo]
    have hpre := hs.removed.map fun n => (c.shared.nodes n).logInfo
    rw [List.map_map] at hpre
    apply hpre
  · intro i n result hl
    apply hown hl n rfl
  · intro i first hl hnull
    obtain ⟨k, f, hk, hf, hc⟩ := hown hl
    obtain rfl := Option.some.inj hf
    apply hs.ordered.taken_of_null hk hc hnull
  · intro i hl
    apply hown hl

/-- The queue grows along a run. -/
theorem grows_of_run {c' : Threads.Config ι (State ι) Pc} (hO : (queueing ι).Holds c)
    (h : (threads ι).machine.run c es = some c') :
  Grows c.shared c'.shared
  := by
  induction es generalizing c with
  | nil =>
      obtain rfl := Option.some.inj h
      apply Grows.refl
  | cons e es ih =>
      obtain ⟨d, hstep, h⟩ := Option.bind_eq_some_iff.mp h
      have hO' := (queueing ι).holds_step hO hstep
      obtain ⟨s, l, hl, rfl⟩ := (threads ι).machine_step_eq_some.mp hstep
      apply (step_turn hO.shared (hO.own e.1) hl).grows.trans (ih hO' h)

theorem answers_head {fs : List (ι × Call)} {e : ι × Call}
    {d : Threads.Config ι (State ι) Pc}
    (h : (threads ι).machine.Takes (start ι) es fs e c d)
    (hne : d.shared.head ≠ c.shared.head) :
  ∃ n, d.shared.removed = c.shared.removed ++ [(e.1, n)]
  := by
  have hO := (queueing ι).holds_of_run h.run (queueing_start ι)
  obtain ⟨s, l, hl, rfl⟩ := (threads ι).machine_step_eq_some.mp h.step
  obtain ⟨first, next, -, -, rfl, -⟩ := (step_moves (hO.own e.1) hl).removes (Or.inl hne)
  use next
  rfl

/-- The thread that removes a node returns it with its next step. -/
theorem answers_value {fs gs : List (ι × Call)} {e e' : ι × Call} {r : ι × ℕ}
    {d c' d' : Threads.Config ι (State ι) Pc}
    (h : (threads ι).machine.Takes (start ι) es fs e c d)
    (hr : d.shared.removed = c.shared.removed ++ [r])
    (h' : (threads ι).machine.Takes (start ι) es (fs ++ e :: gs) e' c' d') (he : e'.1 = e.1)
    (hgs : ∀ g, g ∈ gs → g.1 ≠ e.1) :
  r.1 = e.1 ∧ ∃ data, c.shared.inserted[c.shared.removed.length]? = some (r.2, data) ∧
    d'.locals e.1 = .answered (some r.2) data
  := by
  have hO := (queueing ι).holds_of_run h.run (queueing_start ι)
  have hO' := (queueing ι).holds_step hO h.step
  have hbetween := h.between h'
  obtain ⟨s, l, hl, rfl⟩ := (threads ι).machine_step_eq_some.mp h.step
  have hne : s.removed ≠ c.shared.removed := by
    intro heq
    rw [Threads.Config.set_shared, heq] at hr
    simp at hr
  obtain ⟨first, next, hhead, hlocal, rfl, rfl⟩ :=
    (step_moves (hO.own e.1) hl).removes (Or.inr hne)
  obtain rfl : r = (e.1, next) := by
    simpa [State.remove] using hr.symm
  have hknows := hO.own e.1
  rw [hlocal] at hknows
  obtain ⟨data, hn⟩ := Chained.linked_of_head hO.shared hhead hknows
  refine ⟨rfl, data, hn, ?_⟩
  -- The thread has not moved until its next step, and the node holds what it was inserted with.
  have hstay := Threads.locals_of_run hbetween hgs
  rw [Threads.Config.set_locals_self] at hstay
  have hgrows := grows_of_run hO' hbetween
  have hO'' := (queueing ι).holds_of_run hbetween hO'
  have hs : Chained c'.shared := hO''.shared
  have hdata : (c'.shared.nodes next).logInfo = data := by
    apply hs.ordered.value next data
    apply hgrows.view.inserted.subset (List.mem_of_getElem? hn)
  obtain ⟨s', l', hl', rfl⟩ := (threads ι).machine_step_eq_some.mp h'.step
  rw [he, hstay] at hl'
  rw [he, Threads.Config.set_locals_self, step_copying hl', hdata]

/-- A call that returns without having removed a node finds the queue empty. -/
theorem answers_empty {fs : List (ι × Call)} {e : ι × Call} {result : String}
    {d : Threads.Config ι (State ι) Pc}
    (h : (threads ι).machine.Takes (start ι) es fs e c d)
    (hl : d.locals e.1 = .answered none result) :
  result = "" ∧ c.shared.removed.length = c.shared.inserted.length
  := by
  have hO := (queueing ι).holds_of_run h.run (queueing_start ι)
  obtain ⟨s, l, hstep, rfl⟩ := (threads ι).machine_step_eq_some.mp h.step
  rw [Threads.Config.set_locals_self] at hl
  subst hl
  obtain ⟨first, hfirst, hnull, rfl⟩ := step_answered hstep
  have hknows := hO.own e.1
  rw [hfirst] at hknows
  obtain ⟨k, f, hk, hf, hc⟩ := hknows
  obtain rfl := Option.some.inj hf
  have hs : Chained c.shared := hO.shared
  use rfl
  apply hs.ordered.taken_of_null hk hc hnull

/-- Take any number of threads with any calls of `input` and `output` and any interleaving of
their steps.  The queue is first in, first out, and the calls of `output` return what they have
removed. -/
theorem output_fifo (h : (threads ι).machine.run (start ι) es = some c) :
  Fifo c ∧ Answers es
  := ⟨fifo_of_run h, answers_head, answers_value, answers_empty⟩

/-- A thread inserts a value; before it moves `tail`, another one removes the value. -/
def overtaking : List (ℕ × Call) :=
  List.replicate 4 (0, .input "datata--1") ++ List.replicate 5 (1, .output) ++
    [(0, .input "datata--1")]

/-- What holds after that run. -/
theorem output_fifo_overtaking :
  ∃ c, (threads ℕ).machine.run (start ℕ) overtaking = some c ∧ c.shared.removed = [(1, 1)] ∧
    c.locals 1 = .answered (some 1) "datata--1" ∧ Fifo c ∧ Answers overtaking
  := by
  have hrun : ((threads ℕ).machine.run (start ℕ) overtaking).any
      (fun c => c.shared.removed == [(1, 1)] &&
        c.locals 1 == .answered (some 1) "datata--1") = true := by
    decide +kernel
  obtain ⟨c, hc, htest⟩ := (Option.any_eq_true _ _).mp hrun
  rw [Bool.and_eq_true, beq_iff_eq, beq_iff_eq] at htest
  obtain ⟨hremoved, hanswer⟩ := htest
  refine ⟨c, hc, hremoved, hanswer, ?_⟩
  apply output_fifo hc

end LockFreeQueue
