import CppFreshman.Queue.Progress
import Mathlib.Data.List.TakeWhile

/-!
# Draining the lock-free queue

`output` returns the empty string where the queue is empty, and also where it removes a node
that holds the empty string.  So a consumer that calls `output` until it returns the empty
string gets the values inserted, all of them and in order, exactly if none of them is the empty
string (`drain_iff`).
-/

namespace LockFreeQueue

variable {ι : Type*} {s s' s'' : State ι} {i : ι}

/-- Everything inserted has been removed. -/
def Empty (s : State ι) : Prop :=
  s.removed.length = s.inserted.length

/-- The values inserted and not removed, in the order they were linked. -/
def State.left (s : State ι) : List String :=
  (s.inserted.drop s.removed.length).map Prod.snd

/-- The value a step starts an `input` with. -/
def starts (l : Pc) : Call → List String
  | .input data => if l.returned then [data] else []
  | .output => []

theorem starts_of_not_returned {l : Pc} (h : l.returned = false) (a : Call) :
  starts l a = []
  := by
  cases a with
  | input data => simp [starts, h]
  | output => rfl

/-- The nodes are built by the calls of `input`, in order, and each one is on the chain or its
call goes on. -/
structure Issued (values : List String) (c : Threads.Config ι (State ι) Pc) : Prop where
  made : c.shared.made = values.length + 1
  value : ∀ k data, values[k]? = some data → (c.shared.nodes (k + 1)).logInfo = data
  placed : ∀ n, n < c.shared.made → n ∈ c.shared.chain ∨ ∃ i, (c.locals i).building = some n

theorem Pc.building_of_returned {l : Pc} (h : l.returned = true) :
  l.building = none
  := by
  cases l with
  | idle => rfl
  | answered node result => rfl
  | _ => cases h

/-- What is inserted was issued. -/
theorem Issued.mem {values : List String} (h : Issued values c) (hs : Chained c.shared) {n : ℕ}
    {data : String} (hn : (n, data) ∈ c.shared.inserted) :
  data ∈ values
  := by
  have hlinked : n ∈ c.shared.linked := List.mem_map_of_mem hn
  have hlt : n < c.shared.made := hs.ordered.made n (List.mem_cons_of_mem 0 hlinked)
  have hpos : n ≠ 0 := by
    rintro rfl
    apply (List.nodup_cons.mp hs.ordered.nodup).1 hlinked
  obtain ⟨k, rfl⟩ := Nat.exists_eq_succ_of_ne_zero hpos
  rw [h.made] at hlt
  have hk := List.getElem?_eq_getElem (Nat.lt_of_succ_lt_succ hlt)
  have hvalue := h.value k _ hk
  have hdata : (c.shared.nodes (k + 1)).logInfo = data := hs.ordered.value (k + 1) data hn
  rw [hdata] at hvalue
  rw [hvalue]
  apply List.mem_of_getElem? hk

/-- If no call goes on, what was issued is inserted. -/
theorem Issued.perm {values : List String} (h : Issued values c) (hs : Chained c.shared)
    (hreturned : ∀ i, (c.locals i).returned = true) :
  (c.shared.inserted.map Prod.snd).Perm values
  := by
  have hchain : c.shared.chain.Perm (List.range (values.length + 1)) := by
    apply (List.perm_ext_iff_of_nodup hs.ordered.nodup List.nodup_range).mpr
    intro n
    rw [List.mem_range, ← h.made]
    constructor
    · apply hs.ordered.made n
    · intro hn
      obtain hmem | ⟨i, hi⟩ := h.placed n hn
      · apply hmem
      · rw [Pc.building_of_returned (hreturned i)] at hi
        cases hi
  rw [State.chain, List.range_succ_eq_map, List.perm_cons] at hchain
  have hvalues : ((List.range values.length).map Nat.succ).map
      (fun n => (c.shared.nodes n).logInfo) = values := by
    apply List.ext_getElem
    · simp
    · intro k _ hk
      rw [List.getElem_map, List.getElem_map, List.getElem_range]
      apply h.value k
      apply List.getElem?_eq_getElem hk
  rw [← hs.map_logInfo, ← hvalues]
  apply hchain.map

/-- The thread is not in `output`. -/
def Pc.inputs : Pc → Bool
  | .idle => true
  | .readingTail _ _ => true
  | .readingNext _ _ _ => true
  | .linking _ _ _ => true
  | .rereading _ _ _ => true
  | .helping _ _ _ _ => true
  | .swinging _ _ => true
  | _ => false

theorem step_inputs {a : Call} {l l' : Pc} (h : l.inputs = true) (ha : a ≠ .output)
    (hk : l.Knows i s) (hstep : (threads ι).step i a s l = some (s', l')) :
  l'.inputs = true ∧ s'.removed = s.removed
  := by
  cases l with
  | idle =>
      obtain ⟨rfl, rfl⟩ := Prod.mk.inj (Option.some.inj hstep)
      cases a with
      | input data => exact ⟨rfl, rfl⟩
      | output => apply absurd rfl ha
  | readingTail data node =>
      obtain ⟨rfl, rfl⟩ := Prod.mk.inj (Option.some.inj hstep)
      exact ⟨rfl, rfl⟩
  | readingNext data node cur =>
      obtain ⟨-, cur, rfl, -⟩ := hk
      obtain ⟨rfl, rfl⟩ := Prod.mk.inj (Option.some.inj hstep)
      constructor
      · split <;> rfl
      · rfl
  | linking data node cur =>
      have hr := Option.some.inj hstep
      split at hr
      · obtain ⟨rfl, rfl⟩ := Prod.mk.inj hr
        exact ⟨rfl, rfl⟩
      · obtain ⟨rfl, rfl⟩ := Prod.mk.inj hr
        exact ⟨rfl, rfl⟩
  | rereading data node cur =>
      obtain ⟨rfl, rfl⟩ := Prod.mk.inj (Option.some.inj hstep)
      exact ⟨rfl, rfl⟩
  | helping data node cur next =>
      obtain ⟨rfl, rfl⟩ := Prod.mk.inj (Option.some.inj hstep)
      obtain ⟨tail, htail⟩ := swapTail_eq s cur next
      rw [htail]
      exact ⟨rfl, rfl⟩
  | swinging node cur =>
      obtain ⟨rfl, rfl⟩ := Prod.mk.inj (Option.some.inj hstep)
      obtain ⟨tail, htail⟩ := swapTail_eq s cur (some node)
      rw [htail]
      exact ⟨rfl, rfl⟩
  | _ => cases h

section Calls

variable [DecidableEq ι]

/-- The values that the calls of `input` in a run are started with. -/
def issued (c : Threads.Config ι (State ι) Pc) : List (ι × Call) → List String
  | [] => []
  | e :: es =>
      starts (c.locals e.1) e.2 ++
        match (threads ι).machine.step c e with
        | none => []
        | some c' => issued c' es

/-- The thread `i` alone calls `output`, which returns `result`. -/
def Outputs (i : ι) (c : Threads.Config ι (State ι) Pc) (result : String)
    (c' : Threads.Config ι (State ι) Pc) : Prop :=
  ∃ d k s' node, (threads ι).machine.step c (i, .output) = some d ∧
    Alone i d.shared (d.locals i) k s' (.answered node result) ∧
    c' = d.set i s' (.answered node result)

/-- The thread `i` alone calls `output` again and again until it returns the empty string;
`values` is what it returned before. -/
inductive Drains (i : ι) :
    Threads.Config ι (State ι) Pc → List String → Threads.Config ι (State ι) Pc → Prop
  | stop {c c' : Threads.Config ι (State ι) Pc} (h : Outputs i c "" c') : Drains i c [] c'
  | more {c c' c'' : Threads.Config ι (State ι) Pc} {value : String} {values : List String}
      (h : Outputs i c value c') (hne : value ≠ "") (rest : Drains i c' values c'') :
      Drains i c (value :: values) c''

variable {c c' c'' : Threads.Config ι (State ι) Pc} {es : List (ι × Call)}

/-! ### One call of the consumer -/

theorem Outputs.unique {r r' : String} (h : Outputs i c r c') (h' : Outputs i c r' c'') :
  r = r' ∧ c' = c''
  := by
  obtain ⟨d, k, s', node, hd, halone, rfl⟩ := h
  obtain ⟨d', k', t, node', hd', halone', rfl⟩ := h'
  obtain rfl := Option.some.inj (hd.symm.trans hd')
  obtain ⟨-, rfl, heq⟩ := halone.unique halone'
  obtain ⟨rfl, rfl⟩ := Pc.answered.inj heq
  exact ⟨rfl, rfl⟩

theorem Drains.unique {values values' : List String} (h : Drains i c values c')
    (h' : Drains i c values' c'') :
  values = values'
  := by
  induction h generalizing values' with
  | stop hout =>
      cases h' with
      | stop _ => rfl
      | more hout' hne _ => apply absurd (hout'.unique hout).1 hne
  | more hout hne _ ih =>
      cases h' with
      | stop hout' => apply absurd (hout.unique hout').1 hne
      | more hout' _ rest' =>
          obtain ⟨rfl, rfl⟩ := hout.unique hout'
          rw [ih rest']

theorem outputs_of_alone {k : ℕ} {node : Option ℕ} {r : String}
    (hl : (c.locals i).returned = true)
    (h : Alone i c.shared .readingHead k s' (.answered node r)) :
  Outputs i c r (c.set i s' (.answered node r))
  := by
  use c.set i c.shared .readingHead, k, s', node, step_call hl .output
  rw [Threads.Config.set_locals_self]
  use h
  rw [Threads.Config.set_set]

/-! ### The drain -/

/-- Where everything was removed `output` finds nothing. -/
theorem Chained.outputs_empty (h : Chained c.shared) (hl : (c.locals i).returned = true)
    (hempty : c.shared.left = []) :
  ∃ c', Outputs i c "" c'
  := by
  obtain ⟨first, hhead, hnull⟩ := h.ordered.null_of_left hempty
  exact ⟨_, outputs_of_alone hl (alone_empty hhead hnull)⟩

/-- Else it removes the next node in order and returns its value. -/
theorem Chained.outputs_cons (h : Chained c.shared) (hl : (c.locals i).returned = true)
    {value : String} {values : List String} (hleft : c.shared.left = value :: values) :
  ∃ c', Outputs i c value c' ∧ Chained c'.shared ∧ (c'.locals i).returned = true ∧
    c'.shared.left = values
  := by
  obtain ⟨first, node, hhead, hf, hvalue, hvalues⟩ := h.ordered.follows_of_left hleft
  have hnext := h.ordered.next_of_follows hf
  have hout := outputs_of_alone hl (alone_removing hhead hnext)
  have hdata : (c.shared.nodes node).logInfo = value := hvalue
  rw [hdata] at hout
  refine ⟨_, hout, h.remove hhead hf i, ?_, ?_⟩
  · rw [Threads.Config.set_locals_self]
    rfl
  · rw [← view_remove c.shared i] at hvalues
    apply hvalues

/-- A drain gives the values that are left up to the first empty string. -/
theorem Chained.drains (h : Chained c.shared) (hl : (c.locals i).returned = true) :
  ∃ c', Drains i c (c.shared.left.takeWhile (· ≠ "")) c'
  := by
  induction hleft : c.shared.left generalizing c with
  | nil =>
      obtain ⟨c', hout⟩ := h.outputs_empty hl hleft
      exact ⟨c', .stop hout⟩
  | cons value values ih =>
      obtain ⟨c', hout, hchained, hl', hleft'⟩ := h.outputs_cons hl hleft
      by_cases hvalue : value = ""
      · subst hvalue
        use c'
        rw [List.takeWhile_cons_of_neg (by simp)]
        apply Drains.stop hout
      · obtain ⟨c'', hrest⟩ := ih hchained hl' hleft'
        use c''
        rw [List.takeWhile_cons_of_pos (by simpa using hvalue)]
        apply Drains.more hout hvalue hrest

/-! ### What the calls are started with -/

theorem issued_concat {e : ι × Call} (h : (threads ι).machine.run c es = some c') :
  issued c (es ++ [e]) = issued c es ++ starts (c'.locals e.1) e.2
  := by
  induction es generalizing c with
  | nil =>
      obtain rfl := Option.some.inj h
      rw [List.nil_append, issued, issued]
      cases (threads ι).machine.step c e <;> simp [issued]
  | cons f es ih =>
      obtain ⟨d, hd, hrun⟩ := Option.bind_eq_some_iff.mp h
      rw [List.cons_append, issued, issued, hd, List.append_assoc]
      congr 1
      apply ih hrun

/-- A step that builds no node and keeps the chain keeps what was issued. -/
theorem Issued.same {values : List String} {l : Pc} (h : Issued values c)
    (hmade : s.made = c.shared.made)
    (hvalue : ∀ n, (s.nodes n).logInfo = (c.shared.nodes n).logInfo)
    (hchain : ∀ n, n ∈ c.shared.chain → n ∈ s.chain)
    (hbuilding : ∀ n, (c.locals i).building = some n → l.building = some n ∨ n ∈ s.chain) :
  Issued values (c.set i s l)
  := by
  constructor
  · apply hmade.trans h.made
  · intro k data hk
    apply (hvalue (k + 1)).trans (h.value k data hk)
  · intro n hn
    obtain hmem | ⟨j, hj⟩ := h.placed n (hn.trans_eq hmade)
    · exact Or.inl (hchain n hmem)
    · by_cases hji : j = i
      · subst hji
        obtain hl | hmem := hbuilding n hj
        · right
          use j
          rw [Threads.Config.set_locals_self, hl]
        · exact Or.inl hmem
      · right
        use j
        rw [Threads.Config.set_locals_of_ne _ hji, hj]

/-- An `input` that starts builds the next node. -/
theorem Issued.new {values : List String} (h : Issued values c)
    (hl : (c.locals i).returned = true) (data : String) :
  Issued (values ++ [data]) (c.set i (c.shared.new data) (.readingTail data c.shared.made))
  := by
  have hmade := h.made
  constructor
  · simp [State.new, hmade]
  · intro k data' hk
    simp only [Threads.Config.set_shared, State.new]
    rcases Nat.lt_trichotomy k values.length with hlt | rfl | hgt
    · rw [List.getElem?_append_left hlt] at hk
      rw [Function.update_of_ne (by omega), h.value k data' hk]
    · rw [hmade, Function.update_self]
      simpa using hk
    · rw [List.getElem?_eq_none] at hk
      · cases hk
      · rw [List.length_append, List.length_singleton]
        apply hgt
  · intro n hn
    obtain hlt | rfl := Nat.lt_succ_iff_lt_or_eq.mp hn
    · obtain hmem | ⟨j, hj⟩ := h.placed n hlt
      · exact Or.inl hmem
      · right
        use j
        rw [Threads.Config.set_locals_of_ne, hj]
        rintro rfl
        rw [Pc.building_of_returned hl] at hj
        cases hj
    · right
      use i
      rw [Threads.Config.set_locals_self]
      rfl

theorem Issued.step {values : List String} {a : Call} {s : State ι} {l : Pc}
    (h : Issued values c) (hstep : Moves i a c.shared (c.locals i) s l) :
  Issued (values ++ starts (c.locals i) a) (c.set i s l)
  := by
  cases hstep with
  | read building hstarts =>
      have hnil : starts (c.locals i) a = [] := by
        cases a with
        | input data =>
            have hl : ¬ (c.locals i).returned = true := fun hl => hstarts data hl rfl
            simp [starts, hl]
        | output => rfl
      rw [hnil, List.append_nil]
      apply h.same rfl (fun _ => rfl) (fun _ => id)
      intro n hn
      left
      rw [building, hn]
  | @new data hreturned ha =>
      have hdata : starts (c.locals i) a = [data] := by
        rw [ha, starts, if_pos hreturned]
      rw [hdata]
      apply h.new hreturned
  | @swap _ cur next building hreturned =>
      obtain ⟨tail, htail⟩ := swapTail_eq c.shared cur next
      rw [starts_of_not_returned hreturned, List.append_nil, htail]
      apply h.same
      · rfl
      · intro n
        rfl
      · intro n hn
        apply hn
      · intro n hn
        left
        rw [building, hn]
  | @link data cur node heq _ =>
      rw [starts_of_not_returned (by rw [heq]; rfl), List.append_nil]
      apply h.same
      · rfl
      · apply logInfo_link
      · intro n hn
        rw [chain_link]
        apply List.mem_append_left _ hn
      · intro n hn
        rw [heq] at hn
        obtain rfl := Option.some.inj hn
        right
        rw [chain_link]
        apply List.mem_append_right _ List.mem_cons_self
  | remove heq _ =>
      rw [starts_of_not_returned (by rw [heq]; rfl), List.append_nil]
      apply h.same
      · rfl
      · intro n
        rfl
      · intro n hn
        apply hn
      · intro n hn
        rw [heq] at hn
        cases hn

theorem issued_start (ι : Type*) :
  Issued [] (start ι)
  := by
  constructor
  · rfl
  · intro k data hk
    cases hk
  · intro n hn
    left
    obtain rfl := Nat.lt_one_iff.mp hn
    apply List.mem_cons_self

theorem issued_of_run (h : (threads ι).machine.run (start ι) es = some c) :
  Issued (issued (start ι) es) c
  := by
  apply (threads ι).machine.run_induction (P := fun es c => Issued (issued (start ι) es) c) _ _ h
  · apply issued_start
  · rintro es c ⟨i, a⟩ c' hes hc hstep
    have hO := (queueing ι).holds_of_run hes (queueing_start ι)
    obtain ⟨s, l, hl, rfl⟩ := (threads ι).machine_step_eq_some.mp hstep
    rw [issued_concat hes]
    apply hc.step (step_moves (hO.own i) hl)

/-- Where only `input` was called nothing is removed. -/
theorem removed_of_inputs (h : (threads ι).machine.run (start ι) es = some c)
    (hes : ∀ e, e ∈ es → e.2 ≠ .output) :
  c.shared.removed = []
  := by
  have key : (∀ e, e ∈ es → e.2 ≠ .output) →
      c.shared.removed = [] ∧ ∀ i, (c.locals i).inputs = true := by
    apply (threads ι).machine.run_induction (P := fun es c => (∀ e, e ∈ es → e.2 ≠ .output) →
      c.shared.removed = [] ∧ ∀ i, (c.locals i).inputs = true) _ _ h
    · intro _
      exact ⟨rfl, fun _ => rfl⟩
    · rintro es c ⟨i, a⟩ c' hrun ih hstep hes
      have hO := (queueing ι).holds_of_run hrun (queueing_start ι)
      obtain ⟨hremoved, hinputs⟩ := ih fun e he => hes e (List.mem_append_left _ he)
      obtain ⟨s, l, hl, rfl⟩ := (threads ι).machine_step_eq_some.mp hstep
      obtain ⟨hl', hs⟩ := step_inputs (hinputs i) (hes (i, a) (by simp)) (hO.own i) hl
      constructor
      · apply hs.trans hremoved
      · intro j
        by_cases hji : j = i
        · subst hji
          rw [Threads.Config.set_locals_self, hl']
        · rw [Threads.Config.set_locals_of_ne _ hji, hinputs j]
  apply (key hes).1

/-! ### The answer of an empty queue -/

/-- In the last call of the thread `i`, which has returned after `es`, the queue was empty at
some time. -/
def WasEmpty (i : ι) (es : List (ι × Call)) : Prop :=
  ∃ fs gs d, es = fs ++ gs ∧ (threads ι).machine.run (start ι) fs = some d ∧
    (d.locals i).returned = false ∧
    (threads ι).machine.Steps (fun d e => e.1 = i → (d.locals i).returned = false) d gs ∧
    Empty d.shared

/-- The answer of an `output` that has removed no node. -/
theorem wasEmpty_of_answered (h : (threads ι).machine.run (start ι) es = some c) {r : String}
    (hl : c.locals i = .answered none r) :
  WasEmpty i es
  := by
  have key : ∀ r, c.locals i = .answered none r → WasEmpty i es := by
    apply (threads ι).machine.run_induction
      (P := fun es c => ∀ r, c.locals i = .answered none r → WasEmpty i es) _ _ h
    · intro r hl
      cases hl
    · rintro es c ⟨j, a⟩ c' hrun ih hstep r hl
      have hO := (queueing ι).holds_of_run hrun (queueing_start ι)
      obtain ⟨s, l, hs, rfl⟩ := (threads ι).machine_step_eq_some.mp hstep
      by_cases hij : i = j
      · subst hij
        rw [Threads.Config.set_locals_self] at hl
        subst hl
        obtain ⟨first, hfirst, hnull, -⟩ := step_answered hs
        have hown := hO.own i
        rw [hfirst] at hown
        obtain ⟨k, f, hk, hf, hc⟩ := hown
        obtain rfl := Option.some.inj hf
        have hgoing : (c.locals i).returned = false := by
          rw [hfirst]
          rfl
        use es, [(i, a)], c, rfl, hrun, hgoing
        constructor
        · rw [Machine.steps_cons]
          use fun _ => hgoing
          intro t _
          apply Machine.steps_nil
        · have hs : Chained c.shared := hO.shared
          apply hs.ordered.taken_of_null hk hc hnull
      · rw [Threads.Config.set_locals_of_ne _ hij] at hl
        obtain ⟨fs, gs, d, rfl, hd, hin, hsteps, hempty⟩ := ih r hl
        rw [Machine.run_append, hd] at hrun
        use fs, gs ++ [(j, a)], d, List.append_assoc fs gs _, hd, hin
        constructor
        · apply hsteps.concat hrun
          intro heq
          apply absurd heq.symm hij
        · apply hempty
  apply key r hl

/-- Take any run of any number of threads in which no `output` was called and all calls have
returned.  The values inserted are those the calls of `input` were called with; a consumer that
calls `output` until it returns the empty string gets to an end, and has got them all, each once
and in the order they were linked, exactly if none of them is the empty string.  And in any run
without a call of `input` with the empty string, `output` returns the empty string only if the
queue was empty at some time of the call. -/
theorem drain_iff (h : (threads ι).machine.run (start ι) es = some c) :
  ((∀ e, e ∈ es → e.2 ≠ .output) → (∀ j, (c.locals j).returned = true) → ∀ i,
    (c.shared.inserted.map Prod.snd).Perm (issued (start ι) es) ∧
    (∃ values c', Drains i c values c') ∧
    ((∀ values c', Drains i c values c' → values = c.shared.inserted.map Prod.snd) ↔
      "" ∉ issued (start ι) es)) ∧
  ("" ∉ issued (start ι) es → ∀ i node, c.locals i = .answered node "" → WasEmpty i es)
  := by
  have hO := (queueing ι).holds_of_run h (queueing_start ι)
  have hs : Chained c.shared := hO.shared
  have hissued := issued_of_run h
  constructor
  · intro hes hreturned i
    have hperm := hissued.perm hs hreturned
    obtain ⟨c', hdrains⟩ := hs.drains (hreturned i)
    have hleft : c.shared.left = c.shared.inserted.map Prod.snd := by
      rw [State.left, removed_of_inputs h hes]
      rfl
    rw [hleft] at hdrains
    use hperm, ⟨_, c', hdrains⟩
    constructor
    · intro hall hmem
      have heq := hall _ c' hdrains
      have hne := List.takeWhile_eq_self_iff.mp heq "" (hperm.mem_iff.mpr hmem)
      simp at hne
    · intro hnot values c'' hdrains'
      rw [hdrains'.unique hdrains, List.takeWhile_eq_self_iff]
      intro value hvalue
      have hne : value ≠ "" := by
        rintro rfl
        apply hnot (hperm.mem_iff.mp hvalue)
      simpa using hne
  · intro hnot i node hl
    cases node with
    | none => apply wasEmpty_of_answered h hl
    | some n =>
        have hown := hO.own i
        rw [hl] at hown
        obtain ⟨k, -, hk⟩ := hown n rfl
        apply absurd (hissued.mem hs (List.mem_of_getElem? hk)) hnot

end Calls

/-- A thread inserts two values; the consumer gets both. -/
theorem drain_iff_two :
  ∃ c, (threads (Fin 2)).machine.run (start (Fin 2))
      (List.replicate 5 (0, .input "a") ++ List.replicate 5 (0, .input "b")) = some c ∧
    ∀ values c', Drains 1 c values c' → values = ["a", "b"]
  := by
  have hrun : ((threads (Fin 2)).machine.run (start (Fin 2))
      (List.replicate 5 (0, .input "a") ++ List.replicate 5 (0, .input "b"))).any
      (fun c => (∀ j, (c.locals j).returned = true) ∧
        c.shared.inserted.map Prod.snd = ["a", "b"]) = true := by
    decide +kernel
  obtain ⟨c, hc, hstate⟩ := (Option.any_eq_true _ _).mp hrun
  obtain ⟨hreturned, hvalues⟩ := of_decide_eq_true hstate
  use c, hc
  have hdrain := (drain_iff hc).1 (by simp) hreturned 1
  rw [← hvalues]
  apply hdrain.2.2.mpr
  intro hmem
  have hin := hdrain.1.mem_iff.mpr hmem
  rw [hvalues] at hin
  simp at hin

/-- A thread inserts the empty string and then another one. -/
def blank : List (Fin 2 × Call) :=
  List.replicate 5 (0, .input "") ++ List.replicate 5 (0, .input "b")

/-- The other thread calls `output` then. -/
def blankOutput : List (Fin 2 × Call) :=
  blank ++ List.replicate 5 (1, .output)

/-- Before each step of that run, the second thread is in no call or the queue is not empty. -/
theorem blankOutput_stays :
  ∀ k : Fin 16, ((threads (Fin 2)).machine.run (start (Fin 2)) (blankOutput.take k)).all
    (fun d => (d.locals 1).returned || d.shared.removed.length != d.shared.inserted.length) = true
  := by
  decide +kernel

/-- The consumer gets nothing, though two values were inserted, and the queue is never empty in
its call. -/
theorem drain_blank :
  ∃ c c', (threads (Fin 2)).machine.run (start (Fin 2)) blank = some c ∧
    (threads (Fin 2)).machine.run (start (Fin 2)) blankOutput = some c' ∧
    (∀ j, (c.locals j).returned = true) ∧ c.shared.inserted.map Prod.snd = ["", "b"] ∧
    (∃ d, Drains 1 c [] d) ∧ c'.locals 1 = .answered (some 1) "" ∧ ¬ WasEmpty 1 blankOutput
  := by
  have hrun : ((threads (Fin 2)).machine.run (start (Fin 2)) blank).any
      (fun c => (∀ j, (c.locals j).returned = true) ∧
        c.shared.inserted.map Prod.snd = ["", "b"] ∧ c.shared.left = ["", "b"]) = true := by
    decide +kernel
  have hrun' : ((threads (Fin 2)).machine.run (start (Fin 2)) blankOutput).any
      (fun c => match c.locals 1 with
        | .answered (some 1) "" => true
        | _ => false) = true := by
    decide +kernel
  obtain ⟨c, hc, hstate⟩ := (Option.any_eq_true _ _).mp hrun
  obtain ⟨hreturned, hvalues, hleft⟩ := of_decide_eq_true hstate
  obtain ⟨c', hc', hanswer⟩ := (Option.any_eq_true _ _).mp hrun'
  use c, c', hc, hc', hreturned, hvalues
  constructor
  · have hs : Chained c.shared := ((queueing _).holds_of_run hc (queueing_start _)).shared
    obtain ⟨d, hd⟩ := hs.drains (hreturned 1)
    rw [hleft] at hd
    use d
    apply hd
  constructor
  · split at hanswer
    · assumption
    · cases hanswer
  · rintro ⟨fs, gs, d, heq, hd, hgoing, -, hempty⟩
    have hlen : fs.length < 16 := by
      have hle := congrArg List.length heq
      rw [List.length_append] at hle
      have : blankOutput.length = 15 := rfl
      omega
    have hstays := blankOutput_stays ⟨fs.length, hlen⟩
    rw [heq, List.take_left, hd] at hstays
    rw [Empty] at hempty
    simp [hgoing, hempty] at hstays

end LockFreeQueue
