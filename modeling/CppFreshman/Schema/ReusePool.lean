import CppFreshman.Machine.Run
import CppFreshman.Schema.Placement
import Mathlib.Logic.Function.Basic

/-!
# The pool of instances

`ReuseDynamicStructPool` hands out the instances of a schema one after the other, and creates one
when it has no more; `reconstruct` clears those that it has handed out and begins anew.  The
instances that it hands out between two `reconstruct` calls are different and as they have been
constructed or cleared, and it creates no more than it must (`handsOut_run`).

The contents of an instance are left open, and what a call does to them.  The allocator is asked
for memory that it has not given to another instance of the pool.
-/

namespace DynamicStruct

/-- The pool; an instance is a pointer to it. -/
structure ReuseDynamicStructPool where
  schema : BaseSchema
  pool : Option ℕ
  dsVec : List ℕ
  useNum : ℕ

/-- `ReuseDynamicStructPool::AllocationMetadata`. -/
structure AllocationMetadata where
  schema : BaseSchema
  metadatas : List (Option ℕ)
  size : ℕ

namespace ReuseDynamicStructPool

variable {γ : Type} (perform : Call → γ → γ)

/-- The pool and the contents of the instances; and two histories that no step reads: how many
instances have been created, and those handed out since the last `reconstruct`. -/
structure State (γ : Type) where
  reuse : ReuseDynamicStructPool
  contents : ℕ → γ
  created : ℕ
  handedOut : List ℕ

/-- What is done with a pool: `get`, with what the allocator gives for a new instance, a place and
what is there; `reconstruct`; and a user writes an instance that has been handed out. -/
inductive Event (γ : Type) where
  | get (base : ℕ) (raw : γ)
  | reconstruct
  | write (ds : ℕ) (value : γ)

/-- The contents of an instance after the calls. -/
def performAll (calls : List Call) (value : γ) : γ :=
  calls.foldl (fun value call => perform call value) value

/-- The constructor with a schema and a memory pool. -/
def empty (schema : BaseSchema) (pool : Option ℕ) (contents : ℕ → γ) : State γ :=
  ⟨⟨schema, pool, [], 0⟩, contents, 0, []⟩

/-- An instance has been created with these contents and is appended to `_ds_vec`. -/
def State.append (s : State γ) (ds : ℕ) (value : γ) : State γ :=
  { s with
    reuse := { s.reuse with dsVec := s.reuse.dsVec ++ [ds] }
    contents := Function.update s.contents ds value
    created := s.created + 1 }

/-- The next instance is handed out. -/
def State.handOut (s : State γ) (ds : ℕ) : State γ :=
  { s with
    reuse := { s.reuse with useNum := s.reuse.useNum + 1 }
    handedOut := s.handedOut ++ [ds] }

/-- `DynamicStruct::create_with_metadata`, in the loop of the constructor. -/
def State.createWithMetadata (s : State γ) (metadata : AllocationMetadata) (base : ℕ) (raw : γ) :
    Option (State γ) :=
  let ds := create base
  if ds ∈ s.reuse.dsVec then none
  else do
    let calls ← metadata.schema.constructWithMetadataAll ds s.reuse.pool metadata.metadatas
    some (s.append ds (performAll perform calls raw))

/-- The loop of the constructor with metadata; `given i` is what the allocator gives for the
instance `i`. -/
def construct (metadata : AllocationMetadata) (pool : Option ℕ) (contents : ℕ → γ)
    (given : ℕ → ℕ × γ) : ℕ → Option (State γ)
  | 0 => some (empty metadata.schema pool contents)
  | i + 1 => do
      let s ← construct metadata pool contents given i
      s.createWithMetadata perform metadata (given i).1 (given i).2

/-- The constructor with metadata. -/
def fromMetadata (metadata : AllocationMetadata) (pool : Option ℕ) (contents : ℕ → γ)
    (given : ℕ → ℕ × γ) : Option (State γ) :=
  construct perform metadata pool contents given metadata.size

/-- `get`. -/
def State.get (s : State γ) (base : ℕ) (raw : γ) : Option (State γ) :=
  if s.reuse.useNum = s.reuse.dsVec.length then
    let ds := create base
    if ds ∈ s.reuse.dsVec then none
    else
      let calls := s.reuse.schema.constructAll ds s.reuse.pool
      some ((s.append ds (performAll perform calls raw)).handOut ds)
  else do
    let ds ← s.reuse.dsVec[s.reuse.useNum]?
    some (s.handOut ds)

/-- The loop of `reconstruct` over the first instances. -/
def State.clearFirst (s : State γ) : ℕ → Option (ℕ → γ)
  | 0 => some s.contents
  | i + 1 => do
      let contents ← s.clearFirst i
      let ds ← s.reuse.dsVec[i]?
      let calls := s.reuse.schema.clearAll ds s.reuse.pool
      some (Function.update contents ds (performAll perform calls (contents ds)))

/-- `reconstruct`. -/
def State.reconstruct (s : State γ) : Option (State γ) := do
  let contents ← s.clearFirst perform s.reuse.useNum
  some { s with reuse := { s.reuse with useNum := 0 }, contents := contents, handedOut := [] }

/-- The pool and its user; the user writes only instances that have been handed out. -/
def reusing : Machine (State γ) (Event γ) where
  step s
    | .get base raw => s.get perform base raw
    | .reconstruct => s.reconstruct perform
    | .write ds value =>
        if ds ∈ s.handedOut then some { s with contents := Function.update s.contents ds value }
        else none

/-- How many instances have been handed out since the last `reconstruct`, and how many at most
between two. -/
def counts (es : List (Event γ)) : ℕ × ℕ :=
  es.foldl (fun (n, most) e =>
    match e with
    | .get _ _ => (n + 1, max most (n + 1))
    | .reconstruct => (0, most)
    | .write _ _ => (n, most)) (0, 0)

/-- The contents are those of an instance that has been constructed or cleared, and not written
since. -/
inductive Clean (r : ReuseDynamicStructPool) (ds : ℕ) : γ → Prop where
  | constructed (raw : γ) : Clean r ds (performAll perform (r.schema.constructAll ds r.pool) raw)
  | withMetadata {metadatas : List (Option ℕ)} {calls : List Call} (raw : γ)
      (h : r.schema.constructWithMetadataAll ds r.pool metadatas = some calls) :
      Clean r ds (performAll perform calls raw)
  | cleared (value : γ) : Clean r ds (performAll perform (r.schema.clearAll ds r.pool) value)

/-- A pool that has just been constructed with this number of instances. -/
inductive Starts : ℕ → State γ → Prop where
  | empty (schema : BaseSchema) (pool : Option ℕ) (contents : ℕ → γ) :
      Starts 0 (empty schema pool contents)
  | fromMetadata {metadata : AllocationMetadata} {pool : Option ℕ} {contents : ℕ → γ}
      {given : ℕ → ℕ × γ} {s : State γ}
      (h : fromMetadata perform metadata pool contents given = some s) :
      Starts metadata.size s

/-- What a pool of that many instances at the start hands out after the events: no instance twice
between two `reconstruct` calls, an instance that is clean, and always one if the allocator gives
a place for a new one; `reconstruct` succeeds; and there are as many instances as at the start, or
as have been handed out at most. -/
structure HandsOut (size : ℕ) (es : List (Event γ)) (s : State γ) : Prop where
  distinct : s.handedOut.Nodup
  clean : ∀ base raw t, s.get perform base raw = some t →
    ∃ ds, t.handedOut = s.handedOut ++ [ds] ∧ Clean perform t.reuse ds (t.contents ds)
  returns : ∀ base raw, create base ∉ s.reuse.dsVec → (s.get perform base raw).isSome
  clears : (s.reconstruct perform).isSome
  created : s.created = max size (counts es).2

/-! ### The instances that are not handed out -/

/-- The instances in front are those handed out, and the others are clean. -/
structure Ready (s : State γ) : Prop where
  useNum_le : s.reuse.useNum ≤ s.reuse.dsVec.length
  nodup : s.reuse.dsVec.Nodup
  handedOut : s.handedOut = s.reuse.dsVec.take s.reuse.useNum
  clean : ∀ ds, ds ∈ s.reuse.dsVec.drop s.reuse.useNum →
    Clean perform s.reuse ds (s.contents ds)
  created : s.created = s.reuse.dsVec.length

variable {perform} {s t : State γ}

theorem Clean.congr {r r' : ReuseDynamicStructPool} {ds : ℕ} {value : γ}
    (h : Clean perform r ds value) (hschema : r'.schema = r.schema) (hpool : r'.pool = r.pool) :
  Clean perform r' ds value
  := by
  cases h with
  | constructed raw =>
      rw [← hschema, ← hpool]
      apply Clean.constructed
  | withMetadata raw hcalls =>
      rw [← hschema, ← hpool] at hcalls
      apply Clean.withMetadata raw hcalls
  | cleared value =>
      rw [← hschema, ← hpool]
      apply Clean.cleared

theorem ready_empty (schema : BaseSchema) (pool : Option ℕ) (contents : ℕ → γ) :
  Ready perform (empty schema pool contents)
  := by
  constructor
  · apply Nat.le_refl
  · apply List.nodup_nil
  · rfl
  · intro ds hds
    cases hds
  · rfl

/-- A new instance that is clean. -/
theorem Ready.append (h : Ready perform s) {ds : ℕ} {value : γ} (hds : ds ∉ s.reuse.dsVec)
    (hclean : Clean perform s.reuse ds value) :
  Ready perform (s.append ds value)
  := by
  have hle := h.useNum_le
  have hdrop : (s.append ds value).reuse.dsVec.drop s.reuse.useNum =
      s.reuse.dsVec.drop s.reuse.useNum ++ [ds] := by
    apply List.drop_append_of_le_length hle
  constructor
  · simp only [State.append, List.length_append]
    omega
  · simp only [State.append]
    rw [List.nodup_append]
    refine ⟨h.nodup, List.nodup_singleton ds, ?_⟩
    intro d hd d' hd' heq
    obtain rfl := List.mem_singleton.mp hd'
    rw [heq] at hd
    apply hds hd
  · simp only [State.append]
    rw [h.handedOut, List.take_append_of_le_length hle]
  · intro d hd
    simp only [State.append] at hd hdrop ⊢
    rw [hdrop] at hd
    obtain hold | hnew := List.mem_append.mp hd
    · have hne : d ≠ ds := by
        intro heq
        rw [heq] at hold
        apply hds (List.mem_of_mem_drop hold)
      rw [Function.update_of_ne hne]
      exact (h.clean d hold).congr rfl rfl
    · obtain rfl := List.mem_singleton.mp hnew
      rw [Function.update_self]
      exact hclean.congr rfl rfl
  · simp only [State.append, List.length_append, h.created]
    rfl

/-- The next instance is handed out, which is clean. -/
theorem Ready.handOut (h : Ready perform s) {ds : ℕ}
    (hds : s.reuse.dsVec[s.reuse.useNum]? = some ds) :
  Ready perform (s.handOut ds) ∧ Clean perform s.reuse ds (s.contents ds)
  := by
  obtain ⟨hlt, hget⟩ := List.getElem?_eq_some_iff.mp hds
  have hdrop := List.drop_eq_getElem_cons hlt
  rw [hget] at hdrop
  constructor
  · constructor
    · apply hlt
    · apply h.nodup
    · simp only [State.handOut]
      rw [h.handedOut, List.take_add_one, hds]
      rfl
    · intro d hd
      refine (h.clean d ?_).congr rfl rfl
      rw [hdrop]
      apply List.mem_cons_of_mem ds hd
    · apply h.created
  · apply h.clean
    rw [hdrop]
    apply List.mem_cons_self

/-- `get` creates an instance that is not there yet and hands it out, or hands out one that is
there. -/
theorem get_cases {base : ℕ} {raw : γ} (h : s.get perform base raw = some t) :
  (s.reuse.useNum = s.reuse.dsVec.length ∧ create base ∉ s.reuse.dsVec ∧
      t = (s.append (create base) (performAll perform
        (s.reuse.schema.constructAll (create base) s.reuse.pool) raw)).handOut (create base)) ∨
    ∃ ds, s.reuse.useNum ≠ s.reuse.dsVec.length ∧ s.reuse.dsVec[s.reuse.useNum]? = some ds ∧
      t = s.handOut ds
  := by
  rw [State.get] at h
  by_cases hfull : s.reuse.useNum = s.reuse.dsVec.length
  · rw [if_pos hfull] at h
    by_cases hnew : create base ∈ s.reuse.dsVec
    · simp [hnew] at h
    · simp only [hnew, if_false] at h
      left
      exact ⟨hfull, hnew, (Option.some.inj h).symm⟩
  · rw [if_neg hfull] at h
    obtain ⟨ds, hds, heq⟩ := Option.bind_eq_some_iff.mp h
    right
    exact ⟨ds, hfull, hds, (Option.some.inj heq).symm⟩

/-- `get` returns an instance that is clean. -/
theorem Ready.get (h : Ready perform s) {base : ℕ} {raw : γ}
    (hget : s.get perform base raw = some t) :
  Ready perform t ∧
    ∃ ds, t.handedOut = s.handedOut ++ [ds] ∧ Clean perform t.reuse ds (t.contents ds)
  := by
  obtain ⟨hfull, hnew, rfl⟩ | ⟨ds, -, hds, rfl⟩ := get_cases hget
  · have happend := h.append hnew (Clean.constructed raw)
    have hlast : (s.reuse.dsVec ++ [create base])[s.reuse.useNum]? = some (create base) := by
      rw [hfull, List.getElem?_concat_length]
    obtain ⟨hready, hclean⟩ := happend.handOut hlast
    exact ⟨hready, create base, rfl, hclean.congr rfl rfl⟩
  · obtain ⟨hready, hclean⟩ := h.handOut hds
    exact ⟨hready, ds, rfl, hclean.congr rfl rfl⟩

variable (perform) in
/-- The loop of `reconstruct` clears the first instances and no others. -/
theorem clearFirst_spec {n : ℕ} (hn : n ≤ s.reuse.dsVec.length) :
  ∃ contents, s.clearFirst perform n = some contents ∧
    (∀ ds, ds ∈ s.reuse.dsVec.take n → Clean perform s.reuse ds (contents ds)) ∧
    ∀ ds, ds ∉ s.reuse.dsVec.take n → contents ds = s.contents ds
  := by
  induction n with
  | zero =>
      refine ⟨s.contents, rfl, ?_, ?_⟩
      · intro ds hds
        cases hds
      · intro ds _
        rfl
  | succ n ih =>
      obtain ⟨contents, heq, hclean, hsame⟩ := ih (Nat.le_of_succ_le hn)
      obtain ⟨last, hlast⟩ : ∃ last, s.reuse.dsVec[n]? = some last :=
        ⟨_, List.getElem?_eq_getElem hn⟩
      have htake : s.reuse.dsVec.take (n + 1) = s.reuse.dsVec.take n ++ [last] := by
        rw [List.take_add_one, hlast]
        rfl
      use Function.update contents last
        (performAll perform (s.reuse.schema.clearAll last s.reuse.pool) (contents last))
      refine ⟨?_, ?_, ?_⟩
      · simp only [State.clearFirst, heq, hlast, Option.bind_eq_bind, Option.bind_some]
      · intro ds hds
        by_cases heqlast : ds = last
        · rw [heqlast, Function.update_self]
          apply Clean.cleared
        · rw [Function.update_of_ne heqlast]
          apply hclean
          rw [htake] at hds
          obtain hds | hds := List.mem_append.mp hds
          · apply hds
          · exact absurd (List.mem_singleton.mp hds) heqlast
      · intro ds hds
        rw [htake, List.mem_append, not_or, List.mem_singleton] at hds
        rw [Function.update_of_ne hds.2]
        apply hsame ds hds.1

/-- After `reconstruct` all instances are clean. -/
theorem Ready.reconstruct (h : Ready perform s) :
  ∃ t, s.reconstruct perform = some t ∧ Ready perform t ∧ t.reuse.dsVec = s.reuse.dsVec ∧
    t.reuse.useNum = 0
  := by
  obtain ⟨contents, heq, hclean, hsame⟩ := clearFirst_spec perform h.useNum_le
  use { s with
    reuse := { s.reuse with useNum := 0 }
    contents := contents
    handedOut := [] }
  refine ⟨?_, ?_, rfl, rfl⟩
  · simp only [State.reconstruct, heq, Option.bind_eq_bind, Option.bind_some]
  · constructor
    · apply Nat.zero_le
    · apply h.nodup
    · rfl
    · intro ds hds
      by_cases hused : ds ∈ s.reuse.dsVec.take s.reuse.useNum
      · exact (hclean ds hused).congr rfl rfl
      · simp only
        rw [hsame ds hused]
        refine (h.clean ds ?_).congr rfl rfl
        have hmem : ds ∈ s.reuse.dsVec := List.mem_of_mem_drop hds
        rw [← List.take_append_drop s.reuse.useNum s.reuse.dsVec] at hmem
        obtain hmem | hmem := List.mem_append.mp hmem
        · exact absurd hmem hused
        · apply hmem
    · apply h.created

/-- The user writes an instance that is not among those that are to be clean. -/
theorem Ready.write (h : Ready perform s) {ds : ℕ} (hds : ds ∈ s.handedOut) (value : γ) :
  Ready perform { s with contents := Function.update s.contents ds value }
  := by
  constructor
  · apply h.useNum_le
  · apply h.nodup
  · apply h.handedOut
  · intro d hd
    have hne : d ≠ ds := by
      intro heq
      rw [h.handedOut] at hds
      have hnodup := h.nodup
      rw [← List.take_append_drop s.reuse.useNum s.reuse.dsVec, List.nodup_append] at hnodup
      apply hnodup.2.2 ds hds d hd heq.symm
    simp only
    rw [Function.update_of_ne hne]
    exact (h.clean d hd).congr rfl rfl
  · apply h.created

/-! ### Whole runs -/

theorem counts_concat {es : List (Event γ)} {e : Event γ} :
  counts (es ++ [e]) =
    match e with
    | .get _ _ => ((counts es).1 + 1, max (counts es).2 ((counts es).1 + 1))
    | .reconstruct => (0, (counts es).2)
    | .write _ _ => counts es
  := by
  rw [counts, List.foldl_append]
  cases e <;> rfl

/-- The pool is ready, and it has no more instances than it must. -/
structure Follows (perform : Call → γ → γ) (size : ℕ) (es : List (Event γ)) (s : State γ) :
    Prop where
  ready : Ready perform s
  useNum : s.reuse.useNum = (counts es).1
  length : s.reuse.dsVec.length = max size (counts es).2

variable {size : ℕ} {es : List (Event γ)}

/-- The constructor with metadata creates clean instances. -/
theorem ready_construct {metadata : AllocationMetadata} {pool : Option ℕ} {contents : ℕ → γ}
    {given : ℕ → ℕ × γ} {n : ℕ}
    (h : construct perform metadata pool contents given n = some s) :
  Ready perform s ∧ s.reuse.schema = metadata.schema ∧ s.reuse.pool = pool ∧
    s.reuse.useNum = 0 ∧ s.reuse.dsVec.length = n
  := by
  induction n generalizing s with
  | zero =>
      obtain rfl := Option.some.inj h
      exact ⟨ready_empty metadata.schema pool contents, rfl, rfl, rfl, rfl⟩
  | succ n ih =>
      obtain ⟨s, hs, hcreate⟩ := Option.bind_eq_some_iff.mp h
      obtain ⟨hready, hschema, hpool, huse, hlength⟩ := ih hs
      rw [State.createWithMetadata] at hcreate
      by_cases hnew : create (given n).1 ∈ s.reuse.dsVec
      · simp [hnew] at hcreate
      · simp only [hnew, if_false] at hcreate
        obtain ⟨calls, hcalls, heq⟩ := Option.bind_eq_some_iff.mp hcreate
        obtain rfl := Option.some.inj heq
        rw [← hschema] at hcalls
        refine ⟨hready.append hnew (Clean.withMetadata _ hcalls), hschema, hpool, huse, ?_⟩
        simp only [State.append, List.length_append, hlength]
        rfl

theorem Starts.follows (h : Starts perform size s) :
  Follows perform size [] s
  := by
  cases h with
  | empty schema pool contents => exact ⟨ready_empty schema pool contents, rfl, rfl⟩
  | fromMetadata h =>
      obtain ⟨hready, -, -, huse, hlength⟩ := ready_construct h
      refine ⟨hready, huse, ?_⟩
      rw [hlength]
      symm
      apply Nat.max_zero

/-- Every step keeps the pool ready. -/
theorem Follows.step (h : Follows perform size es s) {e : Event γ}
    (hstep : (reusing perform).step s e = some t) :
  Follows perform size (es ++ [e]) t
  := by
  have huse := h.useNum
  have hlength := h.length
  have hle := h.ready.useNum_le
  cases e with
  | get base raw =>
      have hready := (h.ready.get hstep).1
      obtain ⟨hfull, -, rfl⟩ | ⟨ds, hfull, -, rfl⟩ := get_cases hstep
      · refine ⟨hready, ?_, ?_⟩
        · rw [counts_concat, ← huse]
          rfl
        · rw [counts_concat]
          simp only [State.handOut, State.append, List.length_append, List.length_singleton]
          omega
      · refine ⟨hready, ?_, ?_⟩
        · rw [counts_concat, ← huse]
          rfl
        · rw [counts_concat]
          simp only [State.handOut]
          omega
  | reconstruct =>
      obtain ⟨t', heq, hready, hsame, hzero⟩ := h.ready.reconstruct
      obtain rfl := Option.some.inj (heq.symm.trans hstep)
      refine ⟨hready, ?_, ?_⟩
      · rw [counts_concat, hzero]
      · rw [counts_concat, hsame, hlength]
  | write ds value =>
      simp only [reusing, Option.ite_none_right_eq_some] at hstep
      obtain ⟨hds, heq⟩ := hstep
      obtain rfl := Option.some.inj heq
      refine ⟨h.ready.write hds value, ?_, ?_⟩
      · rw [counts_concat]
        apply huse
      · rw [counts_concat]
        apply hlength

theorem Follows.handsOut (h : Follows perform size es s) :
  HandsOut perform size es s
  := by
  constructor
  · rw [h.ready.handedOut]
    apply h.ready.nodup.sublist (List.take_sublist _ _)
  · intro base raw t hget
    apply (h.ready.get hget).2
  · intro base raw hnew
    rw [State.get]
    by_cases hfull : s.reuse.useNum = s.reuse.dsVec.length
    · simp [hfull, hnew]
    · have hlt : s.reuse.useNum < s.reuse.dsVec.length := by
        have := h.ready.useNum_le
        omega
      rw [if_neg hfull, List.getElem?_eq_getElem hlt]
      rfl
  · obtain ⟨t, heq, -⟩ := h.ready.reconstruct
    rw [heq]
    rfl
  · rw [h.ready.created, h.length]

end ReuseDynamicStructPool

end DynamicStruct
