import CppFreshman.Heap.Objects
import CppFreshman.Schema.Chains

/-!
# Lifetimes of the fields

The objects that `construct_all` makes in the fields of a struct are unmade by `destroy_all` or by
the pool that the struct was made with, with which the functions of the fields register their
destructors.  `create` and `create_with_pool` make structs in three ways: with `operator new`, to be
deleted; with a pool, with which the struct's own destructor is registered; and with the allocator
of a pool, with which it is not.

Over all events of a program no object is made where there is one, and none is unmade or used that
is not there; and the objects that are left when memory is released are those of the structs made
with an allocator that are neither trivially destructible nor of the pool (`fields_unmade`).
-/

namespace DynamicStruct

open BaseSchema (Registration)

namespace BaseSchema

variable {s : BaseSchema}

/-- The destructors of the fields. -/
def destructorsOf (fields : List Field) : List (ℕ × TypeInfo) :=
  (fields.filter fun f => !f.type.isTriviallyDestructible && f.type.isVoid).map fun f =>
    (f.offset, f.type)

theorem registerField_eq (s : BaseSchema) (c : Registration) :
  ∃ fieldType schema, s.registerField c.type c.name c.offset =
    s.registerFieldAs c.type c.name fieldType c.offset schema
  := by
  rw [registerField]
  split <;> exact ⟨_, _, rfl⟩

theorem destructors_registerField (h : s.destructors = destructorsOf s.fieldMap)
    (c : Registration) :
  (s.registerField c.type c.name c.offset).1.destructors =
    destructorsOf (s.registerField c.type c.name c.offset).1.fieldMap
  := by
  obtain ⟨fieldType, schema, heq⟩ := s.registerField_eq c
  rw [heq, registerFieldAs]
  rcases hfind : s.find c.name with _ | field
  · have hplace : (s.place c.type c.offset).1.destructors = s.destructors := by
      rw [place]
      split <;> rfl
    change (if !c.type.isTriviallyDestructible && c.type.isVoid then
        (s.place c.type c.offset).1.destructors ++ [((s.place c.type c.offset).2, c.type)]
      else (s.place c.type c.offset).1.destructors) =
        destructorsOf ((s.place c.type c.offset).1.fieldMap ++
          [⟨(s.place c.type c.offset).2, c.name, c.type, fieldType, schema⟩])
    rw [hplace, (s.place_fieldMap c.type c.offset).1, h, destructorsOf, destructorsOf,
      List.filter_append, List.map_append]
    split
    · next hdestroys => simp [hdestroys]
    · next hnot => simp [hnot]
  · exact h

theorem destructors_register (calls : List Registration) :
  (newSchema.register calls).destructors = destructorsOf (newSchema.register calls).fieldMap
  := by
  induction calls using List.reverseRecOn with
  | nil => rfl
  | append_singleton calls c ih =>
      rw [register_concat]
      apply destructors_registerField ih

/-- The schema is that of fields that have been registered, and of a struct if they are members. -/
def Registered (s : BaseSchema) : Prop :=
  ∃ calls, s = newSchema.register calls ∨
    ∃ size align, s = (newSchema.register calls).setSizeAndAlign size align

/-- The lists of entries of a schema are those of its fields. -/
theorem Registered.lists (h : s.Registered) :
  s.constructors = constructorMerge.entries s.fieldMap ∧
    s.cleaners = cleanerMerge.entries s.fieldMap ∧ s.destructors = destructorsOf s.fieldMap
  := by
  obtain ⟨calls, h⟩ := h
  have hlists : (newSchema.register calls).Lists calls := lists_register _ _ calls
  have hdestructors := destructors_register calls
  rcases h with rfl | ⟨size, align, rfl⟩
  · exact ⟨hlists.constructors, hlists.cleaners, hdestructors⟩
  · exact ⟨hlists.constructors, hlists.cleaners, hdestructors⟩

end BaseSchema

namespace Lifetimes

/-- The schemas of a program, the sizes of their structs, and which types have a function
`clear`. -/
structure Program where
  schema : ℕ → BaseSchema
  size : ℕ → ℕ
  clearable : TypeInfo → Bool
  laidOut : ∀ k, (schema k).LaidOut (size k)
  registered : ∀ k, (schema k).Registered

/-- Who is to run the destructor of a struct: who deletes it, the pool, or nobody. -/
inductive Owner where
  | unique
  | pool
  | allocator
  deriving DecidableEq

structure Instance where
  schema : ℕ
  ds : ℕ
  owner : Owner
  deriving DecidableEq

/-- A destructor that is registered with the pool: that of a field, or of a struct. -/
inductive Cleaner where
  | field (x : ℕ × TypeInfo)
  | struct (schema ds : ℕ)

/-- The objects in the fields of the structs that there are, and the cleaners of the pool; and two
histories that no step reads: the structs whose memory has been released, and the objects that were
left there and are not trivially destructible. -/
structure State where
  objects : Objects ℕ TypeInfo
  cleaners : List Cleaner
  instances : List Instance
  released : List Instance
  leaked : List (ℕ × TypeInfo)

/-- What a program does with structs; there is one pool. -/
inductive Event where
  | create (schema ds : ℕ)
  | createWithPool (schema ds : ℕ)
  | createWithAllocator (schema ds : ℕ)
  | clear (ds : ℕ)
  | reconstruct (ds : ℕ)
  | delete (ds : ℕ)
  | clearPool

namespace State

variable (s : State)

/-- An object is made at its place. -/
def make (x : ℕ × TypeInfo) : Option State :=
  (s.objects.make x).map fun objects => { s with objects }

/-- An object that is there is used. -/
def use (x : ℕ × TypeInfo) : Option State :=
  if s.objects x.1 = some x.2 then some s else none

/-- `register_destructor`. -/
def register (cleaner : Cleaner) : State :=
  { s with cleaners := s.cleaners ++ [cleaner] }

def add (i : Instance) : State :=
  { s with instances := s.instances ++ [i] }

def find (ds : ℕ) : Option Instance :=
  s.instances.find? fun i => i.ds = ds

end State

namespace Program

variable (p : Program) (s : State)

/-- A call for a field.  A function that takes a pool fails if it is given none; what
`reconstruct_instance` does leaves the object where it is.  `construct_with_metadata` is not called
here. -/
def perform (s : State) (call : Call) : Option State :=
  match call.method with
  | .fillWithZero => some s
  | .construct type => s.make (call.ptr, type)
  | .constructWithPool type =>
      if call.pool.isNone then none
      else (s.make (call.ptr, type)).map fun s =>
        if type.isTriviallyDestructible then s else s.register (.field (call.ptr, type))
  | .constructWithMetadata _ => none
  | .reconstruct type =>
      if type.isVoid then
        if p.clearable type then s.use (call.ptr, type)
        else ((s.objects.unmake (call.ptr, type)).bind fun o => o.make (call.ptr, type)).map
          fun objects => { s with objects }
      else if call.pool.isNone then none
      else s.use (call.ptr, type)

/-- `construct_all`, and then the struct is there. -/
def construct (pool : Option ℕ) (i : Instance) : Option State :=
  (((p.schema i.schema).constructAll i.ds pool).foldlM p.perform s).map fun s => s.add i

/-- `clear_all`. -/
def clearAll (pool : Option ℕ) (ds : ℕ) : Option State :=
  (s.find ds).bind fun i => ((p.schema i.schema).clearAll ds pool).foldlM p.perform s

/-- The objects that `destroy_all` destroys. -/
def destroyAll (schema ds : ℕ) : List (ℕ × TypeInfo) :=
  (p.schema schema).destructors.map fun d => (ds + d.1, d.2)

/-- The objects that a cleaner destroys. -/
def targets : Cleaner → List (ℕ × TypeInfo)
  | .field x => [x]
  | .struct schema ds => p.destroyAll schema ds

/-- The byte is one of the struct. -/
def Has (i : Instance) (x : ℕ) : Prop :=
  i.ds ≤ x ∧ x < i.ds + p.size i.schema

instance (i : Instance) (x : ℕ) : Decidable (p.Has i x) := by
  unfold Has
  infer_instance

/-- The objects in the bytes of a struct that are not trivially destructible. -/
def left (objects : Objects ℕ TypeInfo) (i : Instance) : List (ℕ × TypeInfo) :=
  (List.range (p.size i.schema)).filterMap fun n =>
    ((objects (i.ds + n)).filter fun type => !type.isTriviallyDestructible).map fun type =>
      (i.ds + n, type)

/-- The memory of structs is released. -/
def release (gone : List Instance) : State where
  objects x := if ∃ i, i ∈ gone ∧ p.Has i x then none else s.objects x
  cleaners := s.cleaners
  instances := s.instances.filter (· ∉ gone)
  released := s.released ++ gone
  leaked := s.leaked ++ gone.flatMap (p.left s.objects)

/-- What an event does. -/
def step : Event → Option State
  | .create schema ds => p.construct s none ⟨schema, ds, .unique⟩
  | .createWithPool schema ds =>
      (p.construct s (some 0) ⟨schema, ds, .pool⟩).map fun s => s.register (.struct schema ds)
  | .createWithAllocator schema ds => p.construct s (some 0) ⟨schema, ds, .allocator⟩
  | .clear ds => p.clearAll s none ds
  | .reconstruct ds => p.clearAll s (some 0) ds
  | .delete ds =>
      (s.find ds).bind fun i =>
        (s.objects.unmakeAll (p.destroyAll i.schema ds)).map fun objects =>
          p.release { s with objects } [i]
  | .clearPool =>
      (s.objects.unmakeAll (s.cleaners.flatMap p.targets)).map fun objects =>
        p.release { s with objects, cleaners := [] }
          (s.instances.filter fun i => i.owner ≠ .unique)

/-- No structs. -/
def start : State :=
  ⟨fun _ => none, [], [], [], []⟩

def machine : Machine State Event where
  step := p.step

/-- No field of the schema that has a constructor is of a pool. -/
def Plain (schema : ℕ) : Prop :=
  ∀ f, f ∈ (p.schema schema).fieldMap → f.type.isTrivial = false → f.type.isVoid = true

/-- The memory at `ds` is that of no struct that is there. -/
def Fresh (schema ds : ℕ) : Prop :=
  ∀ i, i ∈ s.instances → ds + p.size schema ≤ i.ds ∨ i.ds + p.size i.schema ≤ ds

/-- Structs are made where there are none, used while they are there, without a pool if no field
is of one, and deleted if they are made to be. -/
def EventOk (p : Program) (s : State) : Event → Prop
  | .create schema ds => p.Fresh s schema ds ∧ p.Plain schema
  | .createWithPool schema ds => p.Fresh s schema ds
  | .createWithAllocator schema ds => p.Fresh s schema ds
  | .clear ds => ∃ i, i ∈ s.find ds ∧ p.Plain i.schema
  | .reconstruct ds => (s.find ds).isSome
  | .delete ds => ∃ i, i ∈ s.find ds ∧ i.owner = .unique
  | .clearPool => True

instance (schema : ℕ) : Decidable (p.Plain schema) := by
  unfold Plain
  infer_instance

instance (schema ds : ℕ) : Decidable (p.Fresh s schema ds) := by
  unfold Fresh
  infer_instance

instance : ∀ e, Decidable (p.EventOk s e)
  | .create schema ds => inferInstanceAs (Decidable (p.Fresh s schema ds ∧ p.Plain schema))
  | .createWithPool schema ds => inferInstanceAs (Decidable (p.Fresh s schema ds))
  | .createWithAllocator schema ds => inferInstanceAs (Decidable (p.Fresh s schema ds))
  | .clear ds => inferInstanceAs (Decidable (∃ i, i ∈ s.find ds ∧ p.Plain i.schema))
  | .reconstruct ds => inferInstanceAs (Decidable (s.find ds).isSome)
  | .delete ds => inferInstanceAs (Decidable (∃ i, i ∈ s.find ds ∧ i.owner = .unique))
  | .clearPool => isTrue trivial

/-! ### The objects of a struct -/

/-- The fields that have constructors. -/
def fields (schema : ℕ) : List Field :=
  (p.schema schema).fieldMap.filter fun f => !f.type.isTrivial

/-- The object in a field of the struct at `ds`. -/
def objectOf (ds : ℕ) (f : Field) : ℕ × TypeInfo :=
  (ds + f.offset, f.type)

/-- The objects in the fields of a struct. -/
def objects (i : Instance) : List (ℕ × TypeInfo) :=
  (p.fields i.schema).map (objectOf i.ds)

/-- The pool destroys the object. -/
def Pooled (x : ℕ × TypeInfo) : Bool :=
  !x.2.isTriviallyDestructible && !x.2.isVoid

/-- The destructor of the struct destroys the object. -/
def Owned (x : ℕ × TypeInfo) : Bool :=
  !x.2.isTriviallyDestructible && x.2.isVoid

/-- What is registered with the pool for a struct. -/
def cleanersOf (i : Instance) : List Cleaner :=
  ((p.objects i).filter Pooled).map .field ++
    if i.owner = .pool then [.struct i.schema i.ds] else []

/-- The objects of a struct that nobody destroys. -/
def leaks (i : Instance) : List (ℕ × TypeInfo) :=
  if i.owner = .allocator then (p.objects i).filter Owned else []

variable {p s} {i j : Instance} {x : ℕ × TypeInfo} {ds schema : ℕ} {pool : Option ℕ}

/-- The objects are in the bytes of the struct. -/
theorem has_of_mem_objects (h : x ∈ p.objects i) :
  p.Has i x.1
  := by
  obtain ⟨f, hf, rfl⟩ := List.mem_map.mp h
  have hinside := (p.laidOut i.schema).inside f (List.mem_of_mem_filter hf)
  have hpos := f.type.size_pos
  rw [objectOf, Has]
  omega

/-- The objects of a struct are at different places. -/
theorem objects_pairwise (i : Instance) :
  (p.objects i).Pairwise fun x y => x.1 ≠ y.1
  := by
  rw [objects, List.pairwise_map]
  apply ((p.laidOut i.schema).apart.sublist List.filter_sublist).imp
  intro f g hapart heq
  have hf := f.type.size_pos
  have hg := g.type.size_pos
  simp only [objectOf] at heq
  omega

theorem objects_nodup (i : Instance) :
  (p.objects i).Nodup
  := by
  apply (objects_pairwise i).imp
  rintro x y hne rfl
  exact hne rfl

/-- `destroy_all` destroys the objects that the struct owns. -/
theorem destroyAll_eq (i : Instance) :
  p.destroyAll i.schema i.ds = (p.objects i).filter Owned
  := by
  rw [destroyAll, (p.registered i.schema).lists.2.2, BaseSchema.destructorsOf, objects, fields,
    List.filter_map, List.filter_filter, List.map_map]
  congr 1
  apply List.filter_congr
  intro f _
  rw [Function.comp_apply, objectOf, Owned]
  cases htrivial : f.type.isTrivial
  · rw [Bool.not_false, Bool.and_true]
  · rw [f.type.trivial_destructible htrivial]
    rfl

/-- The call of a function for a field. -/
def callOf (method : TypeInfo → Method) (ds : ℕ) (pool : Option ℕ) (f : Field) : Call :=
  ⟨method f.type, ds + f.offset, pool, none, f.type.sizeOf⟩

/-- The entries that fill bytes with zero make and unmake no objects, and the others are those of
the fields that have constructors. -/
theorem foldlM_perform {method : TypeInfo → Method} {hmethod : ∀ type, method type ≠ .fillWithZero}
    {entries : List Entry}
    (h : entries = (zeroMerge method hmethod).entries (p.schema schema).fieldMap) (s : State) :
  (entries.map fun entry => entry.call ds pool none).foldlM p.perform s =
    ((p.fields schema).map (callOf method ds pool)).foldlM p.perform s
  := by
  have hfilter : (p.fields schema).map (callOf method ds pool) =
      (entries.filter fun entry => !(zeroMerge method hmethod).joined entry).map
        fun entry => entry.call ds pool none := by
    rw [h, Merge.filter_entries, List.map_map]
    apply List.map_congr_left
    intro f hf
    have htrivial : f.type.isTrivial = false := by
      simpa using (List.mem_filter.mp hf).2
    simp [callOf, zeroMerge, Entry.call, htrivial]
  rw [hfilter, List.foldlM_map, List.foldlM_map, List.foldlM_filter]
  congr 1
  funext s entry
  split
  · rfl
  · next hnot =>
      have hzero : entry.method = .fillWithZero := by
        simpa [zeroMerge] using hnot
      rw [perform, Entry.call, hzero]
      rfl

/-! ### Constructing and clearing -/

/-- A constructor makes the object, and registers it if it is of the pool. -/
theorem perform_construct {f : Field} {o : Objects ℕ TypeInfo}
    (hmake : s.objects.make (objectOf ds f) = some o)
    (hpool : pool.isSome ∨ f.type.isVoid = true) :
  p.perform s (callOf constructMethod ds pool f) = some { s with
    objects := o
    cleaners := s.cleaners ++ ([objectOf ds f].filter Pooled).map .field }
  := by
  have hcall : s.make (ds + f.offset, f.type) = some { s with objects := o } := by
    rw [objectOf] at hmake
    rw [State.make, hmake]
    rfl
  cases hvoid : f.type.isVoid with
  | true => simp [perform, callOf, constructMethod, hvoid, hcall, Pooled, objectOf]
  | false =>
      have hsome : pool.isNone = false := by
        rcases hpool with hpool | hpool
        · rw [Option.isNone_eq_false_iff]
          exact hpool
        · rw [hvoid] at hpool
          cases hpool
      cases hdestructible : f.type.isTriviallyDestructible <;>
        simp [perform, callOf, constructMethod, hvoid, hsome, hcall, hdestructible, Pooled,
          objectOf, State.register]

/-- The constructors make the objects, and register those that are of the pool. -/
theorem foldlM_construct {fs : List Field} {xs : List (ℕ × TypeInfo)} (h : s.objects.Holds xs)
    (hfresh : ∀ f, f ∈ fs → ∀ y, y ∈ xs → y.1 ≠ ds + f.offset)
    (hapart : (fs.map (objectOf ds)).Pairwise fun x y => x.1 ≠ y.1)
    (hpool : pool.isSome ∨ ∀ f, f ∈ fs → f.type.isVoid = true) :
  ∃ o, (fs.map (callOf constructMethod ds pool)).foldlM p.perform s =
      some { s with
        objects := o
        cleaners := s.cleaners ++ ((fs.map (objectOf ds)).filter Pooled).map .field } ∧
    o.Holds (xs ++ fs.map (objectOf ds))
  := by
  induction fs generalizing s xs with
  | nil =>
      refine ⟨s.objects, ?_, ?_⟩
      · rw [List.map_nil, List.map_nil, List.filter_nil, List.map_nil, List.append_nil]
        rfl
      · rw [List.map_nil, List.append_nil]
        exact h
  | cons f fs ih =>
      obtain ⟨hfirst, hrest⟩ := List.pairwise_cons.mp hapart
      obtain ⟨o₁, hmake, h₁⟩ := h.make (x := objectOf ds f) (hfresh f List.mem_cons_self)
      have hone : p.perform s (callOf constructMethod ds pool f) = some { s with
          objects := o₁
          cleaners := s.cleaners ++ ([objectOf ds f].filter Pooled).map .field } :=
        perform_construct hmake (hpool.imp id fun hvoid => hvoid f List.mem_cons_self)
      have hfresh₁ : ∀ g, g ∈ fs → ∀ y, y ∈ xs ++ [objectOf ds f] → y.1 ≠ ds + g.offset := by
        intro g hg y hy
        rcases List.mem_append.mp hy with hy | hy
        · apply hfresh g (List.mem_cons_of_mem f hg) y hy
        · obtain rfl := List.mem_singleton.mp hy
          apply hfirst _ (List.mem_map_of_mem hg)
      obtain ⟨o₂, hfold, h₂⟩ := ih (s := { s with
        objects := o₁
        cleaners := s.cleaners ++ ([objectOf ds f].filter Pooled).map .field }) h₁ hfresh₁ hrest
        (hpool.imp id fun hvoid g hg => hvoid g (List.mem_cons_of_mem f hg))
      refine ⟨o₂, ?_, ?_⟩
      · rw [List.map_cons, List.foldlM_cons, hone]
        refine hfold.trans ?_
        rw [List.map_cons, ← List.singleton_append (l := fs.map (objectOf ds)), List.filter_append,
          List.map_append, List.append_assoc]
      · rw [List.map_cons, ← List.singleton_append, ← List.append_assoc]
        exact h₂

/-- Clearing leaves the objects where they are. -/
theorem foldlM_clear {fs : List Field} {xs : List (ℕ × TypeInfo)} (h : s.objects.Holds xs)
    (hmem : ∀ f, f ∈ fs → objectOf ds f ∈ xs)
    (hpool : pool.isSome ∨ ∀ f, f ∈ fs → f.type.isVoid = true) :
  ∃ o, (fs.map (callOf .reconstruct ds pool)).foldlM p.perform s =
      some { s with objects := o } ∧ o.Holds xs
  := by
  induction fs generalizing s with
  | nil => exact ⟨s.objects, rfl, h⟩
  | cons f fs ih =>
      have hf := hmem f List.mem_cons_self
      have hone : ∃ o, p.perform s (callOf .reconstruct ds pool f) = some { s with objects := o } ∧
          o.Holds xs := by
        have huse : s.use (ds + f.offset, f.type) = some s := if_pos ((h _ _).mpr hf)
        obtain ⟨o, hremake, ho⟩ := h.remake hf
        rw [objectOf] at hremake
        cases hvoid : f.type.isVoid with
        | true =>
            cases hclear : p.clearable f.type with
            | true => exact ⟨s.objects, by simp [perform, callOf, hvoid, hclear, huse], h⟩
            | false => exact ⟨o, by simp [perform, callOf, hvoid, hclear, hremake], ho⟩
        | false =>
            have hsome : pool.isNone = false := by
              rcases hpool with hpool | hpool
              · rw [Option.isNone_eq_false_iff]
                exact hpool
              · have hvoid' := hpool f List.mem_cons_self
                rw [hvoid] at hvoid'
                cases hvoid'
            exact ⟨s.objects, by simp [perform, callOf, hvoid, hsome, huse], h⟩
      obtain ⟨o₁, hperform, h₁⟩ := hone
      obtain ⟨o₂, hfold, h₂⟩ := ih (s := { s with objects := o₁ }) h₁
        (fun g hg => hmem g (List.mem_cons_of_mem f hg))
        (hpool.imp id fun hvoid g hg => hvoid g (List.mem_cons_of_mem f hg))
      refine ⟨o₂, ?_, h₂⟩
      rw [List.map_cons, List.foldlM_cons, hperform]
      exact hfold

/-! ### The programs -/

/-- The structs are apart, their objects are those that are there, the pool is to run the cleaners
of the structs, and what has leaked is what nobody destroys of those released. -/
structure Right (p : Program) (s : State) : Prop where
  holds : s.objects.Holds (s.instances.flatMap p.objects)
  apart : s.instances.Pairwise fun i j =>
    i.ds + p.size i.schema ≤ j.ds ∨ j.ds + p.size j.schema ≤ i.ds
  plain : ∀ i, i ∈ s.instances → i.owner = .unique → p.Plain i.schema
  cleaners : s.cleaners = s.instances.flatMap p.cleanersOf
  leaked : ∀ x, x ∈ s.leaked ↔ ∃ i, i ∈ s.released ∧ x ∈ p.leaks i

/-- A struct that is there and another one have no byte in common. -/
theorem Right.not_has (h : p.Right s) (hi : i ∈ s.instances) (hj : j ∈ s.instances) (hne : i ≠ j)
    {x : ℕ} (hx : p.Has i x) :
  ¬ p.Has j x
  := by
  have : Std.Symm fun i j : Instance =>
      i.ds + p.size i.schema ≤ j.ds ∨ j.ds + p.size j.schema ≤ i.ds := ⟨fun _ _ => Or.symm⟩
  have hapart := h.apart.forall hi hj hne
  intro hx'
  rw [Has] at hx hx'
  omega

theorem plain_fields (h : p.Plain schema) :
  ∀ f, f ∈ p.fields schema → f.type.isVoid = true
  := by
  intro f hf
  obtain ⟨hmem, htrivial⟩ := List.mem_filter.mp hf
  apply h f hmem
  simpa using htrivial

/-- No object of a struct whose fields are of no pool is the pool's. -/
theorem filter_pooled (h : p.Plain i.schema) :
  (p.objects i).filter Pooled = []
  := by
  apply List.filter_eq_nil_iff.mpr
  intro x hx
  obtain ⟨f, hf, rfl⟩ := List.mem_map.mp hx
  rw [Pooled, objectOf, plain_fields h f hf, Bool.not_true, Bool.and_false]
  apply Bool.false_ne_true

theorem foldlM_constructAll (s : State) :
  ((p.schema schema).constructAll ds pool).foldlM p.perform s =
    ((p.fields schema).map (callOf constructMethod ds pool)).foldlM p.perform s
  := foldlM_perform (p.registered schema).lists.1 s

/-- A struct is constructed where there is none. -/
theorem Right.construct (h : p.Right s) (pool : Option ℕ) (hfresh : p.Fresh s i.schema i.ds)
    (hpool : pool.isSome ∨ p.Plain i.schema) :
  ∃ o, p.construct s pool i = some { s with
      objects := o
      cleaners := s.cleaners ++ ((p.objects i).filter Pooled).map .field
      instances := s.instances ++ [i] } ∧
    o.Holds ((s.instances ++ [i]).flatMap p.objects)
  := by
  have hother : ∀ f, f ∈ p.fields i.schema → ∀ y, y ∈ s.instances.flatMap p.objects →
      y.1 ≠ i.ds + f.offset := by
    intro f hf y hy heq
    obtain ⟨j, hj, hy⟩ := List.mem_flatMap.mp hy
    have hhas := has_of_mem_objects hy
    have hhas' := has_of_mem_objects (p := p) (i := i) (List.mem_map_of_mem hf)
    have hapart := hfresh j hj
    rw [Has] at hhas hhas'
    rw [objectOf] at hhas'
    omega
  obtain ⟨o, hfold, ho⟩ := foldlM_construct h.holds hother (objects_pairwise i)
    (hpool.imp id plain_fields)
  refine ⟨o, ?_, ?_⟩
  · rw [Program.construct, foldlM_constructAll, hfold]
    rfl
  · rw [List.flatMap_append, List.flatMap_singleton]
    exact ho

/-- A new struct and its cleaners. -/
theorem Right.add {o : Objects ℕ TypeInfo} {cs : List Cleaner} (h : p.Right s)
    (ho : o.Holds ((s.instances ++ [i]).flatMap p.objects))
    (hfresh : p.Fresh s i.schema i.ds) (hplain : i.owner = .unique → p.Plain i.schema)
    (hcleaners : cs = p.cleanersOf i) :
  p.Right { s with objects := o, cleaners := s.cleaners ++ cs, instances := s.instances ++ [i] }
  := by
  refine ⟨ho, ?_, ?_, ?_, h.leaked⟩
  · apply List.pairwise_append.mpr
    refine ⟨h.apart, List.pairwise_singleton _ i, ?_⟩
    intro j hj j' hj'
    obtain rfl := List.mem_singleton.mp hj'
    apply (hfresh j hj).symm
  · intro j hj
    rcases List.mem_append.mp hj with hj | hj
    · apply h.plain j hj
    · obtain rfl := List.mem_singleton.mp hj
      exact hplain
  · change s.cleaners ++ cs = (s.instances ++ [i]).flatMap p.cleanersOf
    rw [List.flatMap_append, List.flatMap_singleton, ← h.cleaners, hcleaners]

/-- A struct is cleared. -/
theorem Right.clearAll (h : p.Right s) (pool : Option ℕ) (hi : s.find ds = some i)
    (hpool : pool.isSome ∨ p.Plain i.schema) :
  ∃ s', p.clearAll s pool ds = some s' ∧ p.Right s'
  := by
  obtain rfl : i.ds = ds := by
    simpa using List.find?_some hi
  have hmem : i ∈ s.instances := List.mem_of_find?_eq_some hi
  have hthere : ∀ f, f ∈ p.fields i.schema → objectOf i.ds f ∈ s.instances.flatMap p.objects := by
    intro f hf
    apply List.mem_flatMap.mpr
    use i, hmem
    apply List.mem_map_of_mem hf
  obtain ⟨o, hfold, ho⟩ := foldlM_clear h.holds hthere (hpool.imp id plain_fields)
  refine ⟨{ s with objects := o }, ?_, ho, h.apart, h.plain, h.cleaners, h.leaked⟩
  rw [Program.clearAll, hi, Option.bind_some]
  refine (foldlM_perform (p.registered i.schema).lists.2.1 s).trans hfold

/-- What is left in the bytes of a struct. -/
theorem mem_left {o : Objects ℕ TypeInfo} :
  x ∈ p.left o i ↔ p.Has i x.1 ∧ o x.1 = some x.2 ∧ x.2.isTriviallyDestructible = false
  := by
  rw [left, List.mem_filterMap]
  constructor
  · rintro ⟨n, hn, hx⟩
    obtain ⟨type, htype, rfl⟩ := Option.map_eq_some_iff.mp hx
    obtain ⟨ho, hdestructible⟩ := Option.filter_eq_some_iff.mp htype
    refine ⟨⟨Nat.le_add_right i.ds n, ?_⟩, ho, by simpa using hdestructible⟩
    apply Nat.add_lt_add_left (List.mem_range.mp hn)
  · rintro ⟨⟨hlo, hhi⟩, ho, hdestructible⟩
    obtain ⟨n, hn⟩ := Nat.exists_eq_add_of_le hlo
    rw [hn] at hhi ho
    refine ⟨n, List.mem_range.mpr (Nat.lt_of_add_lt_add_left hhi), ?_⟩
    rw [ho]
    simp [hdestructible, Prod.ext_iff, hn]

/-- The memory of structs is released after objects in them have been destroyed. -/
theorem Right.release {gone : List Instance} {ys : List (ℕ × TypeInfo)} {o : Objects ℕ TypeInfo}
    {cs : List Cleaner} (h : p.Right s) (hgone : gone ⊆ s.instances)
    (hys : ∀ x, x ∈ ys → ∃ i, i ∈ gone ∧ x ∈ p.objects i)
    (ho : o.Holds ((s.instances.flatMap p.objects).filter (· ∉ ys)))
    (hleaks : ∀ i, i ∈ gone → ∀ x, x ∈ p.leaks i ↔
      x ∈ p.objects i ∧ x ∉ ys ∧ x.2.isTriviallyDestructible = false)
    (hcleaners : cs = (s.instances.filter (· ∉ gone)).flatMap p.cleanersOf) :
  p.Right (p.release { s with objects := o, cleaners := cs } gone)
  := by
  have hout : ∀ i, i ∈ s.instances → i ∉ gone → ∀ x, x ∈ p.objects i →
      ¬ ∃ j, j ∈ gone ∧ p.Has j x.1 := by
    rintro i hi hnot x hx ⟨j, hj, hhas⟩
    apply h.not_has hi (hgone hj) _ (has_of_mem_objects hx) hhas
    rintro rfl
    exact hnot hj
  refine ⟨?_, h.apart.filter _, ?_, hcleaners, ?_⟩
  · intro x t
    change (if ∃ j, j ∈ gone ∧ p.Has j x then none else o x) = some t ↔
      (x, t) ∈ (s.instances.filter (· ∉ gone)).flatMap p.objects
    rw [List.mem_flatMap]
    constructor
    · intro hx
      split at hx
      · cases hx
      · next hnone =>
          obtain ⟨hmem, -⟩ := List.mem_filter.mp ((ho x t).mp hx)
          obtain ⟨i, hi, hxi⟩ := List.mem_flatMap.mp hmem
          refine ⟨i, ?_, hxi⟩
          rw [List.mem_filter, decide_eq_true_eq]
          use hi
          intro hgone
          apply hnone ⟨i, hgone, has_of_mem_objects hxi⟩
    · rintro ⟨i, hi, hxi⟩
      rw [List.mem_filter, decide_eq_true_eq] at hi
      rw [if_neg (hout i hi.1 hi.2 _ hxi), ho x t, List.mem_filter, decide_eq_true_eq]
      use List.mem_flatMap.mpr ⟨i, hi.1, hxi⟩
      intro hy
      obtain ⟨j, hj, hxj⟩ := hys _ hy
      apply hout i hi.1 hi.2 _ hxi ⟨j, hj, has_of_mem_objects hxj⟩
  · intro i hi
    apply h.plain i (List.mem_of_mem_filter hi)
  · intro x
    change x ∈ s.leaked ++ gone.flatMap (p.left o) ↔ ∃ i, i ∈ s.released ++ gone ∧ x ∈ p.leaks i
    have hgone : x ∈ gone.flatMap (p.left o) ↔ ∃ i, i ∈ gone ∧ x ∈ p.leaks i := by
      rw [List.mem_flatMap]
      apply exists_congr
      intro i
      apply and_congr_right
      intro hi
      rw [mem_left, hleaks i hi, ho, List.mem_filter, decide_eq_true_eq]
      constructor
      · rintro ⟨hhas, ⟨hmem, hnot⟩, hdestructible⟩
        refine ⟨?_, hnot, hdestructible⟩
        obtain ⟨j, hj, hxj⟩ := List.mem_flatMap.mp hmem
        rcases Classical.em (j = i) with rfl | hne
        · exact hxj
        · apply absurd hhas (h.not_has hj (hgone hi) hne (has_of_mem_objects hxj))
      · rintro ⟨hxi, hnot, hdestructible⟩
        exact ⟨has_of_mem_objects hxi, ⟨List.mem_flatMap.mpr ⟨i, hgone hi, hxi⟩, hnot⟩,
          hdestructible⟩
    rw [List.mem_append, h.leaked, hgone]
    constructor
    · rintro (⟨i, hi, hx⟩ | ⟨i, hi, hx⟩)
      · exact ⟨i, List.mem_append_left _ hi, hx⟩
      · exact ⟨i, List.mem_append_right _ hi, hx⟩
    · rintro ⟨i, hi, hx⟩
      rcases List.mem_append.mp hi with hi | hi
      · exact Or.inl ⟨i, hi, hx⟩
      · exact Or.inr ⟨i, hi, hx⟩

theorem flatMap_targets_field (xs : List (ℕ × TypeInfo)) :
  (xs.map Cleaner.field).flatMap p.targets = xs
  := by
  rw [List.flatMap_map]
  apply List.flatMap_singleton'

/-- What the cleaners of a struct destroy: the objects of the pool, and those of the struct if its
destructor is registered. -/
theorem mem_targets :
  x ∈ (p.cleanersOf i).flatMap p.targets ↔
    x ∈ p.objects i ∧ (Pooled x = true ∨ i.owner = .pool ∧ Owned x = true)
  := by
  rw [cleanersOf, List.flatMap_append, flatMap_targets_field, List.mem_append, List.mem_filter]
  split
  · next howner =>
      rw [List.flatMap_singleton, targets, destroyAll_eq, List.mem_filter]
      simp only [howner, true_and]
      tauto
  · next howner =>
      simp only [howner, false_and, or_false, List.flatMap_nil, List.not_mem_nil]

theorem targets_nodup (i : Instance) :
  ((p.cleanersOf i).flatMap p.targets).Nodup
  := by
  rw [cleanersOf, List.flatMap_append, flatMap_targets_field, List.nodup_append]
  refine ⟨(objects_nodup i).filter _, ?_, ?_⟩
  · split
    · rw [List.flatMap_singleton, targets, destroyAll_eq]
      apply (objects_nodup i).filter
    · apply List.nodup_nil
  · intro x hx y hy
    split at hy
    · rw [List.flatMap_singleton, targets, destroyAll_eq] at hy
      rintro rfl
      have hpooled := (List.mem_filter.mp hx).2
      have howned := (List.mem_filter.mp hy).2
      rw [Pooled] at hpooled
      rw [Owned] at howned
      cases hvoid : x.2.isVoid <;> simp [hvoid] at hpooled howned
    · cases hy

theorem mem_leaks :
  x ∈ p.leaks i ↔ i.owner = .allocator ∧ x ∈ p.objects i ∧ Owned x = true
  := by
  rw [leaks]
  split
  · next howner =>
      rw [List.mem_filter]
      simp only [howner, true_and]
  · next howner => simp only [howner, false_and, List.not_mem_nil]

/-- The pool has nothing to do for a struct that is to be deleted. -/
theorem cleanersOf_unique (howner : i.owner = .unique) (h : p.Plain i.schema) :
  p.cleanersOf i = []
  := by
  rw [cleanersOf, filter_pooled h, howner]
  rfl

theorem flatMap_filter_of_nil {α β : Type} {q : α → Bool} {f : α → List β} {xs : List α}
    (h : ∀ x, x ∈ xs → q x = false → f x = []) :
  (xs.filter q).flatMap f = xs.flatMap f
  := by
  induction xs with
  | nil => rfl
  | cons x xs ih =>
      have hrest := ih fun y hy => h y (List.mem_cons_of_mem x hy)
      cases hq : q x with
      | true => rw [List.filter_cons_of_pos hq, List.flatMap_cons, List.flatMap_cons, hrest]
      | false =>
          rw [List.filter_cons_of_neg (by simp [hq]), List.flatMap_cons,
            h x List.mem_cons_self hq, hrest, List.nil_append]

/-- An object that is not trivially destructible is the pool's or the struct's. -/
theorem pooled_or_owned (h : x.2.isTriviallyDestructible = false) :
  Pooled x = true ∨ Owned x = true
  := by
  cases hvoid : x.2.isVoid <;> simp [Pooled, Owned, h, hvoid]

theorem not_pooled_of_owned (h : Owned x = true) :
  x.2.isTriviallyDestructible = false ∧ Pooled x = false
  := by
  rw [Owned, Bool.and_eq_true, Bool.not_eq_true'] at h
  simp [Pooled, h]

/-- A struct is deleted: its destructor destroys all there is to destroy. -/
theorem Right.delete (h : p.Right s) (hi : s.find ds = some i) (howner : i.owner = .unique) :
  ∃ s', p.step s (.delete ds) = some s' ∧ p.Right s'
  := by
  obtain rfl : i.ds = ds := by
    simpa using List.find?_some hi
  have hmem : i ∈ s.instances := List.mem_of_find?_eq_some hi
  have hplain := h.plain i hmem howner
  have hsub : (p.objects i).filter Owned ⊆ s.instances.flatMap p.objects := by
    intro x hx
    apply List.mem_flatMap.mpr ⟨i, hmem, List.mem_of_mem_filter hx⟩
  obtain ⟨o, hunmake, ho⟩ := h.holds.unmakeAll hsub ((objects_nodup i).filter _)
  refine ⟨p.release { s with objects := o } [i], ?_, ?_⟩
  · rw [step, hi, Option.bind_some, destroyAll_eq, hunmake]
    rfl
  · have hgone : [i] ⊆ s.instances := by
      intro j hj
      obtain rfl := List.mem_singleton.mp hj
      exact hmem
    apply h.release hgone _ ho
    · intro j hj x
      obtain rfl := List.mem_singleton.mp hj
      rw [mem_leaks, howner, List.mem_filter]
      constructor
      · rintro ⟨hne, -⟩
        cases hne
      · rintro ⟨hx, hnot, hdestructible⟩
        rcases pooled_or_owned hdestructible with hpooled | howned
        · have hnil := filter_pooled hplain
          rw [List.filter_eq_nil_iff] at hnil
          apply absurd hpooled (hnil x hx)
        · apply absurd ⟨hx, howned⟩ hnot
    · rw [flatMap_filter_of_nil, ← h.cleaners]
      intro j hj hnot
      have hji : j = i := by simpa using hnot
      rw [hji]
      apply cleanersOf_unique howner hplain
    · intro x hx
      exact ⟨i, List.mem_singleton_self i, List.mem_of_mem_filter hx⟩

/-- The pool is cleared: its cleaners destroy all there is to destroy of the structs whose
destructors are registered, and of the others what is of the pool. -/
theorem Right.clearPool (h : p.Right s) :
  ∃ s', p.step s .clearPool = some s' ∧ p.Right s'
  := by
  have hassoc : s.cleaners.flatMap p.targets =
      s.instances.flatMap fun i => (p.cleanersOf i).flatMap p.targets := by
    rw [h.cleaners, List.flatMap_assoc]
  have hys : ∀ x, x ∈ s.cleaners.flatMap p.targets ↔ ∃ i, i ∈ s.instances ∧
      x ∈ p.objects i ∧ (Pooled x = true ∨ i.owner = .pool ∧ Owned x = true) := by
    intro x
    rw [hassoc, List.mem_flatMap]
    apply exists_congr
    intro i
    rw [mem_targets]
  have hsub : s.cleaners.flatMap p.targets ⊆ s.instances.flatMap p.objects := by
    intro x hx
    obtain ⟨i, hi, hxi, -⟩ := (hys x).mp hx
    apply List.mem_flatMap.mpr ⟨i, hi, hxi⟩
  have hnodup : (s.cleaners.flatMap p.targets).Nodup := by
    rw [hassoc, List.nodup_flatMap]
    use fun i _ => targets_nodup i
    apply h.apart.imp
    intro i j hapart x hx hx'
    have hhas := has_of_mem_objects (mem_targets.mp hx).1
    have hhas' := has_of_mem_objects (mem_targets.mp hx').1
    rw [Has] at hhas hhas'
    omega
  obtain ⟨o, hunmake, ho⟩ := h.holds.unmakeAll hsub hnodup
  refine ⟨p.release { s with objects := o, cleaners := [] }
    (s.instances.filter fun i => i.owner ≠ .unique), ?_, ?_⟩
  · rw [step, hunmake]
    rfl
  · have hgone : ∀ i, i ∈ s.instances.filter (fun i => i.owner ≠ .unique) ↔
        i ∈ s.instances ∧ i.owner ≠ .unique := by
      intro i
      rw [List.mem_filter, decide_eq_true_eq]
    apply h.release (fun i hi => ((hgone i).mp hi).1) _ ho
    · intro i hi x
      obtain ⟨hmem, howner⟩ := (hgone i).mp hi
      rw [mem_leaks, hys]
      constructor
      · rintro ⟨hallocator, hx, howned⟩
        obtain ⟨hdestructible, hpooled⟩ := not_pooled_of_owned howned
        refine ⟨hx, ?_, hdestructible⟩
        rintro ⟨j, hj, hxj, hpooled' | ⟨hpool, -⟩⟩
        · rw [hpooled] at hpooled'
          cases hpooled'
        · rcases Classical.em (j = i) with rfl | hne
          · rw [hallocator] at hpool
            cases hpool
          · apply h.not_has hj hmem hne (has_of_mem_objects hxj) (has_of_mem_objects hx)
      · rintro ⟨hx, hnot, hdestructible⟩
        rcases pooled_or_owned hdestructible with hpooled | howned
        · apply absurd ⟨i, hmem, hx, Or.inl hpooled⟩ hnot
        · refine ⟨?_, hx, howned⟩
          cases hcase : i.owner with
          | unique => apply absurd hcase howner
          | pool => apply absurd ⟨i, hmem, hx, Or.inr ⟨hcase, howned⟩⟩ hnot
          | allocator => rfl
    · symm
      apply List.flatMap_eq_nil_iff.mpr
      intro i hi
      rw [List.mem_filter, decide_eq_true_eq, hgone] at hi
      have howner : i.owner = .unique := by
        by_contra hne
        apply hi.2 ⟨hi.1, hne⟩
      apply cleanersOf_unique howner (h.plain i hi.1 howner)
    · intro x hx
      obtain ⟨i, hi, hxi, hwho⟩ := (hys x).mp hx
      refine ⟨i, (hgone i).mpr ⟨hi, ?_⟩, hxi⟩
      intro howner
      have htargets : x ∈ (p.cleanersOf i).flatMap p.targets := mem_targets.mpr ⟨hxi, hwho⟩
      rw [cleanersOf_unique howner (h.plain i hi howner)] at htargets
      cases htargets

/-- Every event of a program can take place, and keeps everything right. -/
theorem Right.step {e : Event} (h : p.Right s) (hok : p.EventOk s e) :
  ∃ s', p.step s e = some s' ∧ p.Right s'
  := by
  cases e with
  | create schema ds =>
      obtain ⟨hfresh, hplain⟩ := hok
      obtain ⟨o, hconstruct, ho⟩ := h.construct (i := ⟨schema, ds, .unique⟩) none
        hfresh (Or.inr hplain)
      exact ⟨_, hconstruct, h.add ho hfresh (fun _ => hplain) (List.append_nil _).symm⟩
  | createWithPool schema ds =>
      obtain ⟨o, hconstruct, ho⟩ := h.construct (i := ⟨schema, ds, .pool⟩) (some 0) hok
        (Or.inl rfl)
      have hadd := h.add ho hok nofun rfl
      refine ⟨_, ?_, hadd⟩
      rw [Program.step, hconstruct, cleanersOf, if_pos rfl, ← List.append_assoc]
      rfl
  | createWithAllocator schema ds =>
      obtain ⟨o, hconstruct, ho⟩ := h.construct (i := ⟨schema, ds, .allocator⟩) (some 0)
        hok (Or.inl rfl)
      exact ⟨_, hconstruct, h.add ho hok nofun (List.append_nil _).symm⟩
  | clear ds =>
      obtain ⟨i, hi, hplain⟩ := hok
      apply h.clearAll none hi (Or.inr hplain)
  | reconstruct ds =>
      obtain ⟨i, hi⟩ := Option.isSome_iff_exists.mp hok
      apply h.clearAll (some 0) hi (Or.inl rfl)
  | delete ds =>
      obtain ⟨i, hi, howner⟩ := hok
      apply h.delete hi howner
  | clearPool => apply h.clearPool

theorem right_start :
  p.Right start
  := ⟨Objects.holds_nil, List.Pairwise.nil, nofun, rfl, by simp [start]⟩

/-- Every program that makes structs where there are none, gives a pool where one is needed, and
deletes what is to be deleted can do all its events.  The objects that are there are those in the
fields of the structs that are there; and those that are left in the memory that is released are
the fields of structs made with an allocator that only the destructors of these would destroy. -/
theorem fields_unmade {es : List Event} (hok : p.machine.Steps p.EventOk start es) :
  ∃ s, p.machine.run start es = some s ∧
    (∀ x type, s.objects x = some type ↔ ∃ i, i ∈ s.instances ∧
      ∃ f, f ∈ (p.schema i.schema).fieldMap ∧ f.type.isTrivial = false ∧
        x = i.ds + f.offset ∧ type = f.type) ∧
    ∀ x, x ∈ s.leaked ↔ ∃ i, i ∈ s.released ∧ i.owner = .allocator ∧
      ∃ f, f ∈ (p.schema i.schema).fieldMap ∧ f.type.isTriviallyDestructible = false ∧
        f.type.isVoid = true ∧ x = (i.ds + f.offset, f.type)
  := by
  obtain ⟨s, hrun, h⟩ := Machine.run_progress (I := p.Right)
    (fun s e h hok => h.step hok) hok right_start
  refine ⟨s, hrun, ?_, ?_⟩
  · intro x type
    rw [h.holds x type, List.mem_flatMap]
    apply exists_congr
    intro i
    apply and_congr_right
    intro _
    rw [objects, List.mem_map]
    apply exists_congr
    intro f
    rw [fields, List.mem_filter, objectOf, Prod.mk.injEq, Bool.not_eq_true', and_assoc,
      eq_comm (b := x), eq_comm (b := type)]
  · intro x
    rw [h.leaked x]
    apply exists_congr
    intro i
    apply and_congr_right
    intro _
    rw [mem_leaks]
    apply and_congr_right
    intro _
    rw [← List.mem_filter, ← destroyAll_eq, destroyAll, (p.registered i.schema).lists.2.2,
      BaseSchema.destructorsOf, List.map_map, List.mem_map]
    apply exists_congr
    intro f
    rw [List.mem_filter, Bool.and_eq_true, Bool.not_eq_true', and_assoc, and_assoc,
      Function.comp_apply, eq_comm (b := x)]

end Program

/-- A string that is not of a pool. -/
def heapString : TypeInfo :=
  plainType 5 3 3 false false none

/-- A struct with a number and a string. -/
def plainSchema : BaseSchema :=
  newSchema.register [⟨int32, "id", npos⟩, ⟨heapString, "text", npos⟩]

/-- A struct with a string of the pool, too. -/
def mixedSchema : BaseSchema :=
  newSchema.register
    [⟨heapString, "text", npos⟩, ⟨pooledString, "name", npos⟩, ⟨int32, "id", npos⟩]

def strings : Program where
  schema k := if k = 0 then plainSchema else mixedSchema
  size k := if k = 0 then plainSchema.allocateSize - sizeofMeta
    else mixedSchema.allocateSize - sizeofMeta
  clearable type := type = pooledString
  laidOut k := by
    split
    · apply (BaseSchema.packed_register (by decide) (by decide +kernel)).sound.laidOut
      decide +kernel
    · apply (BaseSchema.packed_register (by decide) (by decide +kernel)).sound.laidOut
      decide +kernel
  registered k := by
    split
    · exact ⟨_, Or.inl rfl⟩
    · exact ⟨_, Or.inl rfl⟩

/-- A struct is made in each way, and everything is released. -/
def threeStructs : List Event :=
  [.create 0 4104, .createWithPool 1 8200, .createWithAllocator 1 12296, .clear 4104,
    .reconstruct 12296, .delete 4104, .clearPool]

theorem fields_unmade_threeStructs :
  ∃ s, strings.machine.run Program.start threeStructs = some s ∧ s.instances = [] ∧
    (∀ x, s.objects x = none) ∧ s.leaked = [(12296, heapString)]
  := by
  have hok : strings.machine.Steps strings.EventOk Program.start threeStructs := by
    decide +kernel
  obtain ⟨s, hs, hobjects, -⟩ := Program.fields_unmade hok
  have hrun : (strings.machine.run Program.start threeStructs).all fun s =>
      decide (s.instances = [] ∧ s.leaked = [(12296, heapString)]) := by
    decide +kernel
  rw [hs, Option.all_some, decide_eq_true_eq] at hrun
  obtain ⟨hinstances, hleaked⟩ := hrun
  refine ⟨s, hs, hinstances, ?_, hleaked⟩
  intro x
  rcases hx : s.objects x with _ | type
  · rfl
  · obtain ⟨i, hi, -⟩ := (hobjects x type).mp hx
    rw [hinstances] at hi
    cases hi

end Lifetimes

end DynamicStruct
