import CppFreshman.Heap.Objects
import CppFreshman.Schema.Lifetimes
import Mathlib.Algebra.BigOperators.Group.List.Basic

/-!
# Metadata of the instances of a pool

`update_allocation_metadata` makes a metadata object for each field whose type uses one, when it is
called for the first time, and updates the objects with the fields of all instances of the pool;
the destructor of `AllocationMetadata` deletes them.  The creators, the updators and the deletors
are found by the index of the field.

Over all events of a program a metadata object is updated by the fields that it has been made for,
in the order of the updates, as if there were no other metadata; it is deleted as what it has been
made as, and stands at one place as long as it is there (`updated_alone`).  That takes that no field
is registered with a schema while there is metadata of it, and that the pools that update one
metadata have one schema.
-/

namespace DynamicStruct

open BaseSchema (Registration)

/-- What handles the metadata of a field, if its type uses metadata. -/
def Field.metadataType (f : Field) : Option TypeInfo :=
  if f.type.useMetadata then some f.type else none

theorem Field.metadataType_eq_some {f : Field} {type : TypeInfo} :
  f.metadataType = some type ↔ f.type.useMetadata = true ∧ f.type = type
  := by
  rw [metadataType]
  split <;> simp_all

namespace BaseSchema

variable {s : BaseSchema}

/-- The lists for the metadata are in step with the fields. -/
structure MetadataLists (s : BaseSchema) : Prop where
  creators : s.metadataCreator = s.fieldMap.map Field.metadataType
  deletors : s.metadataDeletor = s.fieldMap.map Field.metadataType
  updators : s.metadataUpdator = s.fieldMap.map fun f => (f.offset, f.metadataType)

theorem registerField_of_find {c : Registration} (h : s.find c.name ≠ none) :
  (s.registerField c.type c.name c.offset).1 = s
  := by
  obtain ⟨field, -, heq⟩ | ⟨hnone, -⟩ := s.registerField_cases c
  · rw [heq]
  · apply absurd hnone h

theorem MetadataLists.registerField (h : s.MetadataLists) (c : Registration) :
  (s.registerField c.type c.name c.offset).1.MetadataLists
  := by
  obtain ⟨fieldType, schema, heq⟩ := s.registerField_eq c
  rw [heq, registerFieldAs]
  rcases hfind : s.find c.name with _ | field
  · have hplace : (s.place c.type c.offset).1.MetadataLists ∧
        (s.place c.type c.offset).1.fieldMap = s.fieldMap := by
      rw [place]
      split
      · exact ⟨⟨h.creators, h.deletors, h.updators⟩, rfl⟩
      · exact ⟨h, rfl⟩
    obtain ⟨⟨hcreators, hdeletors, hupdators⟩, hfields⟩ := hplace
    let f : Field := ⟨(s.place c.type c.offset).2, c.name, c.type, fieldType, schema⟩
    have hlist : f.metadataType = if c.type.useMetadata then some c.type else none := rfl
    constructor
    · change (s.place c.type c.offset).1.metadataCreator ++ _ =
        ((s.place c.type c.offset).1.fieldMap ++ [f]).map Field.metadataType
      rw [List.map_append, hcreators, List.map_singleton, hlist]
    · change (s.place c.type c.offset).1.metadataDeletor ++ _ =
        ((s.place c.type c.offset).1.fieldMap ++ [f]).map Field.metadataType
      rw [List.map_append, hdeletors, List.map_singleton, hlist]
    · change (s.place c.type c.offset).1.metadataUpdator ++ _ =
        ((s.place c.type c.offset).1.fieldMap ++ [f]).map fun f => (f.offset, f.metadataType)
      rw [List.map_append, hupdators]
      rfl
  · exact h

theorem Registered.metadataLists (h : s.Registered) :
  s.MetadataLists
  := by
  have hregister : ∀ calls, (newSchema.register calls).MetadataLists := by
    intro calls
    induction calls using List.reverseRecOn with
    | nil => exact ⟨rfl, rfl, rfl⟩
    | append_singleton calls c ih =>
        rw [register_concat]
        apply ih.registerField c
  obtain ⟨calls, rfl | ⟨size, align, rfl⟩⟩ := h
  · apply hregister
  · obtain ⟨hcreators, hdeletors, hupdators⟩ := hregister calls
    exact ⟨hcreators, hdeletors, hupdators⟩

end BaseSchema

namespace Updates

variable {γ δ : Type}

/-- What the library does with metadata: the value of a new object, and what
`update_allocation_metadata` makes of the value with the contents of a field, and the size that it
returns. -/
structure Traits (γ δ : Type) where
  fresh : TypeInfo → γ
  update : TypeInfo → δ → γ → γ × ℕ

/-- `ReuseDynamicStructPool::AllocationMetadata`, with the members of its `ds_metadata`. -/
structure Metadata where
  metadatas : List (Option ℕ)
  schema : Option ℕ
  size : ℕ
  deriving DecidableEq

/-- The schemas, the metadata objects and their values, which are numbered as they are made, and
the metadata of the pools; and two histories that no step reads: the instances that a metadata has
been updated with, and the sum of the sizes that have been returned. -/
structure State (γ δ : Type) where
  schemas : ℕ → BaseSchema
  objects : Objects ℕ TypeInfo
  values : ℕ → γ
  made : ℕ
  metadata : ℕ → Option Metadata
  seen : ℕ → List (ℕ → δ)
  reported : ℕ → ℕ

/-- What a program does: a field is registered, and a metadata is made, updated by a pool and
destroyed.  A pool is given by its schema and the instances, these by what they hold at each
offset. -/
inductive Event (δ : Type) where
  | registerField (k : ℕ) (c : Registration)
  | make (m : ℕ)
  | updateAllocationMetadata (m k : ℕ) (instances : List (ℕ → δ))
  | destroy (m : ℕ)

namespace State

variable (traits : Traits γ δ)

/-- `create_meta`. -/
def createMeta (s : State γ δ) (type : TypeInfo) : Option (State γ δ × ℕ) :=
  (s.objects.make (s.made, type)).map fun objects =>
    ({ s with
        objects
        values := Function.update s.values s.made (traits.fresh type)
        made := s.made + 1 }, s.made)

/-- The loop over the creators in `update_allocation_metadata`. -/
def createAll (s : State γ δ) : List (Option TypeInfo) → Option (State γ δ × List (Option ℕ))
  | [] => some (s, [])
  | none :: creators => do
      let (s, metadatas) ← createAll s creators
      some (s, none :: metadatas)
  | some type :: creators => do
      let (s, u) ← s.createMeta traits type
      let (s, metadatas) ← createAll s creators
      some (s, some u :: metadatas)

/-- `update_metadata` of a type. -/
def updateMeta (s : State γ δ) (type : TypeInfo) (x : δ) (u : ℕ) : Option (State γ δ × ℕ) :=
  if s.objects u = some type then
    some ({ s with values := Function.update s.values u (traits.update type x (s.values u)).1 },
      (traits.update type x (s.values u)).2)
  else none

/-- The loop of `BaseSchema::update_metadata` from the index `i` on; it fails if it reads behind
the end of `metadatas`. -/
def updateFrom (x : ℕ → δ) (metadatas : List (Option ℕ)) :
    ℕ → List (ℕ × Option TypeInfo) → State γ δ × ℕ → Option (State γ δ × ℕ)
  | _, [], s => some s
  | i, (_, none) :: updators, s => updateFrom x metadatas (i + 1) updators s
  | i, (offset, some type) :: updators, s =>
      metadatas[i]?.bind fun
        | none => updateFrom x metadatas (i + 1) updators s
        | some u => (s.1.updateMeta traits type (x offset) u).bind fun r =>
            updateFrom x metadatas (i + 1) updators (r.1, (s.2 + r.2) % 2 ^ 64)

/-- The loop over the instances in `update_allocation_metadata`. -/
def updateInstances (schema : BaseSchema) (metadatas : List (Option ℕ)) :
    List (ℕ → δ) → State γ δ × ℕ → Option (State γ δ × ℕ)
  | [], s => some s
  | x :: xs, s =>
      (updateFrom traits x metadatas 0 schema.metadataUpdator (s.1, 0)).bind fun r =>
        updateInstances schema metadatas xs (r.1, (s.2 + r.2) % 2 ^ 64)

/-- A metadata is given a schema and its objects, if it has no schema. -/
def withSchema (s : State γ δ) (m k : ℕ) : Option (State γ δ) :=
  (s.metadata m).bind fun data =>
    match data.schema with
    | some _ => some s
    | none => (s.createAll traits (s.schemas k).metadataCreator).map fun r =>
        { r.1 with metadata := Function.update r.1.metadata m (some { data with
            metadatas := data.metadatas ++ r.2
            schema := some k }) }

/-- `update_allocation_metadata`. -/
def updateAllocationMetadata (s : State γ δ) (m k : ℕ) (instances : List (ℕ → δ)) :
    Option (State γ δ) := do
  let s ← s.withSchema traits m k
  let data ← s.metadata m
  let schema ← data.schema
  let (s, size) ← updateInstances traits (s.schemas schema) data.metadatas instances (s, 0)
  some { s with
    metadata := Function.update s.metadata m (some { data with size := instances.length })
    seen := Function.update s.seen m (s.seen m ++ instances)
    reported := Function.update s.reported m (s.reported m + size) }

/-- The loop of the destructor from the index `i` on: `destroy_metadata` calls the deletor, if there
is one, and fails behind the end of them. -/
def destroyFrom (deletors : List (Option TypeInfo)) :
    ℕ → List (Option ℕ) → Objects ℕ TypeInfo → Option (Objects ℕ TypeInfo)
  | _, [], objects => some objects
  | i, none :: metadatas, objects => destroyFrom deletors (i + 1) metadatas objects
  | i, some u :: metadatas, objects =>
      deletors[i]?.bind fun
        | none => destroyFrom deletors (i + 1) metadatas objects
        | some type => (objects.unmake (u, type)).bind fun objects =>
            destroyFrom deletors (i + 1) metadatas objects

/-- The destructor; it deletes nothing if the schema is null. -/
def destroyAll (s : State γ δ) (data : Metadata) : Option (Objects ℕ TypeInfo) :=
  match data.schema with
  | none => some s.objects
  | some k => destroyFrom (s.schemas k).metadataDeletor 0 data.metadatas s.objects

def destroy (s : State γ δ) (m : ℕ) : Option (State γ δ) := do
  let data ← s.metadata m
  let objects ← s.destroyAll data
  some { s with
    objects
    metadata := Function.update s.metadata m none
    seen := Function.update s.seen m []
    reported := Function.update s.reported m 0 }

/-- A field is registered with a schema. -/
def registerField (s : State γ δ) (k : ℕ) (c : Registration) : State γ δ :=
  let schema := ((s.schemas k).registerField c.type c.name c.offset).1
  { s with schemas := Function.update s.schemas k schema }

/-- What an event does. -/
def step (s : State γ δ) : Event δ → Option (State γ δ)
  | .registerField k c => some (s.registerField k c)
  | .make m =>
      if (s.metadata m).isNone then
        some { s with metadata := Function.update s.metadata m (some ⟨[], none, 0⟩) }
      else none
  | .updateAllocationMetadata m k instances => s.updateAllocationMetadata traits m k instances
  | .destroy m => s.destroy m

end State

def machine (traits : Traits γ δ) : Machine (State γ δ) (Event δ) where
  step := State.step traits

/-- No metadata. -/
def start (schemas : ℕ → BaseSchema) (values : ℕ → γ) : State γ δ where
  schemas := schemas
  objects _ := none
  values := values
  made := 0
  metadata _ := none
  seen _ := []
  reported _ := 0

/-- No field is registered with a schema while there is metadata of it, and a metadata is updated
by pools of one schema while it is there. -/
def EventOk (s : State γ δ) : Event δ → Prop
  | .registerField k c => (s.schemas k).find c.name ≠ none ∨
      ∀ m data, s.metadata m = some data → data.schema ≠ some k
  | .make m => s.metadata m = none
  | .updateAllocationMetadata m k _ =>
      ∃ data, s.metadata m = some data ∧ (data.schema = none ∨ data.schema = some k)
  | .destroy m => s.metadata m ≠ none

/-! ### The metadata of one field -/

/-- What the metadata of a field is after updates with instances if there is no other, and the sum
of the sizes that the updates return. -/
def Traits.alone (traits : Traits γ δ) (f : Field) (instances : List (ℕ → δ)) : γ × ℕ :=
  instances.foldl (fun r x =>
    ((traits.update f.type (x f.offset) r.1).1, r.2 + (traits.update f.type (x f.offset) r.1).2))
    (traits.fresh f.type, 0)

/-- The fields that use metadata, each with its object. -/
def entries : List Field → List (Option ℕ) → List (Field × ℕ)
  | f :: fs, some u :: metadatas => (f, u) :: entries fs metadatas
  | _ :: fs, none :: metadatas => entries fs metadatas
  | [], _ => []
  | _ :: _, [] => []

/-- There is an object for each field that uses metadata, at its index. -/
def Aligned (fs : List Field) (metadatas : List (Option ℕ)) : Prop :=
  List.Forall₂ (fun f u => u.isSome = f.type.useMetadata) fs metadatas

/-- The sum of the sizes that all updates of the metadata with the instances return. -/
def Traits.total (traits : Traits γ δ) (es : List (Field × ℕ)) (instances : List (ℕ → δ)) : ℕ :=
  (es.map fun e => (traits.alone e.1 instances).2).sum

variable {traits : Traits γ δ} {s t : State γ δ} {fs : List Field} {metadatas : List (Option ℕ)}
  {es : List (Field × ℕ)} {seen xs : List (ℕ → δ)} {x : ℕ → δ} {f f' : Field}
  {m m' k u n : ℕ} {type : TypeInfo} {schema : BaseSchema}

theorem alone_concat :
  traits.alone f (xs ++ [x]) =
    ((traits.update f.type (x f.offset) (traits.alone f xs).1).1,
      (traits.alone f xs).2 + (traits.update f.type (x f.offset) (traits.alone f xs).1).2)
  := by
  rw [Traits.alone, List.foldl_append]
  rfl

theorem total_nil :
  traits.total es [] = 0
  := by
  apply List.sum_eq_zero
  intro n hn
  obtain ⟨e, -, rfl⟩ := List.mem_map.mp hn
  rfl

theorem total_concat :
  traits.total es (xs ++ [x]) = traits.total es xs +
    (es.map fun e => (traits.update e.1.type (x e.1.offset) (traits.alone e.1 xs).1).2).sum
  := by
  simp only [Traits.total, alone_concat]
  apply List.sum_map_add

/-- The entries are the fields that use metadata. -/
theorem Aligned.map_entries (h : Aligned fs metadatas) :
  (entries fs metadatas).map Prod.fst = fs.filter fun f => f.type.useMetadata
  := by
  induction h with
  | nil => rfl
  | @cons f u fs metadatas hu hrest ih =>
      rcases u with _ | u
      · rw [List.filter_cons_of_neg (by simp [← hu])]
        exact ih
      · rw [List.filter_cons_of_pos (by simp [← hu]), entries, List.map_cons, ih]

/-- A field that uses metadata has its object at its index, and no other field has one. -/
theorem Aligned.getElem? (h : Aligned fs metadatas) {i : ℕ} (hf : fs[i]? = some f) :
  if f.type.useMetadata then
    ∃ u, metadatas[i]? = some (some u) ∧ (f, u) ∈ entries fs metadatas
  else metadatas[i]? = some none
  := by
  induction h generalizing i with
  | nil => cases hf
  | @cons f' u fs metadatas hu hrest ih =>
      rcases i with _ | i
      · obtain rfl := Option.some.inj hf
        rcases u with _ | u
        · rw [if_neg (by simp [← hu])]
          rfl
        · rw [if_pos (by simp [← hu])]
          exact ⟨u, rfl, List.mem_cons_self⟩
      · have hi := ih hf
        split at hi
        · next huse =>
            obtain ⟨w, hw, hmem⟩ := hi
            rw [if_pos huse]
            refine ⟨w, hw, ?_⟩
            rcases u with _ | u
            · exact hmem
            · apply List.mem_cons_of_mem _ hmem
        · next hnot =>
            rw [if_neg hnot]
            exact hi

/-- An object that stands at an index is the metadata of the field there. -/
theorem Aligned.mem_entries (h : Aligned fs metadatas) {i : ℕ}
    (hu : metadatas[i]? = some (some u)) :
  ∃ f, fs[i]? = some f ∧ (f, u) ∈ entries fs metadatas
  := by
  have hlt : i < fs.length := by
    rw [List.Forall₂.length_eq h]
    apply (List.getElem?_eq_some_iff.mp hu).1
  obtain ⟨f, hf⟩ : ∃ f, fs[i]? = some f := ⟨_, List.getElem?_eq_getElem hlt⟩
  refine ⟨f, hf, ?_⟩
  have hi := h.getElem? hf
  split at hi
  · obtain ⟨w, hw, hmem⟩ := hi
    obtain rfl := Option.some.inj (Option.some.inj (hu.symm.trans hw))
    exact hmem
  · cases hu.symm.trans hi

/-- An object of a field stands at an index. -/
theorem Aligned.exists_getElem? (h : Aligned fs metadatas) (he : (f, u) ∈ entries fs metadatas) :
  ∃ i : ℕ, metadatas[i]? = some (some u)
  := by
  induction h with
  | nil => cases he
  | @cons f' w fs metadatas hw hrest ih =>
      rcases w with _ | w
      · obtain ⟨i, hi⟩ := ih he
        exact ⟨i + 1, hi⟩
      · obtain heq | he := List.mem_cons.mp he
        · cases heq
          exact ⟨0, rfl⟩
        · obtain ⟨i, hi⟩ := ih he
          exact ⟨i + 1, hi⟩

/-- An object stands at one index. -/
theorem Aligned.index_unique (h : Aligned fs metadatas)
    (hnodup : ((entries fs metadatas).map Prod.snd).Nodup) {i j : ℕ}
    (hi : metadatas[i]? = some (some u)) (hj : metadatas[j]? = some (some u)) :
  i = j
  := by
  induction h generalizing i j with
  | nil => cases hi
  | @cons f w fs metadatas hw hrest ih =>
      rcases w with _ | w
      · rcases i with _ | i
        · cases hi
        · rcases j with _ | j
          · cases hj
          · rw [ih hnodup hi hj]
      · obtain ⟨hnot, hnodup⟩ := List.nodup_cons.mp hnodup
        have hlater : ∀ i : ℕ, metadatas[i]? ≠ some (some w) := by
          intro i hi
          obtain ⟨f', -, hmem⟩ := Aligned.mem_entries hrest hi
          apply hnot (List.mem_map.mpr ⟨(f', w), hmem, rfl⟩)
        rcases i with _ | i
        · rcases j with _ | j
          · rfl
          · cases hi
            apply absurd hj (hlater j)
        · rcases j with _ | j
          · cases hj
            apply absurd hi (hlater i)
          · rw [ih hnodup hi hj]

/-! ### The loops -/

/-- The values are others. -/
def State.withValues (s : State γ δ) (values : ℕ → γ) : State γ δ :=
  { s with values }

/-- The update of one metadata. -/
def updateEntry (traits : Traits γ δ) (x : ℕ → δ) (s : State γ δ × ℕ) (e : Field × ℕ) :
    Option (State γ δ × ℕ) :=
  (s.1.updateMeta traits e.1.type (x e.1.offset) e.2).map fun r =>
    (r.1, (s.2 + r.2) % 2 ^ 64)

/-- The loop over the updators is one over the fields that use metadata. -/
theorem updateFrom_eq (h : Aligned fs metadatas) (before : List (Option ℕ))
    (s : State γ δ × ℕ) :
  State.updateFrom traits x (before ++ metadatas) before.length
    (fs.map fun f => (f.offset, f.metadataType)) s =
      (entries fs metadatas).foldlM (updateEntry traits x) s
  := by
  induction h generalizing before s with
  | nil => rfl
  | @cons f u fs metadatas hu hrest ih =>
      have hbefore : before ++ u :: metadatas = (before ++ [u]) ++ metadatas := by
        rw [List.append_assoc, List.singleton_append]
      have hlength : before.length + 1 = (before ++ [u]).length := by
        rw [List.length_append, List.length_singleton]
      rcases u with _ | u
      · have htype : f.metadataType = none := by
          rw [Field.metadataType, if_neg (by simp [← hu])]
        rw [List.map_cons, htype, State.updateFrom, hbefore, hlength, ih]
        rfl
      · have htype : f.metadataType = some f.type := by
          rw [Field.metadataType, if_pos (by simp [← hu])]
        have hget : (before ++ some u :: metadatas)[before.length]? = some (some u) := by
          rw [List.getElem?_append_right (Nat.le_refl _), Nat.sub_self]
          rfl
        rw [List.map_cons, htype, State.updateFrom, hget, Option.bind_some, entries,
          List.foldlM_cons, updateEntry, hbefore, hlength]
        simp only [ih]
        cases s.1.updateMeta traits f.type (x f.offset) u <;> rfl

/-- The metadata of all fields are updated with an instance, each once and by its own field. -/
theorem updateEntries (traits : Traits γ δ) (x : ℕ → δ)
    (hobjects : ∀ e, e ∈ es → s.objects e.2 = some e.1.type)
    (hnodup : (es.map Prod.snd).Nodup) (hn : n < 2 ^ 64) :
  ∃ values : ℕ → γ, es.foldlM (updateEntry traits x) (s, n) = some (s.withValues values, (n +
      (es.map fun e => (traits.update e.1.type (x e.1.offset) (s.values e.2)).2).sum) % 2 ^ 64) ∧
    (∀ e, e ∈ es →
      values e.2 = (traits.update e.1.type (x e.1.offset) (s.values e.2)).1) ∧
    ∀ u, u ∉ es.map Prod.snd → values u = s.values u
  := by
  induction es generalizing s n with
  | nil =>
      refine ⟨s.values, ?_, fun e he => absurd he List.not_mem_nil, fun _ _ => rfl⟩
      rw [List.map_nil, List.sum_nil, Nat.add_zero, Nat.mod_eq_of_lt hn]
      rfl
  | cons e es ih =>
      obtain ⟨hnot, hnodup⟩ := List.nodup_cons.mp hnodup
      let r := traits.update e.1.type (x e.1.offset) (s.values e.2)
      let s₁ := s.withValues (Function.update s.values e.2 r.1)
      have hother : ∀ u, u ≠ e.2 → s₁.values u = s.values u := by
        intro u hu
        apply Function.update_of_ne hu
      have hne : ∀ e', e' ∈ es → s₁.values e'.2 = s.values e'.2 := by
        intro e' he'
        apply hother
        intro heq
        apply hnot
        rw [← heq]
        apply List.mem_map_of_mem he'
      obtain ⟨values, hrun, hes, hrest⟩ :=
        ih (s := s₁) (fun e' he' => hobjects e' (List.mem_cons_of_mem e he')) hnodup
          (Nat.mod_lt (n + r.2) (Nat.two_pow_pos 64))
      use values
      constructor
      · have hstep : updateEntry traits x (s, n) e = some (s₁, (n + r.2) % 2 ^ 64) := by
          rw [updateEntry, State.updateMeta, if_pos (hobjects e List.mem_cons_self)]
          rfl
        have hmap : (es.map fun e' =>
            (traits.update e'.1.type (x e'.1.offset) (s₁.values e'.2)).2) =
            es.map fun e' => (traits.update e'.1.type (x e'.1.offset) (s.values e'.2)).2 := by
          apply List.map_congr_left
          intro e' he'
          rw [hne e' he']
        rw [List.foldlM_cons, hstep, Option.bind_eq_bind, Option.bind_some, hrun, Nat.mod_add_mod,
          hmap, List.map_cons, List.sum_cons, Nat.add_assoc]
        rfl
      constructor
      · intro e' he'
        obtain rfl | he' := List.mem_cons.mp he'
        · rw [hrest _ hnot]
          apply Function.update_self
        · rw [hes e' he', hne e' he']
      · intro u hu
        rw [List.map_cons, List.mem_cons, not_or] at hu
        rw [hrest u hu.2, hother u hu.1]

/-- The metadata of all fields are updated with all instances, each as if there were no other. -/
theorem updateInstances_spec (base : ℕ) (xs : List (ℕ → δ)) (hlists : schema.MetadataLists)
    (h : Aligned schema.fieldMap metadatas) (hes : es = entries schema.fieldMap metadatas)
    (hobjects : ∀ e, e ∈ es → s.objects e.2 = some e.1.type) (hnodup : (es.map Prod.snd).Nodup)
    (hvalues : ∀ e, e ∈ es → s.values e.2 = (traits.alone e.1 seen).1) (hn : n < 2 ^ 64)
    (hsum : (base + n) % 2 ^ 64 = traits.total es seen % 2 ^ 64) :
  ∃ (values : ℕ → γ) (n' : ℕ),
    State.updateInstances traits schema metadatas xs (s, n) = some (s.withValues values, n') ∧
    (∀ e, e ∈ es → values e.2 = (traits.alone e.1 (seen ++ xs)).1) ∧
    (∀ u, u ∉ es.map Prod.snd → values u = s.values u) ∧
    (base + n') % 2 ^ 64 = traits.total es (seen ++ xs) % 2 ^ 64
  := by
  induction xs generalizing s n seen with
  | nil =>
      rw [List.append_nil]
      exact ⟨s.values, n, rfl, hvalues, fun _ _ => rfl, hsum⟩
  | cons x xs ih =>
      obtain ⟨values, hrun, hes', hrest⟩ :=
        updateEntries traits x hobjects hnodup (Nat.two_pow_pos 64)
      rw [Nat.zero_add] at hrun
      let r := (es.map fun e =>
        (traits.update e.1.type (x e.1.offset) (s.values e.2)).2).sum % 2 ^ 64
      have hloop : State.updateFrom traits x metadatas 0 schema.metadataUpdator (s, 0) =
          some (s.withValues values, r) := by
        rw [hlists.updators]
        apply Eq.trans (updateFrom_eq h [] (s, 0))
        rw [← hes, hrun]
      have halone : ∀ e, e ∈ es → values e.2 = (traits.alone e.1 (seen ++ [x])).1 := by
        intro e he
        rw [hes' e he, hvalues e he, alone_concat]
      have hr : (base + (n + r) % 2 ^ 64) % 2 ^ 64 = traits.total es (seen ++ [x]) % 2 ^ 64 := by
        have hmap : (es.map fun e => (traits.update e.1.type (x e.1.offset) (s.values e.2)).2) =
            es.map fun e =>
              (traits.update e.1.type (x e.1.offset) (traits.alone e.1 seen).1).2 := by
          apply List.map_congr_left
          intro e he
          rw [hvalues e he]
        rw [total_concat, ← hmap, Nat.add_mod_mod, ← Nat.add_assoc, Nat.add_mod_mod,
          Nat.add_mod, hsum, ← Nat.add_mod]
      obtain ⟨values', n', hrun', hes', hrest', hsum'⟩ :=
        ih (s := s.withValues values) hobjects halone (Nat.mod_lt _ (Nat.two_pow_pos 64)) hr
      rw [List.append_assoc] at hes' hsum'
      refine ⟨values', n', ?_, hes', ?_, hsum'⟩
      · rw [State.updateInstances, hloop, Option.bind_some, hrun']
        rfl
      · intro u hu
        rw [hrest' u hu]
        apply hrest u hu

/-- The object that is the metadata of a field. -/
def objectOf (e : Field × ℕ) : ℕ × TypeInfo :=
  (e.2, e.1.type)

/-- The creators make a new object for each field that uses metadata. -/
theorem createAll_spec (traits : Traits γ δ) (fs : List Field) {ys : List (ℕ × TypeInfo)}
    (hobjects : s.objects.Holds ys)
    (hbelow : ∀ y, y ∈ ys → y.1 < s.made) :
  ∃ (t : State γ δ) (metadatas : List (Option ℕ)),
    s.createAll traits (fs.map Field.metadataType) = some (t, metadatas) ∧
    t = { s with objects := t.objects, values := t.values, made := t.made } ∧
    Aligned fs metadatas ∧ t.objects.Holds (ys ++ (entries fs metadatas).map objectOf) ∧
    ((entries fs metadatas).map Prod.snd).Nodup ∧
    (∀ e, e ∈ entries fs metadatas → s.made ≤ e.2 ∧ e.2 < t.made ∧
      t.values e.2 = traits.fresh e.1.type) ∧
    s.made ≤ t.made ∧ ∀ u, u < s.made → t.values u = s.values u
  := by
  induction fs generalizing s ys with
  | nil =>
      refine ⟨s, [], rfl, rfl, List.Forall₂.nil, ?_, List.nodup_nil,
        fun e he => absurd he List.not_mem_nil, Nat.le_refl _, fun _ _ => rfl⟩
      rw [entries, List.map_nil, List.append_nil]
      exact hobjects
  | cons f fs ih =>
      rcases htype : f.metadataType with _ | type
      · obtain ⟨t, metadatas, hrun, ht, haligned, hrest⟩ := ih hobjects hbelow
        refine ⟨t, none :: metadatas, ?_, ht, ?_, hrest⟩
        · rw [List.map_cons, htype, State.createAll, hrun]
          rfl
        · apply List.Forall₂.cons _ haligned
          rw [Field.metadataType] at htype
          split at htype
          · cases htype
          · next hnot => simp [hnot]
      · obtain ⟨huse, rfl⟩ := Field.metadataType_eq_some.mp htype
        have hne : ∀ y, y ∈ ys → y.1 ≠ s.made := fun y hy => Nat.ne_of_lt (hbelow y hy)
        obtain ⟨objects, hmake, hholds⟩ := hobjects.make (x := (s.made, f.type)) hne
        let s₁ : State γ δ := { s with
          objects
          values := Function.update s.values s.made (traits.fresh f.type)
          made := s.made + 1 }
        have hbelow₁ : ∀ y, y ∈ ys ++ [(s.made, f.type)] → y.1 < s₁.made := by
          intro y hy
          obtain hy | hy := List.mem_append.mp hy
          · apply Nat.lt_succ_of_lt (hbelow y hy)
          · rw [List.mem_singleton.mp hy]
            apply Nat.lt_succ_self
        obtain ⟨t, metadatas, hrun, ht, haligned, hobjects', hnodup, hes, hle, hvalues⟩ :=
          ih (s := s₁) hholds hbelow₁
        refine ⟨t, some s.made :: metadatas, ?_, ?_, ?_, ?_, ?_, ?_, ?_, ?_⟩
        · rw [List.map_cons, htype, State.createAll, State.createMeta, hmake]
          exact congrArg (Option.bind · _) hrun
        · rw [ht]
        · exact List.Forall₂.cons huse.symm haligned
        · rw [entries, List.map_cons, List.append_cons]
          exact hobjects'
        · rw [entries, List.map_cons, List.nodup_cons]
          constructor
          · intro hmem
            obtain ⟨e, he, heq⟩ := List.mem_map.mp hmem
            obtain ⟨hlo, -⟩ := hes e he
            rw [heq] at hlo
            apply Nat.not_succ_le_self s.made hlo
          · exact hnodup
        · intro e he
          obtain rfl | he := List.mem_cons.mp he
          · refine ⟨Nat.le_refl _, hle, ?_⟩
            rw [hvalues s.made (Nat.lt_succ_self _)]
            apply Function.update_self
          · obtain ⟨hlo, hhi, hfresh⟩ := hes e he
            exact ⟨Nat.le_of_succ_le hlo, hhi, hfresh⟩
        · apply Nat.le_of_succ_le hle
        · intro u hu
          rw [hvalues u (Nat.lt_succ_of_lt hu)]
          apply Function.update_of_ne (Nat.ne_of_lt hu)

/-- The destructor deletes the objects of the fields, each as what it is. -/
theorem destroyFrom_eq (h : Aligned fs metadatas) (before : List (Option TypeInfo))
    (objects : Objects ℕ TypeInfo) :
  State.destroyFrom (before ++ fs.map Field.metadataType) before.length metadatas objects =
    objects.unmakeAll ((entries fs metadatas).map objectOf)
  := by
  induction h generalizing before objects with
  | nil => rfl
  | @cons f u fs metadatas hu hrest ih =>
      have hbefore : before ++ f.metadataType :: fs.map Field.metadataType =
          (before ++ [f.metadataType]) ++ fs.map Field.metadataType := by
        rw [List.append_assoc, List.singleton_append]
      have hlength : before.length + 1 = (before ++ [f.metadataType]).length := by
        rw [List.length_append, List.length_singleton]
      rcases u with _ | u
      · rw [State.destroyFrom, List.map_cons, hbefore, hlength, ih]
        rfl
      · have htype : f.metadataType = some f.type := by
          rw [Field.metadataType, if_pos (by simp [← hu])]
        have hget : (before ++ f.metadataType :: fs.map Field.metadataType)[before.length]? =
            some (some f.type) := by
          rw [List.getElem?_append_right (Nat.le_refl _), Nat.sub_self, htype]
          rfl
        rw [State.destroyFrom, List.map_cons, hget, Option.bind_some, hbefore, hlength]
        simp only [ih]
        rfl

/-! ### All metadata -/

/-- The fields that use metadata, each with its object, in a metadata of the pools. -/
def State.owned (s : State γ δ) (m : ℕ) : List (Field × ℕ) :=
  match s.metadata m with
  | none => []
  | some data =>
      match data.schema with
      | none => []
      | some k => entries (s.schemas k).fieldMap data.metadatas

/-- The objects are those that are owned, each by one metadata, with the values that they have if
there are no others. -/
structure Stored (traits : Traits γ δ) (s : State γ δ) (owned : ℕ → List (Field × ℕ)) : Prop where
  objects : ∃ ys, s.objects.Holds ys ∧ ∀ y, y ∈ ys ↔ ∃ m e, e ∈ owned m ∧ objectOf e = y
  nodup : ∀ m, ((owned m).map Prod.snd).Nodup
  apart : ∀ {m m' e e'}, e ∈ owned m → e' ∈ owned m' → e.2 = e'.2 → m = m'
  below : ∀ {m e}, e ∈ owned m → e.2 < s.made
  values : ∀ {m e}, e ∈ owned m → s.values e.2 = (traits.alone e.1 (s.seen m)).1
  reported : ∀ m, s.reported m % 2 ^ 64 = traits.total (owned m) (s.seen m) % 2 ^ 64

/-- The metadata have been made with their schemas, and their objects are stored. -/
structure Kept (traits : Traits γ δ) (s : State γ δ) : Prop where
  lists : ∀ k, (s.schemas k).MetadataLists
  aligned : ∀ {m data k}, s.metadata m = some data → data.schema = some k →
    Aligned (s.schemas k).fieldMap data.metadatas
  unset : ∀ {m data}, s.metadata m = some data → data.schema = none → data.metadatas = []
  unseen : ∀ {m}, (∀ data, s.metadata m = some data → data.schema = none) →
    s.seen m = [] ∧ s.reported m = 0
  stored : Stored traits s s.owned

variable {data : Metadata}

theorem owned_none (h : s.metadata m = none) :
  s.owned m = []
  := by
  rw [State.owned, h]

theorem owned_unset (h : s.metadata m = some data) (hk : data.schema = none) :
  s.owned m = []
  := by
  rw [State.owned, h]
  change (match data.schema with | none => [] | some k => _) = []
  rw [hk]

theorem owned_schema (h : s.metadata m = some data) (hk : data.schema = some k) :
  s.owned m = entries (s.schemas k).fieldMap data.metadatas
  := by
  rw [State.owned, h]
  change (match data.schema with | none => [] | some k => _) = _
  rw [hk]

/-- What a metadata owns depends on it and its schema only. -/
theorem owned_congr (hm : t.metadata m = s.metadata m)
    (hschema : ∀ data k, s.metadata m = some data → data.schema = some k →
      t.schemas k = s.schemas k) :
  t.owned m = s.owned m
  := by
  rcases hdata : s.metadata m with _ | data
  · rw [owned_none hdata, owned_none (hm.trans hdata)]
  · rcases hk : data.schema with _ | k
    · rw [owned_unset hdata hk, owned_unset (hm.trans hdata) hk]
    · rw [owned_schema hdata hk, owned_schema (hm.trans hdata) hk, hschema data k hdata hk]

theorem Stored.object {owned : ℕ → List (Field × ℕ)} (h : Stored traits s owned) {e : Field × ℕ}
    (he : e ∈ owned m) :
  s.objects e.2 = some e.1.type
  := by
  obtain ⟨ys, hholds, hys⟩ := h.objects
  apply (hholds e.2 e.1.type).mpr ((hys _).mpr ⟨m, e, he, rfl⟩)

theorem kept_start {schemas : ℕ → BaseSchema} (hregistered : ∀ k, (schemas k).Registered)
    (values : ℕ → γ) :
  Kept traits (start schemas values : State γ δ)
  := by
  have howned : ∀ m, (start schemas values : State γ δ).owned m = [] := fun m => owned_none rfl
  constructor
  · intro k
    apply (hregistered k).metadataLists
  · nofun
  · nofun
  · intro m _
    exact ⟨rfl, rfl⟩
  · refine ⟨⟨[], Objects.holds_nil, ?_⟩, fun m => List.nodup_nil, nofun, nofun, nofun, fun m => ?_⟩
    · intro y
      constructor
      · intro hy
        apply absurd hy List.not_mem_nil
      · rintro ⟨m, e, he, -⟩
        apply absurd he List.not_mem_nil
    · rw [howned]
      rfl

/-- A field is registered with a schema that there is no metadata of. -/
theorem Kept.registerField {c : Registration} (h : Kept traits s)
    (hnone : ∀ m data, s.metadata m = some data → data.schema ≠ some k) :
  Kept traits (s.registerField k c)
  := by
  let t := s.registerField k c
  have hschemas : ∀ m data k', s.metadata m = some data → data.schema = some k' →
      t.schemas k' = s.schemas k' := by
    intro m data k' hdata hk'
    apply Function.update_of_ne
    rintro rfl
    apply hnone m data hdata hk'
  have howned : t.owned = s.owned := funext fun m => owned_congr rfl (hschemas m)
  constructor
  · intro k'
    rcases Classical.em (k' = k) with rfl | hne
    · have heq : t.schemas k' = ((s.schemas k').registerField c.type c.name c.offset).1 :=
        Function.update_self ..
      rw [heq]
      apply (h.lists k').registerField c
    · have heq : t.schemas k' = s.schemas k' := Function.update_of_ne hne ..
      rw [heq]
      apply h.lists
  · intro m data k' hdata hk'
    rw [hschemas m data k' hdata hk']
    apply h.aligned hdata hk'
  · exact h.unset
  · exact h.unseen
  · rw [howned]
    obtain ⟨hobjects, hnodup, hapart, hbelow, hvalues, hreported⟩ := h.stored
    exact ⟨hobjects, hnodup, hapart, hbelow, hvalues, hreported⟩

/-- A metadata is made. -/
theorem Kept.make (h : Kept traits s) (hm : s.metadata m = none) :
  Kept traits { s with metadata := Function.update s.metadata m (some ⟨[], none, 0⟩) }
  := by
  let t : State γ δ := { s with metadata := Function.update s.metadata m (some ⟨[], none, 0⟩) }
  have hself : t.metadata m = some ⟨[], none, 0⟩ := Function.update_self ..
  have hother : ∀ {m'}, m' ≠ m → t.metadata m' = s.metadata m' :=
    fun hne => Function.update_of_ne hne ..
  have howned : t.owned = s.owned := by
    funext m'
    rcases Classical.em (m' = m) with rfl | hne
    · rw [owned_none hm, owned_unset hself rfl]
    · apply owned_congr (hother hne) fun _ _ _ _ => rfl
  constructor
  · exact h.lists
  · intro m' data k hdata hk
    rcases Classical.em (m' = m) with rfl | hne
    · obtain rfl := Option.some.inj (hself.symm.trans hdata)
      cases hk
    · apply h.aligned ((hother hne).symm.trans hdata) hk
  · intro m' data hdata hk
    rcases Classical.em (m' = m) with rfl | hne
    · obtain rfl := Option.some.inj (hself.symm.trans hdata)
      rfl
    · apply h.unset ((hother hne).symm.trans hdata) hk
  · intro m' hunset
    apply h.unseen
    intro data hdata
    rcases Classical.em (m' = m) with rfl | hne
    · cases hm.symm.trans hdata
    · apply hunset data ((hother hne).trans hdata)
  · rw [howned]
    obtain ⟨hobjects, hnodup, hapart, hbelow, hvalues, hreported⟩ := h.stored
    exact ⟨hobjects, hnodup, hapart, hbelow, hvalues, hreported⟩

/-- A metadata is destroyed, and its objects with it. -/
theorem Kept.destroy (h : Kept traits s) (hm : s.metadata m ≠ none) :
  ∃ t, s.destroy m = some t ∧ Kept traits t
  := by
  obtain ⟨data, hdata⟩ := Option.ne_none_iff_exists'.mp hm
  obtain ⟨ys, hholds, hys⟩ := h.stored.objects
  have hgone : ∃ objects, s.destroyAll data = some objects ∧
      objects.Holds (ys.filter (· ∉ (s.owned m).map objectOf)) := by
    rw [State.destroyAll]
    rcases hk : data.schema with _ | k
    · refine ⟨s.objects, rfl, hholds.congr ?_⟩
      intro y
      simp [owned_unset hdata hk]
    · have hsub : (s.owned m).map objectOf ⊆ ys := by
        intro y hy
        obtain ⟨e, he, rfl⟩ := List.mem_map.mp hy
        apply (hys _).mpr ⟨m, e, he, rfl⟩
      have hnodup : ((s.owned m).map objectOf).Nodup := by
        apply List.Nodup.of_map Prod.fst
        rw [List.map_map]
        apply h.stored.nodup m
      obtain ⟨objects, hunmake, hobjects⟩ := hholds.unmakeAll hsub hnodup
      refine ⟨objects, ?_, hobjects⟩
      change State.destroyFrom (s.schemas k).metadataDeletor 0 data.metadatas s.objects = _
      rw [(h.lists k).deletors, ← hunmake, owned_schema hdata hk]
      apply destroyFrom_eq (h.aligned hdata hk) []
  obtain ⟨objects, hrun, hobjects⟩ := hgone
  let t : State γ δ := { s with
    objects
    metadata := Function.update s.metadata m none
    seen := Function.update s.seen m []
    reported := Function.update s.reported m 0 }
  have hself : t.metadata m = none := Function.update_self ..
  have hother : ∀ {m'}, m' ≠ m → t.metadata m' = s.metadata m' :=
    fun hne => Function.update_of_ne hne ..
  have hseen : ∀ {m'}, m' ≠ m → t.seen m' = s.seen m' ∧ t.reported m' = s.reported m' :=
    fun hne => ⟨Function.update_of_ne hne .., Function.update_of_ne hne ..⟩
  have howned : ∀ {m' e}, e ∈ t.owned m' ↔ m' ≠ m ∧ e ∈ s.owned m' := by
    intro m' e
    rcases Classical.em (m' = m) with rfl | hne
    · rw [owned_none hself]
      simp
    · rw [owned_congr (hother hne) fun _ _ _ _ => rfl]
      simp [hne]
  refine ⟨t, ?_, ?_⟩
  · rw [State.destroy, hdata, Option.bind_eq_bind, Option.bind_some, hrun]
    rfl
  · constructor
    · exact h.lists
    · intro m' data' k hdata' hk
      rcases Classical.em (m' = m) with rfl | hne
      · cases hself.symm.trans hdata'
      · apply h.aligned ((hother hne).symm.trans hdata') hk
    · intro m' data' hdata' hk
      rcases Classical.em (m' = m) with rfl | hne
      · cases hself.symm.trans hdata'
      · apply h.unset ((hother hne).symm.trans hdata') hk
    · intro m' hunset
      rcases Classical.em (m' = m) with rfl | hne
      · exact ⟨Function.update_self .., Function.update_self ..⟩
      · rw [(hseen hne).1, (hseen hne).2]
        apply h.unseen
        intro data' hdata'
        apply hunset data' ((hother hne).trans hdata')
    · constructor
      · refine ⟨_, hobjects, ?_⟩
        intro y
        rw [List.mem_filter, hys, decide_eq_true_eq]
        constructor
        · rintro ⟨⟨m', e, he, rfl⟩, hnot⟩
          refine ⟨m', e, howned.mpr ⟨?_, he⟩, rfl⟩
          rintro rfl
          apply hnot (List.mem_map_of_mem he)
        · rintro ⟨m', e, he, rfl⟩
          obtain ⟨hne, he⟩ := howned.mp he
          refine ⟨⟨m', e, he, rfl⟩, ?_⟩
          intro hmem
          obtain ⟨e', he', heq⟩ := List.mem_map.mp hmem
          apply hne (h.stored.apart he he' (congrArg Prod.fst heq.symm))
      · intro m'
        rcases Classical.em (m' = m) with rfl | hne
        · rw [owned_none hself]
          apply List.nodup_nil
        · rw [owned_congr (hother hne) fun _ _ _ _ => rfl]
          apply h.stored.nodup
      · intro m₁ m₂ e e' he he'
        apply h.stored.apart (howned.mp he).2 (howned.mp he').2
      · intro m' e he
        apply h.stored.below (howned.mp he).2
      · intro m' e he
        obtain ⟨hne, he⟩ := howned.mp he
        rw [(hseen hne).1]
        apply h.stored.values he
      · intro m'
        rcases Classical.em (m' = m) with rfl | hne
        · have hzero : t.reported m' = 0 := Function.update_self ..
          rw [owned_none hself, hzero]
          rfl
        · rw [owned_congr (hother hne) fun _ _ _ _ => rfl, (hseen hne).1, (hseen hne).2]
          apply h.stored.reported

/-- A metadata that has no schema is given one, and new objects. -/
theorem Kept.withSchema (h : Kept traits s) (hdata : s.metadata m = some data)
    (hk : data.schema = none ∨ data.schema = some k) :
  ∃ t data', s.withSchema traits m k = some t ∧ Kept traits t ∧ t.metadata m = some data' ∧
    data'.schema = some k
  := by
  rcases hk with hk | hk
  · obtain ⟨ys, hholds, hys⟩ := h.stored.objects
    have hbelow : ∀ y, y ∈ ys → y.1 < s.made := by
      intro y hy
      obtain ⟨m', e, he, rfl⟩ := (hys y).mp hy
      apply h.stored.below he
    obtain ⟨t₀, metadatas, hrun, ht₀, haligned, hobjects, hnodup, hnew, hle, hold⟩ :=
      createAll_spec traits (s.schemas k).fieldMap hholds hbelow
    let data' : Metadata := { data with metadatas := data.metadatas ++ metadatas, schema := some k }
    let t : State γ δ := { t₀ with metadata := Function.update t₀.metadata m (some data') }
    have hschemas : t₀.schemas = s.schemas := by rw [ht₀]
    have hschemas : t.schemas = s.schemas := hschemas
    have hself : t.metadata m = some data' := Function.update_self ..
    have hother : ∀ {m'}, m' ≠ m → t.metadata m' = s.metadata m' := by
      intro m' hne
      apply Eq.trans (Function.update_of_ne hne ..)
      rw [ht₀]
    have hseen : t₀.seen = s.seen ∧ t₀.reported = s.reported := by
      rw [ht₀]
      exact ⟨rfl, rfl⟩
    have hseen : t.seen = s.seen ∧ t.reported = s.reported := hseen
    obtain ⟨hseenm, hreportedm⟩ : s.seen m = [] ∧ s.reported m = 0 := by
      apply h.unseen
      intro data₁ hdata₁
      obtain rfl := Option.some.inj (hdata.symm.trans hdata₁)
      exact hk
    have hmetadatas : data'.metadatas = metadatas := by
      change data.metadatas ++ metadatas = metadatas
      rw [h.unset hdata hk, List.nil_append]
    have howned : t.owned m = entries (s.schemas k).fieldMap metadatas := by
      rw [owned_schema hself rfl, hmetadatas, hschemas]
    have hkeeps : ∀ {m'}, m' ≠ m → t.owned m' = s.owned m' :=
      fun hne => owned_congr (hother hne) fun _ _ _ _ => congrFun hschemas _
    have hcases : ∀ {m' e}, e ∈ t.owned m' →
        m' = m ∧ e ∈ entries (s.schemas k).fieldMap metadatas ∨ m' ≠ m ∧ e ∈ s.owned m' := by
      intro m' e he
      rcases Classical.em (m' = m) with rfl | hne
      · rw [howned] at he
        exact Or.inl ⟨rfl, he⟩
      · rw [hkeeps hne] at he
        exact Or.inr ⟨hne, he⟩
    refine ⟨t, data', ?_, ?_, hself, rfl⟩
    · rw [State.withSchema, hdata, Option.bind_some]
      change (match data.schema with | some _ => _ | none => _) = _
      rw [hk]
      change (s.createAll traits (s.schemas k).metadataCreator).map _ = _
      rw [(h.lists k).creators, hrun]
      rfl
    · constructor
      · intro k'
        rw [hschemas]
        apply h.lists
      · intro m' data₁ k' hdata₁ hk'
        rw [hschemas]
        rcases Classical.em (m' = m) with rfl | hne
        · obtain rfl := Option.some.inj (hself.symm.trans hdata₁)
          obtain rfl := Option.some.inj hk'
          rw [hmetadatas]
          exact haligned
        · apply h.aligned ((hother hne).symm.trans hdata₁) hk'
      · intro m' data₁ hdata₁ hk'
        rcases Classical.em (m' = m) with rfl | hne
        · obtain rfl := Option.some.inj (hself.symm.trans hdata₁)
          cases hk'
        · apply h.unset ((hother hne).symm.trans hdata₁) hk'
      · intro m' hunset
        rcases Classical.em (m' = m) with rfl | hne
        · cases hunset data' hself
        · rw [hseen.1, hseen.2]
          apply h.unseen
          intro data₁ hdata₁
          apply hunset data₁ ((hother hne).trans hdata₁)
      · constructor
        · refine ⟨_, hobjects, ?_⟩
          intro y
          rw [List.mem_append, hys]
          constructor
          · rintro (⟨m', e, he, rfl⟩ | hy)
            · have hne : m' ≠ m := by
                rintro rfl
                rw [owned_unset hdata hk] at he
                cases he
              rw [← hkeeps hne] at he
              exact ⟨m', e, he, rfl⟩
            · obtain ⟨e, he, rfl⟩ := List.mem_map.mp hy
              rw [← howned] at he
              exact ⟨m, e, he, rfl⟩
          · rintro ⟨m', e, he, rfl⟩
            rcases hcases he with ⟨-, he⟩ | ⟨-, he⟩
            · exact Or.inr (List.mem_map_of_mem he)
            · exact Or.inl ⟨m', e, he, rfl⟩
        · intro m'
          rcases Classical.em (m' = m) with rfl | hne
          · rw [howned]
            exact hnodup
          · rw [hkeeps hne]
            apply h.stored.nodup
        · intro m₁ m₂ e e' he he' heq
          rcases hcases he with ⟨rfl, hmem⟩ | ⟨-, hmem⟩
          · rcases hcases he' with ⟨rfl, -⟩ | ⟨-, hmem'⟩
            · rfl
            · have hlt := h.stored.below hmem'
              have hge := (hnew e hmem).1
              omega
          · rcases hcases he' with ⟨-, hmem'⟩ | ⟨-, hmem'⟩
            · have hlt := h.stored.below hmem
              have hge := (hnew e' hmem').1
              omega
            · apply h.stored.apart hmem hmem' heq
        · intro m' e he
          rcases hcases he with ⟨-, hmem⟩ | ⟨-, hmem⟩
          · apply (hnew e hmem).2.1
          · apply Nat.lt_of_lt_of_le (h.stored.below hmem) hle
        · intro m' e he
          rw [hseen.1]
          rcases hcases he with ⟨rfl, hmem⟩ | ⟨-, hmem⟩
          · rw [hseenm]
            apply (hnew e hmem).2.2
          · rw [← h.stored.values hmem]
            apply hold _ (h.stored.below hmem)
        · intro m'
          rw [hseen.1, hseen.2]
          rcases Classical.em (m' = m) with rfl | hne
          · rw [hseenm, hreportedm, total_nil]
          · rw [hkeeps hne]
            apply h.stored.reported
  · refine ⟨s, data, ?_, h, hdata, hk⟩
    rw [State.withSchema, hdata, Option.bind_some]
    change (match data.schema with | some _ => _ | none => _) = _
    rw [hk]

/-- A metadata is updated, and no other. -/
theorem Kept.update (h : Kept traits s) (hdata : s.metadata m = some data)
    (hk : data.schema = none ∨ data.schema = some k) :
  ∃ t, s.updateAllocationMetadata traits m k xs = some t ∧ Kept traits t
  := by
  obtain ⟨s₁, data₁, hwith, h, hdata₁, hk⟩ := h.withSchema hdata hk
  have hes := owned_schema hdata₁ hk
  obtain ⟨values, n, hloop, halone, hrest, hsum⟩ :=
    updateInstances_spec (s₁.reported m) xs (h.lists k) (h.aligned hdata₁ hk) hes
      (fun e he => h.stored.object he) (h.stored.nodup m) (fun e he => h.stored.values he)
      (Nat.two_pow_pos 64) (h.stored.reported m)
  let t : State γ δ := { s₁.withValues values with
    metadata := Function.update s₁.metadata m (some { data₁ with size := xs.length })
    seen := Function.update s₁.seen m (s₁.seen m ++ xs)
    reported := Function.update s₁.reported m (s₁.reported m + n) }
  have hself : t.metadata m = some { data₁ with size := xs.length } := Function.update_self ..
  have hother : ∀ {m'}, m' ≠ m → t.metadata m' = s₁.metadata m' :=
    fun hne => Function.update_of_ne hne ..
  have hseen : ∀ {m'}, m' ≠ m → t.seen m' = s₁.seen m' ∧ t.reported m' = s₁.reported m' :=
    fun hne => ⟨Function.update_of_ne hne .., Function.update_of_ne hne ..⟩
  have howned : t.owned = s₁.owned := by
    funext m'
    rcases Classical.em (m' = m) with rfl | hne
    · rw [owned_schema hself hk, hes]
      rfl
    · apply owned_congr (hother hne) fun _ _ _ _ => rfl
  refine ⟨t, ?_, ?_⟩
  · have hbind : ∀ f : ℕ → Option (State γ δ), data₁.schema.bind f = f k := by
      intro f
      rw [hk, Option.bind_some]
    simp only [State.updateAllocationMetadata, hwith, hdata₁, hbind, hloop, Option.bind_eq_bind,
      Option.bind_some]
    rfl
  · constructor
    · exact h.lists
    · intro m' data' k' hdata' hk'
      rcases Classical.em (m' = m) with rfl | hne
      · obtain rfl := Option.some.inj (hself.symm.trans hdata')
        apply h.aligned hdata₁ hk'
      · apply h.aligned ((hother hne).symm.trans hdata') hk'
    · intro m' data' hdata' hk'
      rcases Classical.em (m' = m) with rfl | hne
      · obtain rfl := Option.some.inj (hself.symm.trans hdata')
        apply h.unset hdata₁ hk'
      · apply h.unset ((hother hne).symm.trans hdata') hk'
    · intro m' hunset
      rcases Classical.em (m' = m) with rfl | hne
      · have hnone := hunset _ hself
        cases hk.symm.trans hnone
      · rw [(hseen hne).1, (hseen hne).2]
        apply h.unseen
        intro data' hdata'
        apply hunset data' ((hother hne).trans hdata')
    · rw [howned]
      refine ⟨h.stored.objects, h.stored.nodup, h.stored.apart, h.stored.below, ?_, ?_⟩
      · intro m' e he
        rcases Classical.em (m' = m) with rfl | hne
        · have hself : t.seen m' = s₁.seen m' ++ xs := Function.update_self ..
          rw [hself]
          apply halone e he
        · rw [(hseen hne).1, ← h.stored.values he]
          apply hrest
          intro hmem
          obtain ⟨e', he', heq⟩ := List.mem_map.mp hmem
          apply hne (h.stored.apart he he' heq.symm)
      · intro m'
        rcases Classical.em (m' = m) with rfl | hne
        · have hseen : t.seen m' = s₁.seen m' ++ xs := Function.update_self ..
          have hreported : t.reported m' = s₁.reported m' + n := Function.update_self ..
          rw [hseen, hreported]
          exact hsum
        · rw [(hseen hne).1, (hseen hne).2]
          apply h.stored.reported

/-- Whatever is done, the metadata are kept. -/
theorem Kept.step (h : Kept traits s) {event : Event δ} (hok : EventOk s event) :
  ∃ t, (machine traits).step s event = some t ∧ Kept traits t
  := by
  cases event with
  | registerField k c =>
      refine ⟨_, rfl, ?_⟩
      rcases hok with hfind | hnone
      · have heq : s.registerField k c = s := by
          rw [State.registerField, BaseSchema.registerField_of_find hfind, Function.update_eq_self]
        rwa [heq]
      · apply h.registerField hnone
  | make m =>
      have hm : s.metadata m = none := hok
      refine ⟨_, if_pos (Option.isNone_iff_eq_none.mpr hm), h.make hm⟩
  | updateAllocationMetadata m k instances =>
      obtain ⟨data, hdata, hk⟩ := hok
      apply h.update hdata hk
  | destroy m => apply h.destroy hok

/-- The metadata of each field is what it is if there is no other, whatever is updated with it, and
the sizes that are returned add up to those of the fields.  Every object is the metadata of one
field of one pool, so that there are none when the metadata have been destroyed. -/
theorem updated_alone {schemas : ℕ → BaseSchema} {values : ℕ → γ} {events : List (Event δ)}
    (hregistered : ∀ k, (schemas k).Registered)
    (h : (machine traits).Steps EventOk (start schemas values) events) :
  ∃ s, (machine traits).run (start schemas values) events = some s ∧
    (∀ m data k, s.metadata m = some data → data.schema = some k →
      (∀ (i : ℕ) (f : Field), (s.schemas k).fieldMap[i]? = some f →
        if f.type.useMetadata then
          ∃ u, data.metadatas[i]? = some (some u) ∧ s.objects u = some f.type ∧
            s.values u = (traits.alone f (s.seen m)).1
        else data.metadatas[i]? = some none) ∧
      s.reported m % 2 ^ 64 = (((s.schemas k).fieldMap.filter fun f => f.type.useMetadata).map
        fun f => (traits.alone f (s.seen m)).2).sum % 2 ^ 64) ∧
    ∀ u, s.objects u ≠ none → ∃! p : ℕ × ℕ, ∃ data, s.metadata p.1 = some data ∧
      data.metadatas[p.2]? = some (some u)
  := by
  obtain ⟨s, hrun, hs⟩ := Machine.run_progress (fun _ _ ht hok => ht.step hok) h
    (kept_start hregistered values)
  refine ⟨s, hrun, ?_, ?_⟩
  · intro m data k hdata hk
    have hes := owned_schema hdata hk
    have haligned := hs.aligned hdata hk
    constructor
    · intro i f hf
      have hi := haligned.getElem? hf
      split at hi
      · next huse =>
          obtain ⟨u, hu, hmem⟩ := hi
          rw [← hes] at hmem
          rw [if_pos huse]
          exact ⟨u, hu, hs.stored.object hmem, hs.stored.values hmem⟩
      · next hnot =>
          rw [if_neg hnot]
          exact hi
    · rw [hs.stored.reported, hes, Traits.total, ← haligned.map_entries, List.map_map]
      rfl
  · intro u hu
    obtain ⟨type, htype⟩ := Option.ne_none_iff_exists'.mp hu
    obtain ⟨ys, hholds, hys⟩ := hs.stored.objects
    obtain ⟨m, e, he, heq⟩ := (hys _).mp ((hholds u type).mp htype)
    obtain rfl : e.2 = u := congrArg Prod.fst heq
    have hplace : ∀ {m' data'} {i : ℕ}, s.metadata m' = some data' →
        data'.metadatas[i]? = some (some e.2) →
        m' = m ∧ ∃ k, data'.schema = some k := by
      intro m' data' i hdata' hi
      rcases hk : data'.schema with _ | k
      · rw [hs.unset hdata' hk] at hi
        cases hi
      · obtain ⟨f, -, hmem⟩ := (hs.aligned hdata' hk).mem_entries hi
        rw [← owned_schema hdata' hk] at hmem
        exact ⟨hs.stored.apart hmem he rfl, k, rfl⟩
    rcases hdata : s.metadata m with _ | data
    · rw [owned_none hdata] at he
      cases he
    · rcases hk : data.schema with _ | k
      · rw [owned_unset hdata hk] at he
        cases he
      · have haligned := hs.aligned hdata hk
        have hnodup := hs.stored.nodup m
        rw [owned_schema hdata hk] at he hnodup
        obtain ⟨i, hi⟩ := haligned.exists_getElem? he
        refine ⟨(m, i), ⟨data, hdata, hi⟩, ?_⟩
        rintro ⟨m', j⟩ ⟨data', hdata', hj⟩
        obtain ⟨rfl, -⟩ := hplace hdata' hj
        obtain rfl := Option.some.inj (hdata.symm.trans hdata')
        rw [haligned.index_unique hnodup hi hj]

/-- Whether an event that registers no field can be taken. -/
def usable (s : State γ δ) : Event δ → Bool
  | .registerField _ _ => false
  | .make m => (s.metadata m).isNone
  | .updateAllocationMetadata m k _ =>
      (s.metadata m).any fun data => data.schema = none ∨ data.schema = some k
  | .destroy m => (s.metadata m).isSome

theorem eventOk_of_usable {event : Event δ} (h : usable s event = true) :
  EventOk s event
  := by
  cases event with
  | registerField k c => cases h
  | make m => exact Option.isNone_iff_eq_none.mp h
  | updateAllocationMetadata m k instances =>
      obtain ⟨data, hdata, hk⟩ := (Option.any_eq_true _ _).mp h
      exact ⟨data, hdata, of_decide_eq_true hk⟩
  | destroy m => exact Option.isSome_iff_ne_none.mp h

/-- The metadata is the greatest length of a string, and the size is the length. -/
def longest : Traits ℕ ℕ where
  fresh _ := 0
  update _ length most := (max most length, length)

/-- A struct with a number and two strings of the pool. -/
def strings : BaseSchema :=
  newSchema.register
    [⟨pooledString, "name", npos⟩, ⟨int32, "id", npos⟩, ⟨pooledString, "text", npos⟩]

/-- An instance with strings of these lengths. -/
def lengths (name text : ℕ) (offset : ℕ) : ℕ :=
  if offset = 0 then name else text

/-- Two pools are updated, one of them twice, and the metadata of the other is destroyed. -/
def twoPools : List (Event ℕ) :=
  [.make 0, .updateAllocationMetadata 0 0 [lengths 5 2, lengths 3 9], .make 1,
    .updateAllocationMetadata 1 0 [lengths 8 1], .destroy 1,
    .updateAllocationMetadata 0 0 [lengths 6 4]]

theorem updated_alone_twoPools :
  ∃ s u, (machine longest).run (start (fun _ => strings) fun _ => 0) twoPools = some s ∧
    s.metadata 0 = some ⟨[some 0, none, some u], some 0, 1⟩ ∧ s.values u = 9 ∧
    s.reported 0 % 2 ^ 64 = 29 % 2 ^ 64 ∧ s.metadata 1 = none
  := by
  have hused : (machine longest).Steps (fun s e => usable s e = true)
      (start (fun _ => strings) fun _ => 0) twoPools := by
    decide +kernel
  have hok : (machine longest).Steps EventOk (start (fun _ => strings) fun _ => 0) twoPools :=
    fun es e t hes ht => eventOk_of_usable (hused es e t hes ht)
  have hregistered : ∀ _ : ℕ, strings.Registered := fun _ => ⟨_, Or.inl rfl⟩
  obtain ⟨s, hs, hmetadata, -⟩ := updated_alone hregistered hok
  have hrun : ((machine longest).run (start (fun _ => strings) fun _ => 0) twoPools).all fun s =>
      decide (s.metadata 0 = some ⟨[some 0, none, some 1], some 0, 1⟩ ∧ s.metadata 1 = none ∧
        ((s.schemas 0).fieldMap[2]?.map fun f =>
          (f.type.useMetadata, (longest.alone f (s.seen 0)).1)) = some (true, 9) ∧
        (((s.schemas 0).fieldMap.filter fun f => f.type.useMetadata).map
          fun f => (longest.alone f (s.seen 0)).2).sum = 29) := by
    decide +kernel
  rw [hs, Option.all_some, decide_eq_true_eq] at hrun
  obtain ⟨hfirst, hsecond, htext, hsum⟩ := hrun
  obtain ⟨f, hf, heq⟩ := Option.map_eq_some_iff.mp htext
  obtain ⟨huse, hlongest⟩ := Prod.mk.inj heq
  obtain ⟨hfields, hreported⟩ := hmetadata 0 _ 0 hfirst rfl
  have hvalue := hfields 2 f hf
  rw [if_pos huse] at hvalue
  obtain ⟨u, hu, -, hvalue⟩ := hvalue
  obtain rfl := Option.some.inj (Option.some.inj hu)
  rw [hsum] at hreported
  exact ⟨s, 1, hs, hfirst, hvalue.trans hlongest, hreported, hsecond⟩

end Updates

end DynamicStruct
