import CppFreshman.Lists.Merge
import CppFreshman.Machine.Run
import CppFreshman.Schema.Fields

/-!
# Registering fields

What a call of `register_field` does to a schema: it finds the name, or it adds a field, and an
entry for it to each of the lists (`registerField_cases`).  After any calls the lists of entries
are those of the fields with trivial neighbours merged (`lists_register`).
-/

namespace DynamicStruct

/-- How `addEntry` makes the entries of a list of fields. -/
def zeroMerge (method : TypeInfo → Method) (hmethod : ∀ type, method type ≠ .fillWithZero) :
    Merge Field Entry where
  joins field := field.type.isTrivial
  joined entry := entry.method = .fillWithZero
  entry field :=
    ⟨field.offset, field.type.sizeOf,
      if field.type.isTrivial then .fillWithZero else method field.type⟩
  extend last field :=
    { last with size := (field.offset + (2 ^ 64 - last.offset) + field.type.sizeOf) % 2 ^ 64 }
  joined_entry field := by
    cases field.type.isTrivial <;> simp [hmethod]
  joined_extend _ _ h := h

theorem addEntry_eq_push (method : TypeInfo → Method)
    {hmethod : ∀ type, method type ≠ .fillWithZero} {field : Field} {entries : List Entry} :
  addEntry (method field.type) field entries = (zeroMerge method hmethod).push entries field
  := by
  rw [addEntry, Merge.push]
  rcases hlast : entries.getLast? with _ | last
  · rw [List.getLast?_eq_none_iff.mp hlast]
    cases h : field.type.isTrivial <;> simp [zeroMerge, h]
  · cases h : field.type.isTrivial <;> simp [zeroMerge, h]

/-- The function that constructs a field with these types. -/
def constructMethod (type : TypeInfo) : Method :=
  if type.isVoid then .construct type else .constructWithPool type

theorem constructMethod_ne (type : TypeInfo) :
  constructMethod type ≠ .fillWithZero
  := by
  cases h : type.isVoid <;> simp [constructMethod, h]

/-- The entries of `_constructors`. -/
def constructorMerge : Merge Field Entry :=
  zeroMerge constructMethod constructMethod_ne

/-- The entries of `_cleaners`. -/
def cleanerMerge : Merge Field Entry :=
  zeroMerge .reconstruct fun _ => Method.noConfusion

/-- The entries of `_with_meta_constructor`. -/
def metadataMerge : Merge Field Entry :=
  zeroMerge .constructWithMetadata fun _ => Method.noConfusion

/-- The calls of `register_field` that bring a new name. -/
def introducing (calls : List BaseSchema.Registration) : List BaseSchema.Registration :=
  calls.foldl (fun cs c => if cs.any fun c' => c'.name = c.name then cs else cs ++ [c]) []

theorem introducing_concat {calls : List BaseSchema.Registration} {c : BaseSchema.Registration} :
  introducing (calls ++ [c]) =
    if (introducing calls).any fun c' => c'.name = c.name then introducing calls
    else introducing calls ++ [c]
  := by
  rw [introducing, List.foldl_append]
  rfl

/-- An `int32_t`, registered as `register_field<int32_t>`. -/
def int32 : TypeInfo where
  id := 0
  sizeOf := 4
  alignOf := 4
  isPointer := false
  structSchema := none
  isTrivial := true
  isTriviallyDestructible := true
  isVoid := true
  useMetadata := false
  size_pos := by decide
  align_pow := ⟨2, rfl⟩
  align_dvd := by decide
  trivial_destructible := by decide
  metadata_allocator := by decide

/-- A string in a pool, which is constructed with its metadata. -/
def pooledString : TypeInfo where
  id := 1
  sizeOf := 32
  alignOf := 8
  isPointer := false
  structSchema := none
  isTrivial := false
  isTriviallyDestructible := false
  isVoid := false
  useMetadata := true
  size_pos := by decide
  align_pow := ⟨3, rfl⟩
  align_dvd := by decide
  trivial_destructible := by decide
  metadata_allocator := by decide

namespace BaseSchema

variable {s s' : BaseSchema}

/-- Where a field is placed, and the schema with the place. -/
def place (s : BaseSchema) (type : TypeInfo) (offset : ℕ) : BaseSchema × ℕ :=
  if offset = npos then s.addFieldAndCalculateSize type else (s, offset)

/-- The field is added to the schema `s`, which becomes `s'`. -/
structure Adds (s : BaseSchema) (c : Registration) (field : Field) (s' : BaseSchema) : Prop where
  name : field.name = c.name
  type : field.type = c.type
  offset : field.offset = (s.place c.type c.offset).2
  fieldMap : s'.fieldMap = s.fieldMap ++ [field]
  constructors : s'.constructors = constructorMerge.push s.constructors field
  cleaners : s'.cleaners = cleanerMerge.push s.cleaners field
  withMetaConstructor : s'.withMetaConstructor = metadataMerge.push s.withMetaConstructor field
  metadataCreator :
    s'.metadataCreator = s.metadataCreator ++ [if c.type.useMetadata then some c.type else none]
  allocateAlign : s'.allocateAlign = (s.place c.type c.offset).1.allocateAlign
  allocateSize : s'.allocateSize = (s.place c.type c.offset).1.allocateSize
  unalignedAllocateSize :
    s'.unalignedAllocateSize = (s.place c.type c.offset).1.unalignedAllocateSize
  baseOffset : s'.baseOffset = s.baseOffset

theorem place_fieldMap (type : TypeInfo) (offset : ℕ) :
  (s.place type offset).1.fieldMap = s.fieldMap ∧
    (s.place type offset).1.constructors = s.constructors ∧
    (s.place type offset).1.cleaners = s.cleaners ∧
    (s.place type offset).1.withMetaConstructor = s.withMetaConstructor ∧
    (s.place type offset).1.metadataCreator = s.metadataCreator ∧
    (s.place type offset).1.baseOffset = s.baseOffset
  := by
  rw [place]
  split <;> exact ⟨rfl, rfl, rfl, rfl, rfl, rfl⟩

/-- A field at that place is added by the functions that make its entries. -/
theorem adds_place (s : BaseSchema) (c : Registration) (fieldType : FieldType)
    (schema : Option ℕ) :
  let field : Field :=
    ⟨(s.place c.type c.offset).2, c.name, c.type, fieldType, schema⟩
  s.Adds c field { ((((((s.place c.type c.offset).1.addConstructor field).addDestructor
    field).addCleaner field).addMetaData c.type).addUpdateMetadata field).addConstructWithMetadata
      field with fieldMap := (s.place c.type c.offset).1.fieldMap ++ [field] }
  := by
  intro field
  obtain ⟨hfields, hcons, hclean, hmeta, hcreator, hbase⟩ := s.place_fieldMap c.type c.offset
  constructor
  · rfl
  · rfl
  · rfl
  · rw [hfields]
  · rw [← hcons]
    apply addEntry_eq_push constructMethod
  · rw [← hclean]
    apply addEntry_eq_push Method.reconstruct
  · rw [← hmeta]
    apply addEntry_eq_push Method.constructWithMetadata
  · rw [← hcreator]
    rfl
  · rfl
  · rfl
  · rfl
  · rw [← hbase]
    rfl

/-- A call of `register_field` finds the name or adds a field with its entries. -/
theorem registerField_cases (s : BaseSchema) (c : Registration) :
  (∃ field, s.find c.name = some field ∧
      s.registerField c.type c.name c.offset = (s, .ofField field)) ∨
    s.find c.name = none ∧ ∃ field s', s.Adds c field s' ∧
      s.registerField c.type c.name c.offset = (s', .ofField field)
  := by
  have hadd : ∃ fieldType schema, s.registerField c.type c.name c.offset =
      s.registerFieldAs c.type c.name fieldType c.offset schema := by
    rw [registerField]
    split <;> exact ⟨_, _, rfl⟩
  obtain ⟨fieldType, schema, heq⟩ := hadd
  rw [heq, registerFieldAs]
  rcases hfind : s.find c.name with _ | field
  · right
    refine ⟨rfl, _, _, ?_, rfl⟩
    apply adds_place
  · left
    exact ⟨field, rfl, rfl⟩

/-- Calls of `register_field`, one after the other. -/
def registering : Machine BaseSchema Registration where
  step s c := some (s.registerField c.type c.name c.offset).1

theorem registering_run (s : BaseSchema) (calls : List Registration) :
  registering.run s calls = some (s.register calls)
  := by
  induction calls generalizing s with
  | nil => rfl
  | cons c calls ih =>
      rw [Machine.run_cons]
      apply ih

theorem register_concat {calls : List Registration} {c : Registration} :
  s.register (calls ++ [c]) =
    ((s.register calls).registerField c.type c.name c.offset).1
  := by
  rw [register, List.foldl_append]
  rfl

theorem mem_of_find {name : String} {field : Field} (h : s.find name = some field) :
  field ∈ s.fieldMap ∧ field.name = name
  := by
  constructor
  · apply List.mem_of_find?_eq_some h
  · simpa using List.find?_some h

theorem find_eq_none {name : String} :
  s.find name = none ↔ ∀ field, field ∈ s.fieldMap → field.name ≠ name
  := by
  simp [find]

/-- The lists of a schema after calls of `register_field`. -/
structure Lists (s : BaseSchema) (calls : List Registration) : Prop where
  names : s.fieldMap.map Field.name = (introducing calls).map Registration.name
  types : s.fieldMap.map Field.type = (introducing calls).map Registration.type
  constructors : s.constructors = constructorMerge.entries s.fieldMap
  cleaners : s.cleaners = cleanerMerge.entries s.fieldMap
  withMeta : s.withMetaConstructor = metadataMerge.entries s.fieldMap
  creators : s.metadataCreator =
    s.fieldMap.map fun field => if field.type.useMetadata then some field.type else none

theorem Lists.any_name {calls : List Registration} (h : s.Lists calls) {name : String} :
  ((introducing calls).any fun c => c.name = name) = true ↔
    ∃ field, field ∈ s.fieldMap ∧ field.name = name
  := by
  rw [← List.mem_map, h.names, List.mem_map]
  simp

/-- A call of `register_field` keeps the lists in step. -/
theorem Lists.registerField {calls : List Registration} (h : s.Lists calls) (c : Registration) :
  (s.registerField c.type c.name c.offset).1.Lists (calls ++ [c])
  := by
  obtain ⟨field, hfind, heq⟩ | ⟨hfind, field, s', hadds, heq⟩ := s.registerField_cases c
  · have hintro : introducing (calls ++ [c]) = introducing calls := by
      rw [introducing_concat, if_pos (h.any_name.mpr ⟨field, mem_of_find hfind⟩)]
    rw [heq]
    exact ⟨by rw [hintro, h.names], by rw [hintro, h.types], h.constructors, h.cleaners,
      h.withMeta, h.creators⟩
  · have hintro : introducing (calls ++ [c]) = introducing calls ++ [c] := by
      rw [introducing_concat, if_neg]
      intro hany
      obtain ⟨field, hfield, hname⟩ := h.any_name.mp hany
      apply find_eq_none.mp hfind field hfield hname
    rw [heq]
    constructor
    · rw [hadds.fieldMap, hintro, List.map_append, List.map_append, h.names]
      simp [hadds.name]
    · rw [hadds.fieldMap, hintro, List.map_append, List.map_append, h.types]
      simp [hadds.type]
    · rw [hadds.fieldMap, hadds.constructors, h.constructors, Merge.entries_concat]
    · rw [hadds.fieldMap, hadds.cleaners, h.cleaners, Merge.entries_concat]
    · rw [hadds.fieldMap, hadds.withMetaConstructor, h.withMeta, Merge.entries_concat]
    · rw [hadds.fieldMap, hadds.metadataCreator, List.map_append, h.creators, ← hadds.type]
      rfl

theorem lists_register (initAlign initAlignSize : ℕ) (calls : List Registration) :
  ((new initAlign initAlignSize).register calls).Lists calls
  := by
  induction calls using List.reverseRecOn with
  | nil => exact ⟨rfl, rfl, rfl, rfl, rfl, rfl⟩
  | append_singleton calls c ih =>
      rw [register_concat]
      apply ih.registerField c

end BaseSchema

end DynamicStruct
