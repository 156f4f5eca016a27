import CppFreshman.Words.Align

/-!
# Schemas of dynamic structs

`BaseSchema`: the fields of a struct that is laid out at run time, with the lists of what is to
be called for them when a struct is constructed, cleared and destroyed.  What the code knows of
the template arguments `T` and `A` of a field is a `TypeInfo`; a pointer to a member template is
a `Method`, and a list of calls through such pointers is a list of `Call`s.

A `size_t` is a natural number; the operations that may wrap around are taken modulo `2 ^ 64`.
-/

namespace DynamicStruct

/-- What is known of the types `T` and `A` of `register_field<T, A>`: the number of `T`, its size
and alignment, whether it is a pointer, the schema of `T` or of what it points to, if that is a
dynamic struct, and what the traits say.

A `T` with metadata has an `A` other than `void`: with `void` two of the overloads of
`construct_with_metadata` are enabled, and the registration does not compile. -/
structure TypeInfo where
  id : ℕ
  sizeOf : ℕ
  alignOf : ℕ
  isPointer : Bool
  structSchema : Option ℕ
  isTrivial : Bool
  isTriviallyDestructible : Bool
  isVoid : Bool
  useMetadata : Bool
  size_pos : 0 < sizeOf
  align_pow : ∃ k, alignOf = 2 ^ k
  align_dvd : alignOf ∣ sizeOf
  trivial_destructible : isTrivial = true → isTriviallyDestructible = true
  metadata_allocator : useMetadata = true → isVoid = false
  deriving DecidableEq

inductive FieldType where
  | dynamicStruct
  | dynamicStructPointer
  | other
  deriving DecidableEq

/-- A registered field; `type` is what `type_id` points to. -/
structure Field where
  offset : ℕ
  name : String
  type : TypeInfo
  fieldType : FieldType
  schema : Option ℕ
  deriving DecidableEq

structure FieldAccessor where
  offset : ℕ
  fieldType : FieldType
  field : Field

def FieldAccessor.ofField (field : Field) : FieldAccessor :=
  ⟨field.offset, field.fieldType, field⟩

/-- The functions that are called for a field. -/
inductive Method where
  | fillWithZero
  | construct (type : TypeInfo)
  | constructWithPool (type : TypeInfo)
  | constructWithMetadata (type : TypeInfo)
  | reconstruct (type : TypeInfo)
  deriving DecidableEq

/-- An entry of `_constructors`, `_cleaners` or `_with_meta_constructor`. -/
structure Entry where
  offset : ℕ
  size : ℕ
  method : Method
  deriving DecidableEq

/-- The offset of a field that has no explicit offset, `std::string::npos`. -/
def npos : ℕ :=
  2 ^ 64 - 1

/-- The schema: `_field_map` in the order of the registrations, and the other members.  A creator,
a deletor and an updator are the types that they are instances for. -/
structure BaseSchema where
  fieldMap : List Field
  destructors : List (ℕ × TypeInfo)
  constructors : List Entry
  cleaners : List Entry
  metadataCreator : List (Option TypeInfo)
  metadataDeletor : List (Option TypeInfo)
  metadataUpdator : List (ℕ × Option TypeInfo)
  withMetaConstructor : List Entry
  allocateAlign : ℕ
  allocateSize : ℕ
  baseOffset : ℕ
  unalignedAllocateSize : ℕ
  isTriviallyDestructible : Bool

/-- A new entry of a list of calls: a trivial field is to be filled with zeroes, together with the
field before it if that is too; any other field gets an entry with `method`. -/
def addEntry (method : Method) (field : Field) (entries : List Entry) : List Entry :=
  if field.type.isTrivial then
    match entries.getLast? with
    | none => entries ++ [⟨field.offset, field.type.sizeOf, .fillWithZero⟩]
    | some last =>
        if last.method ≠ .fillWithZero then
          entries ++ [⟨field.offset, field.type.sizeOf, .fillWithZero⟩]
        else
          entries.dropLast ++ [{ last with
            size := (field.offset + (2 ^ 64 - last.offset) + field.type.sizeOf) % 2 ^ 64 }]
  else
    entries ++ [⟨field.offset, field.type.sizeOf, method⟩]

namespace BaseSchema

/-- The constructor of `BaseSchema`. -/
def new (initAlign initAlignSize : ℕ) : BaseSchema where
  fieldMap := []
  destructors := []
  constructors := []
  cleaners := []
  metadataCreator := []
  metadataDeletor := []
  metadataUpdator := []
  withMetaConstructor := []
  allocateAlign := initAlign
  allocateSize := initAlignSize
  baseOffset := initAlignSize
  unalignedAllocateSize := initAlignSize
  isTriviallyDestructible := true

variable (s : BaseSchema)

/-- The field of that name. -/
def find (name : String) : Option Field :=
  s.fieldMap.find? fun field => field.name = name

def setSizeAndAlign (size align : ℕ) : BaseSchema :=
  let align := max s.allocateAlign align
  let unaligned := (s.unalignedAllocateSize + size) % 2 ^ 64
  { s with
    allocateAlign := align
    unalignedAllocateSize := unaligned
    allocateSize := alignUp unaligned align }

/-- A place for a field behind those there are; its offset is relative to the data area. -/
def addFieldAndCalculateSize (type : TypeInfo) : BaseSchema × ℕ :=
  let offset := alignUp s.unalignedAllocateSize type.alignOf
  let unaligned := (offset + type.sizeOf) % 2 ^ 64
  let align := max s.allocateAlign type.alignOf
  ({ s with
    unalignedAllocateSize := unaligned
    allocateAlign := align
    allocateSize := alignUp unaligned align },
   (offset + (2 ^ 64 - s.baseOffset)) % 2 ^ 64)

def addConstructor (field : Field) : BaseSchema :=
  let method : Method :=
    if field.type.isVoid then .construct field.type else .constructWithPool field.type
  { s with constructors := addEntry method field s.constructors }

def addDestructor (field : Field) : BaseSchema :=
  { s with
    destructors :=
      if !field.type.isTriviallyDestructible && field.type.isVoid then
        s.destructors ++ [(field.offset, field.type)]
      else s.destructors
    isTriviallyDestructible := s.isTriviallyDestructible && field.type.isTriviallyDestructible }

def addCleaner (field : Field) : BaseSchema :=
  { s with cleaners := addEntry (.reconstruct field.type) field s.cleaners }

def addMetaData (type : TypeInfo) : BaseSchema :=
  { s with
    metadataCreator := s.metadataCreator ++ [if type.useMetadata then some type else none]
    metadataDeletor := s.metadataDeletor ++ [if type.useMetadata then some type else none] }

def addUpdateMetadata (field : Field) : BaseSchema :=
  { s with
    metadataUpdator := s.metadataUpdator ++
      [(field.offset, if field.type.useMetadata then some field.type else none)] }

def addConstructWithMetadata (field : Field) : BaseSchema :=
  { s with
    withMetaConstructor :=
      addEntry (.constructWithMetadata field.type) field s.withMetaConstructor }

/-- `register_field` for a field that is not there yet: its place and its entries. -/
def addField (type : TypeInfo) (name : String) (fieldType : FieldType) (offset : ℕ)
    (schema : Option ℕ) : BaseSchema × FieldAccessor :=
  let (s, offset) := if offset = npos then s.addFieldAndCalculateSize type else (s, offset)
  let field : Field := ⟨offset, name, type, fieldType, schema⟩
  let s := s.addConstructor field
  let s := s.addDestructor field
  let s := s.addCleaner field
  let s := s.addMetaData type
  let s := s.addUpdateMetadata field
  let s := s.addConstructWithMetadata field
  ({ s with fieldMap := s.fieldMap ++ [field] }, .ofField field)

/-- The protected `register_field`. -/
def registerFieldAs (type : TypeInfo) (name : String) (fieldType : FieldType) (offset : ℕ)
    (schema : Option ℕ) : BaseSchema × FieldAccessor :=
  match s.find name with
  | some field => (s, .ofField field)
  | none => s.addField type name fieldType offset schema

/-- The public `register_field`: the overload depends on whether `T` is a pointer and on whether
it, or what it points to, is a dynamic struct. -/
def registerField (type : TypeInfo) (name : String) (offset : ℕ) : BaseSchema × FieldAccessor :=
  match type.isPointer, type.structSchema with
  | true, some schema => s.registerFieldAs type name .dynamicStructPointer offset (some schema)
  | true, none => s.registerFieldAs type name .other offset none
  | false, some schema => s.registerFieldAs type name .dynamicStruct offset (some schema)
  | false, none => s.registerFieldAs type name .other offset none

/-- A call of `register_field`. -/
structure Registration where
  type : TypeInfo
  name : String
  offset : ℕ
  deriving DecidableEq

/-- The schema after calls of `register_field`, one after the other. -/
def register (calls : List Registration) : BaseSchema :=
  calls.foldl (fun s c => (s.registerField c.type c.name c.offset).1) s

end BaseSchema

/-- A call of a method for a field; `metadata` is null or the number of an object. -/
structure Call where
  method : Method
  ptr : ℕ
  pool : Option ℕ
  metadata : Option ℕ
  size : ℕ
  deriving DecidableEq

/-- The call that an entry stands for. -/
def Entry.call (entry : Entry) (ptr : ℕ) (pool metadata : Option ℕ) : Call :=
  ⟨entry.method, ptr + entry.offset, pool, metadata, entry.size⟩

/-- A constructor that reads the metadata that it is given. -/
def Method.readsMetadata : Method → Bool
  | .constructWithMetadata type => type.useMetadata
  | _ => false

namespace BaseSchema

variable (s : BaseSchema)

def constructAll (ptr : ℕ) (pool : Option ℕ) : List Call :=
  s.constructors.map fun entry => entry.call ptr pool none

def clearAll (ptr : ℕ) (pool : Option ℕ) : List Call :=
  s.cleaners.map fun entry => entry.call ptr pool none

/-- The loop of `construct_with_metadata_all` from the index `i` on; it fails if it reads behind
the end of `metadatas`. -/
def constructWithMetadataFrom (ptr : ℕ) (pool : Option ℕ) (metadatas : List (Option ℕ)) :
    ℕ → List Entry → Option (List Call)
  | _, [] => some []
  | i, entry :: entries => do
      let metadata ← metadatas[i]?
      let calls ← constructWithMetadataFrom ptr pool metadatas (i + 1) entries
      pure (entry.call ptr pool metadata :: calls)

def constructWithMetadataAll (ptr : ℕ) (pool : Option ℕ) (metadatas : List (Option ℕ)) :
    Option (List Call) :=
  constructWithMetadataFrom ptr pool metadatas 0 s.withMetaConstructor

/-- The metadata that `update_allocation_metadata` creates with the creators, one entry after the
other; the objects are numbered from `made` on. -/
def createMetadatas : ℕ → List (Option TypeInfo) → List (Option ℕ)
  | _, [] => []
  | made, some _ :: creators => some made :: createMetadatas (made + 1) creators
  | made, none :: creators => none :: createMetadatas made creators

end BaseSchema

end DynamicStruct
