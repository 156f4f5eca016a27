import CppFreshman.Schema.Registration

/-!
# Metadata of the fields

`construct_with_metadata_all` walks over `_with_meta_constructor`, in which neighbouring trivial
fields share an entry, and gives the constructor at an index the metadata at the same index,
while there is one metadata entry a field.  `constructsOwn_iff` says for which fields that is
right: no two trivial fields registered one after the other may come before a field whose
constructor reads its metadata.
-/

namespace DynamicStruct

/-- The constructor of a field with these types reads metadata. -/
def TypeInfo.readsMetadata (type : TypeInfo) : Bool :=
  !type.isTrivial && type.useMetadata

namespace BaseSchema

variable (s : BaseSchema)

/-- The calls for the fields whose constructors read metadata, with each field's own. -/
def ownCalls (ptr : ℕ) (pool : Option ℕ) (metadatas : List (Option ℕ)) : List Call :=
  ((s.fieldMap.zip metadatas).filter fun x => x.1.type.readsMetadata).map fun x =>
    ⟨.constructWithMetadata x.1.type, ptr + x.1.offset, pool, x.2, x.1.type.sizeOf⟩

/-- Every field whose constructor reads metadata is constructed with its own. -/
def ConstructsOwn (ptr : ℕ) (pool : Option ℕ) (metadatas : List (Option ℕ)) : Prop :=
  ∃ calls, s.constructWithMetadataAll ptr pool metadatas = some calls ∧
    (calls.filter fun call => call.method.readsMetadata) = s.ownCalls ptr pool metadatas

instance (ptr : ℕ) (pool : Option ℕ) (metadatas : List (Option ℕ)) :
    Decidable (s.ConstructsOwn ptr pool metadatas) :=
  match h : s.constructWithMetadataAll ptr pool metadatas with
  | none => isFalse fun ⟨_, hcalls, _⟩ => by cases h.symm.trans hcalls
  | some calls =>
      decidable_of_iff
        ((calls.filter fun call => call.method.readsMetadata) = s.ownCalls ptr pool metadatas)
        ⟨fun heq => ⟨calls, h, heq⟩, fun ⟨_, hcalls, heq⟩ => by
          cases h.symm.trans hcalls
          exact heq⟩

end BaseSchema

/-- No two neighbouring trivial types come before a type whose constructor reads metadata. -/
def NoTrivialPairBefore (types : List TypeInfo) : Prop :=
  ∀ before type after, types = before ++ type :: after → type.readsMetadata = true →
    before.IsChain fun a b => ¬(a.isTrivial = true ∧ b.isTrivial = true)

namespace BaseSchema

variable {s : BaseSchema}

theorem length_createMetadatas {made : ℕ} {creators : List (Option TypeInfo)} :
  (createMetadatas made creators).length = creators.length
  := by
  induction creators generalizing made with
  | nil => rfl
  | cons creator creators ih => cases creator <;> simp [createMetadatas, ih]

theorem le_of_mem_createMetadatas {made u : ℕ} {creators : List (Option TypeInfo)}
    (h : some u ∈ createMetadatas made creators) :
  made ≤ u
  := by
  induction creators generalizing made with
  | nil => simp [createMetadatas] at h
  | cons creator creators ih =>
      rcases creator with _ | type
      · apply ih
        simpa [createMetadatas] using h
      · obtain rfl | h : u = made ∨ some u ∈ createMetadatas (made + 1) creators := by
          simpa [createMetadatas] using h
        · apply Nat.le_refl
        · have := ih h
          omega

/-- An object stands at one place only. -/
theorem createMetadatas_inj {made u i j : ℕ} {creators : List (Option TypeInfo)}
    (hi : (createMetadatas made creators)[i]? = some (some u))
    (hj : (createMetadatas made creators)[j]? = some (some u)) :
  i = j
  := by
  induction creators generalizing made i j with
  | nil => simp [createMetadatas] at hi
  | cons creator creators ih =>
      rcases creator with _ | type
      · rcases i with _ | i
        · simp [createMetadatas] at hi
        · rcases j with _ | j
          · simp [createMetadatas] at hj
          · rw [ih hi hj]
      · have hne : ∀ k : ℕ, (createMetadatas (made + 1) creators)[k]? ≠ some (some made) := by
          intro k hk
          have := le_of_mem_createMetadatas (List.mem_of_getElem? hk)
          omega
        rcases i with _ | i
        · obtain rfl : made = u := by simpa [createMetadatas] using hi
          rcases j with _ | j
          · rfl
          · exact absurd hj (hne j)
        · rcases j with _ | j
          · obtain rfl : made = u := by simpa [createMetadatas] using hj
            exact absurd hi (hne i)
          · rw [ih hi hj]

/-- A creator makes an object. -/
theorem createMetadatas_of_creator (made : ℕ) {k : ℕ} {creators : List (Option TypeInfo)}
    {type : TypeInfo} (h : creators[k]? = some (some type)) :
  ∃ u, (createMetadatas made creators)[k]? = some (some u)
  := by
  induction creators generalizing made k with
  | nil => simp at h
  | cons creator creators ih =>
      rcases k with _ | k
      · obtain rfl : creator = some type := by simpa using h
        use made
        rfl
      · rcases creator with _ | type'
        · apply ih _ h
        · apply ih _ h

/-- With enough metadata the loop makes a call for every entry. -/
theorem constructWithMetadataFrom_eq {ptr i : ℕ} {pool : Option ℕ}
    {metadatas : List (Option ℕ)} {entries : List Entry}
    (h : i + entries.length ≤ metadatas.length) :
  constructWithMetadataFrom ptr pool metadatas i entries =
    some ((entries.zipIdx i).map fun x => x.1.call ptr pool (metadatas[x.2]?.getD none))
  := by
  induction entries generalizing i with
  | nil => rfl
  | cons entry entries ih =>
      rw [List.length_cons] at h
      have hi : i < metadatas.length := by omega
      have htail := ih (i := i + 1) (by omega)
      simp [constructWithMetadataFrom, htail, List.getElem?_eq_getElem hi]

/-- The entry of a field reads metadata if the field does. -/
theorem readsMetadata_entry (field : Field) :
  (metadataMerge.entry field).method.readsMetadata = field.type.readsMetadata
  := by
  cases h : field.type.isTrivial <;>
    simp [metadataMerge, zeroMerge, TypeInfo.readsMetadata, Method.readsMetadata, h]

/-- An entry that reads metadata is not one of trivial fields. -/
theorem joined_of_readsMetadata {entry : Entry} (h : entry.method.readsMetadata = true) :
  metadataMerge.joined entry = false
  := by
  cases hmethod : entry.method <;>
    simp_all [metadataMerge, zeroMerge, Method.readsMetadata]

/-- The entries that read metadata are those of the fields that do, each at the number of entries
of the fields before it. -/
theorem filter_readsMetadata (fields : List Field) :
  ((metadataMerge.entries fields).zipIdx.filter fun x => x.1.method.readsMetadata) =
    (fields.zipIdx.filter fun x => x.1.type.readsMetadata).map fun x =>
      (metadataMerge.entry x.1, (metadataMerge.entries (fields.take x.2)).length)
  := by
  have hjoined : ((metadataMerge.entries fields).zipIdx.filter
      fun x => x.1.method.readsMetadata) =
      ((metadataMerge.entries fields).zipIdx.filter fun x => !metadataMerge.joined x.1).filter
        fun x => x.1.method.readsMetadata := by
    rw [List.filter_filter]
    apply List.filter_congr
    intro x _
    cases h : x.1.method.readsMetadata
    · rfl
    · rw [joined_of_readsMetadata h]
      rfl
  rw [hjoined, metadataMerge.filter_zipIdx_entries, List.filter_map, List.filter_filter]
  congr 1
  apply List.filter_congr
  intro x _
  rw [Function.comp_apply, readsMetadata_entry]
  cases h : x.1.type.isTrivial <;>
    simp [metadataMerge, zeroMerge, TypeInfo.readsMetadata, h]

/-- The call for the field with the metadata of an index. -/
def callOf (ptr : ℕ) (pool : Option ℕ) (metadatas : List (Option ℕ)) (field : Field) (k : ℕ) :
    Call :=
  ⟨.constructWithMetadata field.type, ptr + field.offset, pool, metadatas[k]?.getD none,
    field.type.sizeOf⟩

/-- The calls of the constructors that read metadata, which get the metadata at the index of
their entry. -/
theorem calls_eq {calls : List Registration} (h : s.Lists calls) (ptr : ℕ) (pool : Option ℕ)
    {metadatas : List (Option ℕ)} (hlength : s.fieldMap.length ≤ metadatas.length) :
  ∃ cs, s.constructWithMetadataAll ptr pool metadatas = some cs ∧
    (cs.filter fun call => call.method.readsMetadata) =
      (s.fieldMap.zipIdx.filter fun x => x.1.type.readsMetadata).map fun x =>
        callOf ptr pool metadatas x.1 (metadataMerge.entries (s.fieldMap.take x.2)).length
  := by
  have hle := metadataMerge.length_entries_le (l := s.fieldMap)
  rw [← h.withMeta] at hle
  refine ⟨_, constructWithMetadataFrom_eq (by omega), ?_⟩
  have hfilter : ((fun call : Call => call.method.readsMetadata) ∘
      fun x : Entry × ℕ => x.1.call ptr pool (metadatas[x.2]?.getD none)) =
      fun x => x.1.method.readsMetadata := by
    funext x
    rfl
  rw [List.filter_map, hfilter, h.withMeta, filter_readsMetadata, List.map_map]
  apply List.map_congr_left
  intro x hx
  have hreads : x.1.type.readsMetadata = true := by
    simpa using (List.mem_filter.mp hx).2
  have htrivial : x.1.type.isTrivial = false := by
    rw [TypeInfo.readsMetadata, Bool.and_eq_true] at hreads
    simpa using hreads.1
  simp [callOf, Entry.call, metadataMerge, zeroMerge, htrivial]

theorem ownCalls_eq {ptr : ℕ} {pool : Option ℕ} {metadatas : List (Option ℕ)}
    (hlength : s.fieldMap.length = metadatas.length) :
  s.ownCalls ptr pool metadatas =
    (s.fieldMap.zipIdx.filter fun x => x.1.type.readsMetadata).map fun x =>
      callOf ptr pool metadatas x.1 x.2
  := by
  have hzip : s.fieldMap.zip metadatas =
      s.fieldMap.zipIdx.map fun x => (x.1, metadatas[x.2]?.getD none) := by
    apply List.ext_getElem
    · simp [hlength]
    · intro k hk _
      have : k < metadatas.length := by
        simp at hk
        omega
      simp [List.getElem?_eq_getElem this]
  rw [ownCalls, hzip, List.filter_map, List.map_map]
  rfl

/-- Whether the constructors get their own metadata depends on the positions alone. -/
theorem constructsOwn_iff_chain {calls : List Registration} (h : s.Lists calls) {ptr made : ℕ}
    {pool : Option ℕ} :
  s.ConstructsOwn ptr pool (createMetadatas made s.metadataCreator) ↔
    ∀ x, x ∈ s.fieldMap.zipIdx → x.1.type.readsMetadata = true →
      (s.fieldMap.take x.2).IsChain
        fun a b => ¬(a.type.isTrivial = true ∧ b.type.isTrivial = true)
  := by
  have hlength : s.fieldMap.length = (createMetadatas made s.metadataCreator).length := by
    rw [length_createMetadatas, h.creators, List.length_map]
  obtain ⟨cs, hcs, hfilter⟩ := calls_eq h ptr pool (Nat.le_of_eq hlength)
  have hiff : s.ConstructsOwn ptr pool (createMetadatas made s.metadataCreator) ↔
      ∀ x, x ∈ s.fieldMap.zipIdx.filter (fun x => x.1.type.readsMetadata) →
        callOf ptr pool (createMetadatas made s.metadataCreator) x.1
          (metadataMerge.entries (s.fieldMap.take x.2)).length =
        callOf ptr pool (createMetadatas made s.metadataCreator) x.1 x.2 := by
    rw [← List.map_inj_left, ← hfilter, ← ownCalls_eq hlength]
    constructor
    · rintro ⟨cs', hcs', heq⟩
      obtain rfl := Option.some.inj (hcs.symm.trans hcs')
      apply heq
    · intro heq
      use cs, hcs, heq
  rw [hiff]
  simp only [List.mem_filter, and_imp]
  apply forall_congr'
  intro x
  apply forall_congr'
  intro hx
  apply forall_congr'
  intro hreads
  have hx : s.fieldMap[x.2]? = some x.1 := List.mem_zipIdx_iff_getElem?.mp hx
  obtain ⟨hlt, hget⟩ := List.getElem?_eq_some_iff.mp hx
  have htake : (s.fieldMap.take x.2).length = x.2 := by
    rw [List.length_take]
    omega
  have hle := metadataMerge.length_entries_le (l := s.fieldMap.take x.2)
  have hcreator : s.metadataCreator[x.2]? = some (some x.1.type) := by
    rw [h.creators, List.getElem?_map, hx]
    rw [TypeInfo.readsMetadata, Bool.and_eq_true] at hreads
    simp [hreads.2]
  obtain ⟨u, hu⟩ := createMetadatas_of_creator made hcreator
  have hchain := metadataMerge.length_entries_eq_iff (l := s.fieldMap.take x.2)
  rw [htake] at hle hchain
  have hplace : (metadataMerge.entries (s.fieldMap.take x.2)).length <
      (createMetadatas made s.metadataCreator).length := by
    omega
  constructor
  · intro hcall
    apply hchain.mp
    have hmeta := congrArg Call.metadata hcall
    simp only [callOf, hu, Option.getD_some] at hmeta
    apply createMetadatas_inj _ hu
    rw [List.getElem?_eq_getElem hplace] at hmeta ⊢
    rw [← hmeta]
    rfl
  · intro hR
    rw [hchain.mpr hR]

end BaseSchema

/-- The condition on the types of the fields, position by position. -/
theorem noTrivialPairBefore_iff {fields : List Field} :
  NoTrivialPairBefore (fields.map Field.type) ↔
    ∀ x, x ∈ fields.zipIdx → x.1.type.readsMetadata = true →
      (fields.take x.2).IsChain
        fun a b => ¬(a.type.isTrivial = true ∧ b.type.isTrivial = true)
  := by
  constructor
  · intro h x hx hreads
    obtain ⟨hlt, hget⟩ := List.getElem?_eq_some_iff.mp (List.mem_zipIdx_iff_getElem?.mp hx)
    have hsplit : fields = fields.take x.2 ++ x.1 :: fields.drop (x.2 + 1) := by
      rw [← hget, List.getElem_cons_drop, List.take_append_drop]
    have := h ((fields.take x.2).map Field.type) x.1.type
      ((fields.drop (x.2 + 1)).map Field.type)
      (by rw [← List.map_cons, ← List.map_append, ← hsplit]) hreads
    rwa [List.isChain_map] at this
  · intro h before type after heq hreads
    obtain ⟨l, l', rfl, rfl, hl'⟩ := List.map_eq_append_iff.mp heq
    obtain ⟨field, l', rfl, rfl, rfl⟩ := List.map_eq_cons_iff.mp hl'
    rw [List.isChain_map]
    have := h (field, l.length) (List.mem_zipIdx_iff_getElem?.mpr (by simp)) hreads
    simpa using this

/-- After any calls of `register_field`, with the metadata that the creators make, every field
whose constructor reads metadata is constructed with its own exactly if no two trivial fields
registered one after the other come before such a field. -/
theorem constructsOwn_iff (initAlign initAlignSize : ℕ) (calls : List BaseSchema.Registration)
    (ptr made : ℕ) (pool : Option ℕ) :
  ((BaseSchema.new initAlign initAlignSize).register calls).ConstructsOwn ptr pool
      (BaseSchema.createMetadatas made
        ((BaseSchema.new initAlign initAlignSize).register calls).metadataCreator) ↔
    NoTrivialPairBefore ((introducing calls).map BaseSchema.Registration.type)
  := by
  have h := BaseSchema.lists_register initAlign initAlignSize calls
  rw [BaseSchema.constructsOwn_iff_chain h, ← h.types, noTrivialPairBefore_iff]

/-- Two numbers and a string: the string is constructed with the null entry of the second number. -/
theorem numbersAndString_not_constructsOwn :
  ¬ ((BaseSchema.new 8 8).register
      [⟨int32, "id", npos⟩, ⟨int32, "age", npos⟩, ⟨pooledString, "name", npos⟩]).ConstructsOwn 0
      (some 0) (BaseSchema.createMetadatas 0
        ((BaseSchema.new 8 8).register
          [⟨int32, "id", npos⟩, ⟨int32, "age", npos⟩,
            ⟨pooledString, "name", npos⟩]).metadataCreator)
  := by
  decide +kernel

end DynamicStruct
