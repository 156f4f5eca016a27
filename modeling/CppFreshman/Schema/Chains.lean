import CppFreshman.Schema.Placement

/-!
# Structs in structs

A field of a dynamic struct may be a dynamic struct itself, or a pointer to one.
`get_dynamic_struct` gives the struct that a field is or points to, so that the fields of structs in
structs are reached by chains of calls.

Chains from a struct that go through no pointer lead to fields in its bytes, which have no byte in
common unless one chain is the beginning of the other (`chains_apart`).  A chain that goes through
pointers leads to the bytes of a struct that is there, as long as the pointers do
(`chains_inside`).
-/

namespace DynamicStruct

open BaseSchema (Registration)

/-- `get_field`, which aborts if there is no field of that name. -/
def BaseSchema.getField (s : BaseSchema) (name : String) : Option FieldAccessor :=
  (s.find name).map .ofField

/-- `get`. -/
def get (ds : ℕ) (field : FieldAccessor) : ℕ :=
  ds + field.offset

/-- `get_dynamic_struct` and `cget_dynamic_struct`; `memory` has the pointers that are stored. -/
def getDynamicStruct (memory : ℕ → Option ℕ) (ds : ℕ) (field : FieldAccessor) : Option ℕ :=
  match field.fieldType with
  | .dynamicStruct => some (get ds field)
  | .dynamicStructPointer => memory (get ds field)
  | .other => none

/-- The fields do not overlap, and they lie in the first `size` bytes. -/
structure BaseSchema.LaidOut (s : BaseSchema) (size : ℕ) : Prop where
  apart : s.fieldMap.Pairwise fun f g =>
    f.offset + f.type.sizeOf ≤ g.offset ∨ g.offset + g.type.sizeOf ≤ f.offset
  inside : ∀ f, f ∈ s.fieldMap → f.offset + f.type.sizeOf ≤ size

/-- The schemas of a program, and the sizes of their structs; a field that is a struct has the size
of that. -/
structure Schemas where
  schema : ℕ → BaseSchema
  size : ℕ → ℕ
  laidOut : ∀ k, (schema k).LaidOut (size k)
  embeds : ∀ k f, f ∈ (schema k).fieldMap → f.fieldType = .dynamicStruct →
    ∀ j, f.schema = some j → f.type.sizeOf = size j

namespace Schemas

variable (p : Schemas) (memory : ℕ → Option ℕ)

/-- The struct that a chain of calls of `get_dynamic_struct` leads to from a struct of the schema
`k` at `ds`, and its schema; a null pointer or a field that is no struct ends it. -/
def follow (k ds : ℕ) : List String → Option (ℕ × ℕ)
  | [] => some (k, ds)
  | name :: names => do
      let field ← (p.schema k).getField name
      let ds ← getDynamicStruct memory ds field
      let k ← field.field.schema
      follow k ds names

/-- Where the field is that is got at the end of a chain, and its size. -/
def access (k ds : ℕ) (names : List String) (name : String) : Option (ℕ × ℕ) := do
  let (k, ds) ← p.follow memory k ds names
  let field ← (p.schema k).getField name
  pure (get ds field, field.field.type.sizeOf)

end Schemas

/-! ### Schemas that are laid out -/

/-- The fields of a sound schema are in the bytes that are allocated behind the header. -/
theorem BaseSchema.Sound.laidOut {s : BaseSchema} (h : s.Sound)
    (hlt : ∀ f, f ∈ s.fieldMap → f.offset < 2 ^ 64) :
  s.LaidOut (s.allocateSize - sizeofMeta)
  := by
  have hdistance : ∀ f, f ∈ s.fieldMap → f.distance = sizeofMeta + f.offset := by
    intro f hf
    have hheader := h.header f hf
    have hoffset := hlt f hf
    rw [Field.distance, sizeofMeta] at *
    omega
  constructor
  · apply h.apart.imp_of_mem
    intro f g hf hg hapart
    rw [hdistance f hf, hdistance g hg] at hapart
    omega
  · intro f hf
    have hinside := h.inside f hf
    rw [hdistance f hf] at hinside
    omega

/-- Fields of different names do not overlap. -/
theorem BaseSchema.LaidOut.apart_of_find {s : BaseSchema} {size : ℕ} {name name' : String}
    {f g : Field} (h : s.LaidOut size) (hf : s.find name = some f) (hg : s.find name' = some g)
    (hne : name ≠ name') :
  f.offset + f.type.sizeOf ≤ g.offset ∨ g.offset + g.type.sizeOf ≤ f.offset
  := by
  obtain ⟨hfmem, rfl⟩ := BaseSchema.mem_of_find hf
  obtain ⟨hgmem, rfl⟩ := BaseSchema.mem_of_find hg
  have hpair := h.apart
  rw [List.pairwise_iff_forall_sublist] at hpair
  have hsub : [f, g].Sublist s.fieldMap ∨ [g, f].Sublist s.fieldMap := by
    obtain ⟨before, after, heq⟩ := List.append_of_mem hfmem
    rw [heq] at hgmem ⊢
    rcases List.mem_append.mp hgmem with hg | hg
    · right
      apply List.Sublist.append (List.singleton_sublist.mpr hg)
      apply List.Sublist.cons_cons f (List.nil_sublist after)
    · rcases List.mem_cons.mp hg with rfl | hg
      · exact absurd rfl hne
      · left
        apply List.Sublist.trans _ (List.sublist_append_right before _)
        apply List.Sublist.cons_cons f (List.singleton_sublist.mpr hg)
  rcases hsub with hsub | hsub
  · apply hpair hsub
  · apply (hpair hsub).symm

/-- The registered members of a struct are in its bytes. -/
theorem StructType.laidOut (t : StructType) {order : List Registration}
    (horder : order.Subperm t.members) :
  (t.schema order).LaidOut t.size
  := by
  have hfields : (t.schema order).fieldMap.map Field.registration = order :=
    BaseSchema.fieldMap_register (Layout.names_order horder) (t.offset_ne_npos horder)
  have hapart := Layout.apart_order horder
  constructor
  · have hpair : order.Pairwise fun c c' => c.limit ≤ c'.offset ∨ c'.limit ≤ c.offset := by
      apply hapart.nodup.imp_of_mem
      intro c c' hc hc' hne
      apply hapart.apart c hc c' hc' hne
    rw [← hfields, List.pairwise_map] at hpair
    exact hpair
  · intro f hf
    have hmem : f.registration ∈ order := by
      rw [← hfields]
      apply List.mem_map_of_mem hf
    apply t.limit_le f.registration (horder.subset hmem)

/-! ### Chains through no pointer -/

namespace Schemas

variable {p : Schemas} {memory : ℕ → Option ℕ} {k ds j x : ℕ} {name name' : String}
  {names names' : List String} {r r' : ℕ × ℕ}

/-- The first field of a chain is found, and is or points to a struct, from which the rest of the
chain is followed. -/
theorem follow_cons (h : p.follow memory k ds (name :: names) = some (j, x)) :
  ∃ f y i, (p.schema k).find name = some f ∧
    getDynamicStruct memory ds (.ofField f) = some y ∧ f.schema = some i ∧
    p.follow memory i y names = some (j, x)
  := by
  obtain ⟨field, hfield, hnext⟩ := Option.bind_eq_some_iff.mp h
  obtain ⟨f, hf, rfl⟩ := Option.map_eq_some_iff.mp hfield
  obtain ⟨y, hy, hlast⟩ := Option.bind_eq_some_iff.mp hnext
  obtain ⟨i, hi, hrest⟩ := Option.bind_eq_some_iff.mp hlast
  exact ⟨f, y, i, hf, hy, hi, hrest⟩

/-- Without pointers a field that is followed is a struct. -/
theorem getDynamicStruct_null {f : Field} {y : ℕ}
    (h : getDynamicStruct (fun _ => none) ds (.ofField f) = some y) :
  f.fieldType = .dynamicStruct ∧ y = ds + f.offset
  := by
  rw [getDynamicStruct] at h
  split at h
  · next heq => exact ⟨heq, (Option.some.inj h).symm⟩
  · cases h
  · cases h

theorem access_nil (h : p.access memory k ds [] name = some r) :
  ∃ f, (p.schema k).find name = some f ∧ r = (ds + f.offset, f.type.sizeOf)
  := by
  obtain ⟨field, hfield, h⟩ := Option.bind_eq_some_iff.mp h
  obtain ⟨f, hf, rfl⟩ := Option.map_eq_some_iff.mp hfield
  exact ⟨f, hf, (Option.some.inj h).symm⟩

/-- The first struct of a chain through no pointer is a field, in which the rest of the chain
leads on. -/
theorem access_cons (h : p.access (fun _ => none) k ds (name' :: names) name = some r) :
  ∃ f i, (p.schema k).find name' = some f ∧ f.type.sizeOf = p.size i ∧ f.schema = some i ∧
    p.access (fun _ => none) i (ds + f.offset) names name = some r
  := by
  obtain ⟨⟨j, x⟩, hfollow, h⟩ := Option.bind_eq_some_iff.mp h
  obtain ⟨f, y, i, hf, hy, hi, hrest⟩ := follow_cons hfollow
  obtain ⟨htype, rfl⟩ := getDynamicStruct_null hy
  refine ⟨f, i, hf, p.embeds k f (BaseSchema.mem_of_find hf).1 htype i hi, hi, ?_⟩
  apply Option.bind_eq_some_iff.mpr
  use (j, x)

/-- The name of the first field of a chain. -/
def first : List String → String → String
  | [], name => name
  | name :: _, _ => name

/-- The field at the end of a chain through no pointer lies in the first field of the chain. -/
theorem access_first (h : p.access (fun _ => none) k ds names name = some r) :
  ∃ f, (p.schema k).find (first names name) = some f ∧ ds + f.offset ≤ r.1 ∧
    r.1 + r.2 ≤ ds + f.offset + f.type.sizeOf
  := by
  induction names generalizing k ds with
  | nil =>
      obtain ⟨f, hf, rfl⟩ := access_nil h
      exact ⟨f, hf, Nat.le_refl _, Nat.le_refl _⟩
  | cons name' names ih =>
      obtain ⟨f, i, hf, hsize, -, hrest⟩ := access_cons h
      obtain ⟨g, hg, hlo, hhi⟩ := ih hrest
      have hinside := (p.laidOut i).inside g (BaseSchema.mem_of_find hg).1
      refine ⟨f, hf, ?_, ?_⟩
      · omega
      · omega

/-- The field at the end of a chain through no pointer lies in the struct that the chain begins
at. -/
theorem access_inside (h : p.access (fun _ => none) k ds names name = some r) :
  ds ≤ r.1 ∧ r.1 + r.2 ≤ ds + p.size k
  := by
  obtain ⟨f, hf, hlo, hhi⟩ := access_first h
  have hinside := (p.laidOut k).inside f (BaseSchema.mem_of_find hf).1
  constructor
  · omega
  · omega

/-- A longer chain leads into the field that the beginning of it leads to. -/
theorem access_prefix (h : p.access (fun _ => none) k ds names name = some r)
    (h' : p.access (fun _ => none) k ds names' name' = some r')
    (hpre : names ++ [name] <+: names' ++ [name']) :
  r.1 ≤ r'.1 ∧ r'.1 + r'.2 ≤ r.1 + r.2
  := by
  induction names generalizing k ds names' with
  | nil =>
      obtain ⟨f, hf, rfl⟩ := access_nil h
      obtain ⟨f', hf', hlo, hhi⟩ := access_first h'
      have hname : first names' name' = name := by
        cases names' with
        | nil => exact (List.cons_prefix_cons.mp hpre).1.symm
        | cons n ns => exact (List.cons_prefix_cons.mp hpre).1.symm
      rw [hname] at hf'
      obtain rfl := Option.some.inj (hf.symm.trans hf')
      exact ⟨hlo, hhi⟩
  | cons n ns ih =>
      cases names' with
      | nil =>
          have hlen := hpre.length_le
          simp at hlen
      | cons n' ns' =>
          obtain ⟨rfl, hrest⟩ := List.cons_prefix_cons.mp hpre
          obtain ⟨f, i, hf, -, hi, hr⟩ := access_cons h
          obtain ⟨f', i', hf', -, hi', hr'⟩ := access_cons h'
          obtain rfl := Option.some.inj (hf.symm.trans hf')
          obtain rfl := Option.some.inj (hi.symm.trans hi')
          apply ih hr hr' hrest

/-- Chains that are not the beginning of each other lead to fields that do not overlap. -/
theorem access_apart (h : p.access (fun _ => none) k ds names name = some r)
    (h' : p.access (fun _ => none) k ds names' name' = some r')
    (hpre : ¬ names ++ [name] <+: names' ++ [name'])
    (hpre' : ¬ names' ++ [name'] <+: names ++ [name]) :
  r.1 + r.2 ≤ r'.1 ∨ r'.1 + r'.2 ≤ r.1
  := by
  induction names generalizing k ds names' with
  | nil =>
      have hne : name ≠ first names' name' := by
        rintro rfl
        apply hpre
        cases names' with
        | nil => apply List.prefix_refl
        | cons n ns =>
            apply List.cons_prefix_cons.mpr
            exact ⟨rfl, List.nil_prefix⟩
      obtain ⟨f, hf, hlo, hhi⟩ := access_first h
      obtain ⟨f', hf', hlo', hhi'⟩ := access_first h'
      have hapart := (p.laidOut k).apart_of_find hf hf' hne
      omega
  | cons n ns ih =>
      rcases Classical.em (n = first names' name') with rfl | hne
      · cases names' with
        | nil =>
            apply absurd _ hpre'
            apply List.cons_prefix_cons.mpr
            exact ⟨rfl, List.nil_prefix⟩
        | cons n' ns' =>
            obtain ⟨f, i, hf, -, hi, hr⟩ := access_cons h
            obtain ⟨f', i', hf', -, hi', hr'⟩ := access_cons h'
            obtain rfl := Option.some.inj (hf.symm.trans hf')
            obtain rfl := Option.some.inj (hi.symm.trans hi')
            apply ih hr hr'
            · intro hrest
              apply hpre (List.cons_prefix_cons.mpr ⟨rfl, hrest⟩)
            · intro hrest
              apply hpre' (List.cons_prefix_cons.mpr ⟨rfl, hrest⟩)
      · obtain ⟨f, hf, hlo, hhi⟩ := access_first h
        obtain ⟨f', hf', hlo', hhi'⟩ := access_first h'
        have hapart := (p.laidOut k).apart_of_find hf hf' hne
        omega

/-! ### Chains through pointers -/

/-- The structs that are objects, and the structs in them. -/
inductive Reached (p : Schemas) (objects : ℕ → ℕ → Prop) : ℕ → ℕ → Prop
  | object {k ds : ℕ} (h : objects k ds) : Reached p objects k ds
  | field {k ds j : ℕ} {name : String} {f : Field} (h : Reached p objects k ds)
      (hf : (p.schema k).find name = some f) (htype : f.fieldType = .dynamicStruct)
      (hj : f.schema = some j) : Reached p objects j (ds + f.offset)

/-- The pointers in the structs are to structs of their types, or null. -/
def Valid (p : Schemas) (objects : ℕ → ℕ → Prop) (memory : ℕ → Option ℕ) : Prop :=
  ∀ k ds, p.Reached objects k ds → ∀ f, f ∈ (p.schema k).fieldMap →
    f.fieldType = .dynamicStructPointer → ∀ j, f.schema = some j →
      ∀ y, memory (ds + f.offset) = some y → p.Reached objects j y

variable {objects : ℕ → ℕ → Prop}

/-- A struct in an object lies in the bytes of that. -/
theorem Reached.inside (h : p.Reached objects k ds) :
  ∃ k' ds', objects k' ds' ∧ ds' ≤ ds ∧ ds + p.size k ≤ ds' + p.size k'
  := by
  induction h with
  | @object k ds h => exact ⟨k, ds, h, Nat.le_refl _, Nat.le_refl _⟩
  | @field k ds j name f h hf htype hj ih =>
      obtain ⟨k', ds', hobject, hlo, hhi⟩ := ih
      have hmem := (BaseSchema.mem_of_find hf).1
      have hinside := (p.laidOut k).inside f hmem
      have hsize := p.embeds k f hmem htype j hj
      refine ⟨k', ds', hobject, ?_, ?_⟩
      · omega
      · omega

/-- A chain leads from structs that are there to structs that are there. -/
theorem Reached.follow (h : p.Reached objects k ds) (hvalid : p.Valid objects memory)
    (hfollow : p.follow memory k ds names = some (j, x)) :
  p.Reached objects j x
  := by
  induction names generalizing k ds with
  | nil =>
      obtain ⟨rfl, rfl⟩ := Prod.mk.inj (Option.some.inj hfollow)
      exact h
  | cons name names ih =>
      obtain ⟨f, y, i, hf, hy, hi, hrest⟩ := follow_cons hfollow
      apply ih _ hrest
      rw [getDynamicStruct] at hy
      split at hy
      · next htype =>
          obtain rfl := Option.some.inj hy
          apply h.field hf htype hi
      · next htype => apply hvalid k ds h f (BaseSchema.mem_of_find hf).1 htype i hi y hy
      · cases hy

end Schemas

/-! ### The fields that chains lead to -/

theorem exists_two_pow (k : ℕ) :
  ∃ j, 2 ^ k = 2 ^ j
  := ⟨k, rfl⟩

/-- A type without an allocator, whose size is `n + 1` times its alignment `2 ^ k`. -/
def plainType (i n k : ℕ) (isPointer isTrivial : Bool) (structSchema : Option ℕ) : TypeInfo where
  id := i
  sizeOf := (n + 1) * 2 ^ k
  alignOf := 2 ^ k
  isPointer := isPointer
  structSchema := structSchema
  isTrivial := isTrivial
  isTriviallyDestructible := isTrivial
  isVoid := true
  useMetadata := false
  size_pos := Nat.mul_pos n.succ_pos (Nat.two_pow_pos k)
  align_pow := exists_two_pow k
  align_dvd := Nat.dvd_mul_left _ _
  trivial_destructible := fun h => h
  metadata_allocator := quarterOfMemory.metadata_allocator

/-- A point, which is a struct. -/
def point : TypeInfo :=
  plainType 2 1 2 false true (some 2)

/-- A box with two points, and a pointer to one. -/
def box : TypeInfo :=
  plainType 3 3 2 false true (some 1)

def boxPointer : TypeInfo :=
  plainType 4 0 3 true true (some 1)

def pointType : StructType where
  size := point.sizeOf
  align := point.alignOf
  members := [⟨int32, "x", 0⟩, ⟨int32, "y", 4⟩]
  names := by decide
  apart := by decide
  limit_le := by decide
  size_lt := by decide
  align_pow := point.align_pow
  align_dvd := point.align_dvd
  size_pos := point.size_pos
  size_max := by decide
  member_dvd := by decide
  member_le := by decide

def boxType : StructType where
  size := box.sizeOf
  align := box.alignOf
  members := [⟨point, "from", 0⟩, ⟨point, "to", 8⟩]
  names := by decide
  apart := by decide
  limit_le := by decide
  size_lt := by decide
  align_pow := box.align_pow
  align_dvd := box.align_dvd
  size_pos := box.size_pos
  size_max := by decide
  member_dvd := by decide
  member_le := by decide

/-- A struct that is laid out at run time, with a number, a box and a pointer to a box. -/
def boxes : BaseSchema :=
  newSchema.register [⟨int32, "id", npos⟩, ⟨box, "own", npos⟩, ⟨boxPointer, "other", npos⟩]

/-- The schemas of the three structs. -/
def boxSchemas : Schemas where
  schema
    | 0 => boxes
    | 1 => boxType.schema [⟨point, "from", 0⟩, ⟨point, "to", 8⟩]
    | _ => pointType.schema [⟨int32, "x", 0⟩, ⟨int32, "y", 4⟩]
  size
    | 0 => boxes.allocateSize - sizeofMeta
    | 1 => 16
    | _ => 8
  laidOut
    | 0 => (BaseSchema.packed_register (by decide) (by decide +kernel)).sound.laidOut
        (by decide +kernel)
    | 1 => boxType.laidOut (List.Subperm.refl _)
    | _ + 2 => pointType.laidOut (List.Subperm.refl _)
  embeds
    | 0 => by
        have h : ∀ f, f ∈ boxes.fieldMap → f.fieldType = .dynamicStruct →
            ∀ j, j ∈ f.schema → j = 1 ∧ f.type.sizeOf = 16 := by
          decide +kernel
        intro f hf htype j hj
        obtain ⟨rfl, hsize⟩ := h f hf htype j hj
        exact hsize
    | 1 => by
        have h : ∀ f, f ∈ (boxType.schema [⟨point, "from", 0⟩, ⟨point, "to", 8⟩]).fieldMap →
            f.fieldType = .dynamicStruct → ∀ j, j ∈ f.schema → j = 2 ∧ f.type.sizeOf = 8 := by
          decide +kernel
        intro f hf htype j hj
        obtain ⟨rfl, hsize⟩ := h f hf htype j hj
        exact hsize
    | k + 2 => by
        have h : ∀ f, f ∈ (pointType.schema [⟨int32, "x", 0⟩, ⟨int32, "y", 4⟩]).fieldMap →
            f.fieldType ≠ .dynamicStruct := by
          decide +kernel
        intro f hf htype
        exact absurd htype (h f hf)

namespace Schemas

variable {p : Schemas} {memory : ℕ → Option ℕ} {objects : ℕ → ℕ → Prop} {k ds : ℕ}
  {name name' : String} {names names' : List String} {r r' : ℕ × ℕ}

/-- However many structs a chain goes through, and be they in each other or behind pointers, the
field that it leads to lies in the bytes of an object, as long as the pointers are valid. -/
theorem chains_inside (hvalid : p.Valid objects memory) (hobject : objects k ds)
    (h : p.access memory k ds names name = some r) :
  ∃ k' ds', objects k' ds' ∧ ds' ≤ r.1 ∧ r.1 + r.2 ≤ ds' + p.size k'
  := by
  obtain ⟨⟨j, x⟩, hfollow, h⟩ := Option.bind_eq_some_iff.mp h
  have hlast : p.access memory j x [] name = some r := h
  obtain ⟨f, hf, rfl⟩ := access_nil hlast
  obtain ⟨k', ds', hobject', hlo, hhi⟩ := ((Reached.object hobject).follow hvalid hfollow).inside
  have hinside := (p.laidOut j).inside f (BaseSchema.mem_of_find hf).1
  refine ⟨k', ds', hobject', ?_, ?_⟩
  · exact hlo.trans (Nat.le_add_right x f.offset)
  · exact Nat.le_trans (by omega) hhi

/-- A struct with boxes, and a box for its pointer. -/
def twoBoxes (k ds : ℕ) : Prop :=
  k = 0 ∧ ds = 4104 ∨ k = 1 ∧ ds = 8192

/-- The pointer of the struct is to the box. -/
def toBox (x : ℕ) : Option ℕ :=
  if x = 4128 then some 8192 else none

/-- No box and no point has a struct with boxes in it, or a pointer. -/
theorem boxSchemas_fields {f : Field} (hf : f ∈ (boxSchemas.schema k).fieldMap) :
  f.schema ≠ some 0 ∧ (f.fieldType = .dynamicStructPointer →
    k = 0 ∧ f.offset = 24 ∧ f.schema = some 1)
  := by
  match k with
  | 0 =>
      have h : ∀ f, f ∈ boxes.fieldMap → f.schema ≠ some 0 ∧
          (f.fieldType = .dynamicStructPointer → f.offset = 24 ∧ f.schema = some 1) := by
        decide +kernel
      obtain ⟨hne, hpointer⟩ := h f hf
      exact ⟨hne, fun htype => ⟨rfl, hpointer htype⟩⟩
  | 1 =>
      have h : ∀ f, f ∈ (boxSchemas.schema 1).fieldMap → f.schema ≠ some 0 ∧
          f.fieldType ≠ .dynamicStructPointer := by
        decide +kernel
      obtain ⟨hne, hpointer⟩ := h f hf
      exact ⟨hne, fun htype => absurd htype hpointer⟩
  | k + 2 =>
      have h : ∀ f, f ∈ (boxSchemas.schema 2).fieldMap → f.schema ≠ some 0 ∧
          f.fieldType ≠ .dynamicStructPointer := by
        decide +kernel
      obtain ⟨hne, hpointer⟩ := h f hf
      exact ⟨hne, fun htype => absurd htype hpointer⟩

theorem boxSchemas_valid :
  boxSchemas.Valid twoBoxes toBox
  := by
  have hroot : ∀ {k ds}, boxSchemas.Reached twoBoxes k ds → k = 0 → ds = 4104 := by
    rintro k ds (⟨⟨-, hds⟩ | ⟨hk, -⟩⟩ | ⟨h, hf, htype, hj⟩) rfl
    · exact hds
    · cases hk
    · apply absurd hj (boxSchemas_fields (BaseSchema.mem_of_find hf).1).1
  intro k ds h f hf htype j hj y hy
  obtain ⟨rfl, hoffset, hschema⟩ := (boxSchemas_fields hf).2 htype
  obtain rfl := hroot h rfl
  obtain rfl := Option.some.inj (hschema.symm.trans hj)
  rw [hoffset, toBox, if_pos rfl] at hy
  obtain rfl := Option.some.inj hy
  apply Reached.object (Or.inr ⟨rfl, rfl⟩)

theorem chains_inside_boxes :
  boxSchemas.access toBox 0 4104 ["other", "to"] "y" = some (8204, 4) ∧
    ∃ k ds, twoBoxes k ds ∧ ds ≤ 8204 ∧ 8204 + 4 ≤ ds + boxSchemas.size k
  := by
  have h : boxSchemas.access toBox 0 4104 ["other", "to"] "y" = some (8204, 4) := rfl
  exact ⟨h, chains_inside boxSchemas_valid (Or.inl ⟨rfl, rfl⟩) h⟩

/-- Two chains from a struct that lead to their fields whatever pointers there are: the fields lie
in the bytes of the struct; they have no byte in common unless one chain is the beginning of the
other, and then the field of the longer one lies in that of the other. -/
theorem chains_apart (h : ∀ memory, p.access memory k ds names name = some r)
    (h' : ∀ memory, p.access memory k ds names' name' = some r') :
  (ds ≤ r.1 ∧ r.1 + r.2 ≤ ds + p.size k) ∧
    (names ++ [name] <+: names' ++ [name'] → r.1 ≤ r'.1 ∧ r'.1 + r'.2 ≤ r.1 + r.2) ∧
    (¬ names ++ [name] <+: names' ++ [name'] → ¬ names' ++ [name'] <+: names ++ [name] →
      r.1 + r.2 ≤ r'.1 ∨ r'.1 + r'.2 ≤ r.1)
  := by
  refine ⟨access_inside (h _), ?_, ?_⟩
  · intro hpre
    apply access_prefix (h _) (h' _) hpre
  · intro hpre hpre'
    apply access_apart (h _) (h' _) hpre hpre'

theorem chains_apart_boxes :
  boxSchemas.access (fun _ => none) 0 4104 ["own", "from"] "y" = some (4112, 4) ∧
    boxSchemas.access (fun _ => none) 0 4104 ["own", "to"] "x" = some (4116, 4) ∧
    (4112 + 4 ≤ 4116 ∨ 4116 + 4 ≤ 4112)
  := by
  have h : ∀ memory, boxSchemas.access memory 0 4104 ["own", "from"] "y" = some (4112, 4) := by
    intro memory
    rfl
  have h' : ∀ memory, boxSchemas.access memory 0 4104 ["own", "to"] "x" = some (4116, 4) := by
    intro memory
    rfl
  obtain ⟨-, -, hapart⟩ := chains_apart h h'
  exact ⟨h _, h' _, hapart (by decide) (by decide)⟩

end Schemas

end DynamicStruct
