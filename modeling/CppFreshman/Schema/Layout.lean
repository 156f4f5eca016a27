import CppFreshman.Schema.Registration
import Mathlib.Order.MinMax

/-!
# Layout of the fields

Fields that are registered without an offset are laid out one behind the other, from the end of
the `Meta` header on.  As long as no sum of `add_field_and_caculate_size` wraps around, the layout
is sound (`layout_sound`): no two fields overlap, each is aligned, and all lie within the bytes
that are allocated.
-/

namespace DynamicStruct

/-- `sizeof(Meta)`, where the data area begins. -/
def sizeofMeta : ℕ :=
  8

/-- `alignof(Meta)`. -/
def alignofMeta : ℕ :=
  8

/-- The constructor of `DynamicStruct::Schema`. -/
def newSchema : BaseSchema :=
  BaseSchema.new alignofMeta sizeofMeta

/-- The distance of a field from the base of the allocation. -/
def Field.distance (field : Field) : ℕ :=
  (sizeofMeta + field.offset) % 2 ^ 64

namespace BaseSchema

/-- The fields do not overlap each other or the header, they are aligned, and they lie in the
bytes that are allocated. -/
structure Sound (s : BaseSchema) : Prop where
  apart : s.fieldMap.Pairwise fun f g =>
    f.distance + f.type.sizeOf ≤ g.distance ∨ g.distance + g.type.sizeOf ≤ f.distance
  header : ∀ f, f ∈ s.fieldMap → sizeofMeta ≤ f.distance
  aligned : ∀ f, f ∈ s.fieldMap → f.type.alignOf ∣ f.distance
  inside : ∀ f, f ∈ s.fieldMap → f.distance + f.type.sizeOf ≤ s.allocateSize
  align_pow : ∃ k, s.allocateAlign = 2 ^ k
  align_le : ∀ f, f ∈ s.fieldMap → f.type.alignOf ≤ s.allocateAlign
  size_dvd : s.allocateAlign ∣ s.allocateSize

/-- No sum that is computed for the place of a new field wraps around. -/
def SumsFit (s : BaseSchema) (c : Registration) : Prop :=
  s.find c.name = none →
    s.unalignedAllocateSize + c.type.alignOf - 1 < 2 ^ 64 ∧
    alignUp s.unalignedAllocateSize c.type.alignOf + c.type.sizeOf < 2 ^ 64 ∧
    alignUp s.unalignedAllocateSize c.type.alignOf + c.type.sizeOf +
      max s.allocateAlign c.type.alignOf - 1 < 2 ^ 64

instance (s : BaseSchema) (c : Registration) : Decidable (s.SumsFit c) := by
  unfold SumsFit
  infer_instance

/-- The fields in the order of their registration, each behind the one before. -/
structure Packed (s : BaseSchema) : Prop where
  base : s.baseOffset = sizeofMeta
  base_le : sizeofMeta ≤ s.unalignedAllocateSize
  unaligned_lt : s.unalignedAllocateSize < 2 ^ 64
  increasing : s.fieldMap.Pairwise fun f g => f.offset + f.type.sizeOf ≤ g.offset
  ends : ∀ f, f ∈ s.fieldMap →
    sizeofMeta + f.offset + f.type.sizeOf ≤ s.unalignedAllocateSize
  aligned : ∀ f, f ∈ s.fieldMap → f.type.alignOf ∣ sizeofMeta + f.offset
  align_pow : ∃ k, s.allocateAlign = 2 ^ k
  align_le : ∀ f, f ∈ s.fieldMap → f.type.alignOf ≤ s.allocateAlign
  le_size : s.unalignedAllocateSize ≤ s.allocateSize
  size_dvd : s.allocateAlign ∣ s.allocateSize

variable {s : BaseSchema}

theorem Packed.distance_eq (h : s.Packed) {f : Field} (hf : f ∈ s.fieldMap) :
  f.distance = sizeofMeta + f.offset
  := by
  have hend := h.ends f hf
  have hlt := h.unaligned_lt
  apply Nat.mod_eq_of_lt
  omega

theorem Packed.sound (h : s.Packed) :
  s.Sound
  := by
  constructor
  · apply h.increasing.imp_of_mem
    intro f g hf hg hle
    left
    rw [h.distance_eq hf, h.distance_eq hg]
    omega
  · intro f hf
    rw [h.distance_eq hf]
    omega
  · intro f hf
    rw [h.distance_eq hf]
    apply h.aligned f hf
  · intro f hf
    rw [h.distance_eq hf]
    apply Nat.le_trans (h.ends f hf) h.le_size
  · apply h.align_pow
  · apply h.align_le
  · apply h.size_dvd

theorem packed_newSchema :
  newSchema.Packed
  := by
  constructor
  · rfl
  · apply Nat.le_refl
  · decide
  · apply List.Pairwise.nil
  · simp [newSchema, new]
  · simp [newSchema, new]
  · use 3
    rfl
  · simp [newSchema, new]
  · apply Nat.le_refl
  · apply Nat.dvd_refl

/-- A power of two that can be added to a positive number is one that fits a word. -/
theorem le_of_pow_fits {n k : ℕ} (hn : 0 < n) (h : n + 2 ^ k - 1 < 2 ^ 64) :
  k ≤ 64
  := by
  have hlt : 2 ^ k < 2 ^ 64 := by
    have := Nat.two_pow_pos k
    generalize 2 ^ k = a at this h ⊢
    omega
  apply Nat.le_of_lt ((Nat.pow_lt_pow_iff_right (by decide)).mp hlt)

theorem max_pow {k l : ℕ} :
  max (2 ^ k) (2 ^ l) = 2 ^ max k l
  := by
  symm
  apply Monotone.map_max (f := fun n => 2 ^ n)
  intro a b hab
  apply Nat.pow_le_pow_right (by decide) hab

/-- A place behind the fields for one more. -/
theorem Packed.adds {s' : BaseSchema} {c : Registration} {field : Field} (h : s.Packed)
    (hadds : s.Adds c field s') (hauto : c.offset = npos) (hfit : s.SumsFit c)
    (hnew : s.find c.name = none) :
  s'.Packed
  := by
  obtain ⟨hsum, hend, hsize⟩ := hfit hnew
  obtain ⟨k, hk⟩ := c.type.align_pow
  obtain ⟨l, hl⟩ := h.align_pow
  have hbase := h.base_le
  rw [hl, hk, max_pow] at hsize
  rw [hk] at hsum hend
  have hsizeof := c.type.size_pos
  have hk64 := le_of_pow_fits (n := s.unalignedAllocateSize) (by rw [sizeofMeta] at hbase; omega) hsum
  have hkl64 := le_of_pow_fits (by omega) hsize
  have hle := le_alignUp hk64 hsum
  have hdvd := dvd_alignUp hk64 hsum
  have hle' := le_alignUp hkl64 hsize
  have hdvd' := dvd_alignUp hkl64 hsize
  have hplace : s.place c.type c.offset = s.addFieldAndCalculateSize c.type := by
    rw [place, if_pos hauto]
  have hunaligned : s'.unalignedAllocateSize =
      alignUp s.unalignedAllocateSize (2 ^ k) + c.type.sizeOf := by
    rw [hadds.unalignedAllocateSize, hplace, addFieldAndCalculateSize, hk]
    apply Nat.mod_eq_of_lt hend
  have halign : s'.allocateAlign = 2 ^ max l k := by
    rw [hadds.allocateAlign, hplace, addFieldAndCalculateSize, hl, hk]
    apply max_pow
  have hallocate : s'.allocateSize =
      alignUp (alignUp s.unalignedAllocateSize (2 ^ k) + c.type.sizeOf) (2 ^ max l k) := by
    rw [hadds.allocateSize, hplace, addFieldAndCalculateSize, hl, hk, max_pow,
      Nat.mod_eq_of_lt hend]
  have hoffset : sizeofMeta + field.offset = alignUp s.unalignedAllocateSize (2 ^ k) := by
    have heq : field.offset =
        (alignUp s.unalignedAllocateSize (2 ^ k) + (2 ^ 64 - sizeofMeta)) % 2 ^ 64 := by
      rw [hadds.offset, hplace, addFieldAndCalculateSize, hk, h.base]
    simp only [sizeofMeta] at hbase heq ⊢
    omega
  have hmem : ∀ f, f ∈ s'.fieldMap ↔ f ∈ s.fieldMap ∨ f = field := by
    rw [hadds.fieldMap]
    simp
  constructor
  · rw [hadds.baseOffset, h.base]
  · omega
  · omega
  · rw [hadds.fieldMap, List.pairwise_append]
    constructor
    · apply h.increasing
    · constructor
      · apply List.pairwise_singleton
      · intro f hf g hg
        obtain rfl := List.mem_singleton.mp hg
        have := h.ends f hf
        omega
  · intro f hf
    obtain hf | rfl := (hmem f).mp hf
    · have := h.ends f hf
      omega
    · rw [hadds.type]
      omega
  · intro f hf
    obtain hf | rfl := (hmem f).mp hf
    · apply h.aligned f hf
    · rw [hadds.type, hk, hoffset]
      apply hdvd
  · use max l k
  · intro f hf
    obtain hf | rfl := (hmem f).mp hf
    · have := h.align_le f hf
      rw [halign, ← max_pow, ← hl]
      omega
    · rw [hadds.type, halign, ← max_pow, hk]
      apply Nat.le_max_right
  · rw [hunaligned, hallocate]
    apply hle'
  · rw [halign, hallocate]
    apply hdvd'

/-- A call that fits keeps the fields packed. -/
theorem Packed.registerField {c : Registration} (h : s.Packed) (hauto : c.offset = npos)
    (hfit : s.SumsFit c) :
  (s.registerField c.type c.name c.offset).1.Packed
  := by
  obtain ⟨field, -, heq⟩ | ⟨hfind, field, s', hadds, heq⟩ := s.registerField_cases c
  · rw [heq]
    apply h
  · rw [heq]
    apply h.adds hadds hauto hfit hfind

theorem packed_register {calls : List Registration} (hauto : ∀ c, c ∈ calls → c.offset = npos)
    (hfit : registering.Steps SumsFit newSchema calls) :
  (newSchema.register calls).Packed
  := by
  induction calls using List.reverseRecOn with
  | nil => apply packed_newSchema
  | append_singleton calls c ih =>
      rw [register_concat]
      apply Packed.registerField
      · apply ih
        · intro c hc
          apply hauto c (List.mem_append_left _ hc)
        · apply hfit.of_isPrefix (List.prefix_append calls [c])
      · apply hauto c List.mem_concat_self
      · apply hfit calls c _ (List.prefix_refl _) (registering_run newSchema calls)

/-- A field that is found is found after further calls. -/
theorem find_registerField {name : String} {field : Field} (h : s.find name = some field)
    (c : Registration) :
  (s.registerField c.type c.name c.offset).1.find name = some field
  := by
  obtain ⟨_, -, heq⟩ | ⟨-, _, s', hadds, heq⟩ := s.registerField_cases c
  · rw [heq]
    apply h
  · rw [heq, find, hadds.fieldMap, List.find?_append]
    rw [find] at h
    rw [h]
    rfl

theorem find_register {name : String} {field : Field} (h : s.find name = some field)
    (calls : List Registration) :
  (s.register calls).find name = some field
  := by
  induction calls using List.reverseRecOn with
  | nil => apply h
  | append_singleton calls c ih =>
      rw [register_concat]
      apply find_registerField ih

/-- A call returns the field that is then found under its name. -/
theorem exists_find_registerField (s : BaseSchema) (c : Registration) :
  ∃ field, (s.registerField c.type c.name c.offset).2 = .ofField field ∧
    (s.registerField c.type c.name c.offset).1.find c.name = some field
  := by
  obtain ⟨field, hfind, heq⟩ | ⟨hfind, field, s', hadds, heq⟩ := s.registerField_cases c
  · use field
    rw [heq]
    exact ⟨rfl, hfind⟩
  · use field
    rw [heq, find, hadds.fieldMap, List.find?_append]
    rw [find] at hfind
    rw [hfind]
    simp [hadds.name]

end BaseSchema

/-- After calls of `register_field` without offsets of which no sum wraps around the layout is
sound.  Each call has returned a field of the schema, and to register its name again changes
nothing and returns the same. -/
theorem layout_sound {calls : List BaseSchema.Registration}
    (hauto : ∀ c, c ∈ calls → c.offset = npos)
    (hfit : BaseSchema.registering.Steps BaseSchema.SumsFit newSchema calls) :
  (newSchema.register calls).Sound ∧
    ∀ before c after, calls = before ++ c :: after →
      ∃ field, field ∈ (newSchema.register calls).fieldMap ∧ field.name = c.name ∧
        ((newSchema.register before).registerField c.type c.name c.offset).2 =
          .ofField field ∧
        ∀ type offset, (newSchema.register calls).registerField type c.name offset =
          (newSchema.register calls, .ofField field)
  := by
  constructor
  · apply (BaseSchema.packed_register hauto hfit).sound
  · intro before c after heq
    obtain ⟨field, hret, hfind⟩ :=
      (newSchema.register before).exists_find_registerField c
    have hfound : (newSchema.register calls).find c.name = some field := by
      have hsplit : newSchema.register calls =
          ((newSchema.register before).registerField c.type c.name c.offset).1.register
            after := by
        rw [heq, BaseSchema.register, List.foldl_append]
        rfl
      rw [hsplit]
      apply BaseSchema.find_register hfind
    obtain ⟨hmem, hname⟩ := BaseSchema.mem_of_find hfound
    refine ⟨field, hmem, hname, hret, ?_⟩
    intro type offset
    obtain ⟨field', hfind', heq'⟩ | ⟨hnone, -⟩ :=
      (newSchema.register calls).registerField_cases ⟨type, c.name, offset⟩
    · obtain rfl := Option.some.inj (hfound.symm.trans hfind')
      apply heq'
    · cases hfound.symm.trans hnone

/-- A number, a string and the number again. -/
theorem layout_sound_numberTwice :
  (newSchema.register [⟨int32, "id", npos⟩, ⟨pooledString, "name", npos⟩,
      ⟨int32, "id", npos⟩]).Sound
  := (layout_sound (by decide) (by decide +kernel)).1

end DynamicStruct
