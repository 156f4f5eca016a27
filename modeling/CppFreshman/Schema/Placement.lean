import CppFreshman.Schema.Layout
import CppFreshman.Schema.Members

/-!
# Where a struct is placed

`DynamicStruct::create` allocates a struct together with a pointer to its schema, which comes
first: the struct begins eight bytes behind the allocation, whatever its alignment.  It lies in the
bytes that are allocated, and it is aligned exactly if its alignment is at most eight
(`wellPlaced_iff`).
-/

namespace DynamicStruct

open BaseSchema (Registration)

/-- A type of structs in C++: the alignment is a power of two that divides the size, an object has
less than half of the bytes that a `size_t` can count, and the members are aligned in the struct. -/
structure StructType extends Layout where
  align_pow : ∃ k, align = 2 ^ k
  align_dvd : align ∣ size
  size_pos : 0 < size
  size_max : size < 2 ^ 63
  member_dvd : ∀ m, m ∈ members → m.type.alignOf ∣ m.offset
  member_le : ∀ m, m ∈ members → m.type.alignOf ≤ align

/-- The allocator has returned `base` for the bytes that an instance of the schema takes, aligned as
the schema says. -/
structure Allocated (s : BaseSchema) (base : ℕ) : Prop where
  aligned : s.allocateAlign ∣ base
  fits : base + s.allocateSize ≤ 2 ^ 64

/-- `DynamicStruct::create`: the instance begins behind a pointer to the schema. -/
def create (base : ℕ) : ℕ :=
  base + sizeofMeta

/-- `to_struct`. -/
def toStruct (ds : ℕ) : ℕ :=
  ds

/-- The struct and its members are aligned, and it lies in the bytes that are allocated, behind the
pointer to the schema. -/
structure StructType.WellPlaced (t : StructType) (order : List Registration) (base : ℕ) : Prop where
  aligned : t.align ∣ toStruct (create base)
  behind : base + sizeofMeta ≤ toStruct (create base)
  inside : toStruct (create base) + t.size ≤ base + (t.schema order).allocateSize
  members : ∀ m, m ∈ t.members → m.type.alignOf ∣ toStruct (create base) + m.offset

variable {t : StructType} {order : List Registration} {base : ℕ}

/-- Members with offsets take no place of their own. -/
theorem register_offsets (h : ∀ c, c ∈ order → c.offset ≠ npos) :
  (newSchema.register order).allocateAlign = alignofMeta ∧
    (newSchema.register order).unalignedAllocateSize = sizeofMeta
  := by
  induction order using List.reverseRecOn with
  | nil => exact ⟨rfl, rfl⟩
  | append_singleton order c ih =>
      obtain ⟨halign, hsize⟩ := ih fun c hc => h c (List.mem_append_left _ hc)
      rw [BaseSchema.register_concat]
      obtain ⟨field, -, heq⟩ | ⟨-, field, s', hadds, heq⟩ :=
        (newSchema.register order).registerField_cases c
      · rw [heq]
        exact ⟨halign, hsize⟩
      · have hplace : (newSchema.register order).place c.type c.offset =
            (newSchema.register order, c.offset) := by
          rw [BaseSchema.place, if_neg (h c (List.mem_append_right _ List.mem_cons_self))]
        rw [heq]
        simp only
        rw [hadds.allocateAlign, hadds.unalignedAllocateSize, hplace]
        exact ⟨halign, hsize⟩

/-- The offset of a member is one. -/
theorem StructType.offset_ne_npos (t : StructType) (horder : order.Subperm t.members) :
  ∀ c, c ∈ order → c.offset ≠ npos
  := by
  intro c hc heq
  have hlimit := t.limit_le c (horder.subset hc)
  have hmax := t.size_max
  rw [Registration.limit, heq, npos] at hlimit
  omega

/-- The alignment of a struct is one of the powers of two up to its size. -/
theorem StructType.exists_pow (t : StructType) :
  ∃ k, t.align = 2 ^ k ∧ k ≤ 62
  := by
  obtain ⟨k, hk⟩ := t.align_pow
  use k, hk
  have hle := Nat.le_of_dvd t.size_pos t.align_dvd
  rw [hk] at hle
  have hlt : 2 ^ k < 2 ^ 63 := Nat.lt_of_le_of_lt hle t.size_max
  apply Nat.le_of_lt_succ
  apply (Nat.pow_lt_pow_iff_right (by decide)).mp hlt

/-- The size and the alignment of an allocation: those of the struct with the pointer to the
schema. -/
theorem StructType.schema_eq (t : StructType) (horder : order.Subperm t.members) :
  (t.schema order).allocateAlign = max 8 t.align ∧
    (t.schema order).allocateSize = alignUp (8 + t.size) (max 8 t.align)
  := by
  obtain ⟨halign, hsize⟩ := register_offsets (t.offset_ne_npos horder)
  have hmax := t.size_max
  have hmod : (8 + t.size) % 2 ^ 64 = 8 + t.size := by
    apply Nat.mod_eq_of_lt
    omega
  rw [Layout.schema, BaseSchema.setSizeAndAlign]
  simp only
  rw [halign, hsize, alignofMeta, sizeofMeta, hmod]
  exact ⟨rfl, rfl⟩

/-- There is room for the struct behind the pointer to the schema. -/
theorem StructType.size_le (t : StructType) (horder : order.Subperm t.members) :
  8 + t.size ≤ (t.schema order).allocateSize
  := by
  obtain ⟨k, hk, hk62⟩ := t.exists_pow
  have hmax := t.size_max
  have height : max 8 (2 ^ k) = 2 ^ max 3 k := BaseSchema.max_pow (k := 3)
  have hpow : 2 ^ max 3 k ≤ 2 ^ 62 := by
    apply Nat.pow_le_pow_right (by decide)
    omega
  rw [(t.schema_eq horder).2, hk, height]
  apply le_alignUp
  · omega
  · omega

/-- A struct is placed well exactly if its alignment is at most that of the pointer before it,
wherever it is allocated. -/
theorem wellPlaced_iff (t : StructType) (horder : order.Subperm t.members)
    (hbase : Allocated (t.schema order) base) :
  t.WellPlaced order base ↔ t.align ≤ 8
  := by
  obtain ⟨k, hk, -⟩ := t.exists_pow
  have haligned := hbase.aligned
  rw [(t.schema_eq horder).1] at haligned
  constructor
  · intro h
    have hdvd := h.aligned
    by_contra hlarge
    have hmax : max 8 t.align = t.align := by omega
    rw [hmax] at haligned
    rw [toStruct, create, sizeofMeta, Nat.dvd_add_right haligned] at hdvd
    apply hlarge (Nat.le_of_dvd (by decide) hdvd)
  · intro hsmall
    have hmax : max 8 t.align = 8 := by omega
    rw [hmax] at haligned
    have hdvd : 8 ∣ toStruct (create base) := by
      rw [toStruct, create, sizeofMeta]
      apply Nat.dvd_add haligned (Nat.dvd_refl 8)
    have hpow : ∀ n, (∃ k, n = 2 ^ k) → n ≤ 8 → n ∣ 8 := by
      rintro n ⟨k, rfl⟩ hle
      apply Nat.pow_dvd_pow 2 (n := 3)
      apply (Nat.pow_le_pow_iff_right (by decide)).mp hle
    constructor
    · apply Nat.dvd_trans (hpow _ ⟨k, hk⟩ hsmall) hdvd
    · apply Nat.le_refl
    · have hsize := t.size_le horder
      rw [toStruct, create, sizeofMeta]
      omega
    · intro m hm
      apply Nat.dvd_add _ (t.member_dvd m hm)
      apply Nat.dvd_trans (hpow _ m.type.align_pow _) hdvd
      apply Nat.le_trans (t.member_le m hm) hsmall

/-- A struct of a number with the given alignment, for instance one of a line of the cache. -/
def numberAlignedTo (k : ℕ) (h : 2 ≤ k ∧ k < 63) : StructType where
  size := 2 ^ k
  align := 2 ^ k
  members := [⟨int32, "a", 0⟩]
  names := by decide
  apart := by decide
  limit_le := by
    intro m hm
    obtain rfl := List.mem_singleton.mp hm
    apply Nat.pow_le_pow_right (n := 2) (by decide) h.1
  size_lt := Nat.pow_lt_pow_right (by decide) (by omega)
  align_pow := ⟨k, rfl⟩
  align_dvd := Nat.dvd_refl _
  size_pos := Nat.two_pow_pos k
  size_max := Nat.pow_lt_pow_right (by decide) h.2
  member_dvd := by decide
  member_le := by
    intro m hm
    obtain rfl := List.mem_singleton.mp hm
    apply Nat.pow_le_pow_right (n := 2) (by decide) h.1

theorem wellPlaced_iff_number :
  (numberAlignedTo 3 (by decide)).WellPlaced [⟨int32, "a", 0⟩] 4096 ↔
    (numberAlignedTo 3 (by decide)).align ≤ 8
  := wellPlaced_iff _ (by decide) ⟨by decide +kernel, by decide +kernel⟩

/-- A struct of the size and alignment of a line of the cache is not aligned. -/
theorem cacheLine_not_wellPlaced :
  Allocated ((numberAlignedTo 6 (by decide)).schema [⟨int32, "a", 0⟩]) 4096 ∧
    ¬ (numberAlignedTo 6 (by decide)).WellPlaced [⟨int32, "a", 0⟩] 4096
  := by
  constructor
  · exact ⟨by decide +kernel, by decide +kernel⟩
  · intro h
    have hdvd : 2 ^ 6 ∣ toStruct (create 4096) := h.aligned
    revert hdvd
    decide

end DynamicStruct
