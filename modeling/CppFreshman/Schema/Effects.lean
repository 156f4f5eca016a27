import CppFreshman.Heap.Writes
import CppFreshman.Schema.Registration

/-!
# Effects of the entries

What `construct_all` and `clear_all` do to the bytes of a struct.  Either walks over a list of
entries, in which the entry of a run of trivial fields is a `memset`; what the functions of the
other fields do to the bytes of an object is left open, an `Effect`.

`Right` says of a list of entries what it takes for every field to be constructed, or filled with
zeroes, and nothing else (`Right.bytesAfter_eq`).
-/

namespace DynamicStruct

open BaseSchema (Registration)

/-- The byte zero, and what the functions of the fields do: each byte of an object gets a value
that depends on the bytes that were there. -/
structure Effect (β : Type) where
  zero : β
  run : Method → List β → ℕ → β

/-- The bytes that a call writes. -/
def Call.write {β : Type} (effect : Effect β) (call : Call) : Write β where
  start := call.ptr
  size := call.size
  value bytes i :=
    match call.method with
    | .fillWithZero => effect.zero
    | method => effect.run method bytes i

/-- `construct_all` or `clear_all`. -/
inductive Pass where
  | construct
  | clear
  deriving DecidableEq

namespace Pass

/-- The function for a field that is not trivial. -/
def method : Pass → TypeInfo → Method
  | construct => constructMethod
  | clear => .reconstruct

/-- The entries that are walked over. -/
def entries (s : BaseSchema) : Pass → List Entry
  | construct => s.constructors
  | clear => s.cleaners

/-- The calls that are made. -/
def calls (s : BaseSchema) (ptr : ℕ) (pool : Option ℕ) : Pass → List Call
  | construct => s.constructAll ptr pool
  | clear => s.clearAll ptr pool

theorem method_ne (p : Pass) (type : TypeInfo) :
  p.method type ≠ .fillWithZero
  := by
  cases p with
  | construct => apply constructMethod_ne
  | clear => apply Method.noConfusion

/-- How the entries are made from the fields. -/
def merge (p : Pass) : Merge Registration Entry where
  joins c := c.type.isTrivial
  joined entry := entry.method = .fillWithZero
  entry c :=
    ⟨c.offset, c.type.sizeOf, if c.type.isTrivial then .fillWithZero else p.method c.type⟩
  extend last c :=
    { last with size := (c.offset + (2 ^ 64 - last.offset) + c.type.sizeOf) % 2 ^ 64 }
  joined_entry c := by
    cases c.type.isTrivial <;> simp [method_ne]
  joined_extend _ _ h := h

end Pass

/-- The type, name and offset of a field. -/
def Field.registration (field : Field) : Registration :=
  ⟨field.type, field.name, field.offset⟩

theorem Pass.entries_eq {s : BaseSchema} {cs : List Registration} (h : s.Lists cs) (p : Pass) :
  p.entries s = p.merge.entries (s.fieldMap.map Field.registration)
  := by
  rw [← Merge.entries_comap]
  cases p with
  | construct => exact h.constructors
  | clear => exact h.cleaners

theorem Pass.calls_eq (p : Pass) (s : BaseSchema) (ptr : ℕ) (pool : Option ℕ) :
  p.calls s ptr pool = (p.entries s).map fun entry => entry.call ptr pool none
  := by
  cases p <;> rfl

/-- The bytes that an entry writes, from the beginning of the data. -/
def Entry.Covers (entry : Entry) (x : ℕ) : Prop :=
  entry.offset ≤ x ∧ x < entry.offset + entry.size

namespace BaseSchema.Registration

variable (c : Registration)

/-- Where a field ends. -/
def limit : ℕ :=
  c.offset + c.type.sizeOf

/-- The bytes of a field. -/
def Has (x : ℕ) : Prop :=
  c.offset ≤ x ∧ x < c.limit

end BaseSchema.Registration

/-- The bytes of the memory after the calls. -/
def bytesAfter {β : Type} (effect : Effect β) (calls : List Call) (memory : ℕ → β) : ℕ → β :=
  writeAll (calls.map fun call => call.write effect) memory

/-- What becomes of a byte of a field: it is zero if the field is trivial, and otherwise what the
function of the field makes of the bytes that were there. -/
def Pass.byteOf {β : Type} (p : Pass) (effect : Effect β) (ptr : ℕ) (memory : ℕ → β)
    (c : Registration) (i : ℕ) : β :=
  if c.type.isTrivial then effect.zero
  else effect.run (p.method c.type) (bytesAt memory (ptr + c.offset) c.type.sizeOf) i

/-- The pass fills a trivial field with zeroes, and constructs any other from what was there. -/
def Pass.Prepares (p : Pass) (s : BaseSchema) (c : Registration) : Prop :=
  ∀ (β : Type) (effect : Effect β) (ptr : ℕ) (pool : Option ℕ) (memory : ℕ → β) (i : ℕ),
    i < c.type.sizeOf →
      bytesAfter effect (p.calls s ptr pool) memory (ptr + c.offset + i) =
        p.byteOf effect ptr memory c i

/-- Trivial fields are filled with zeroes and not written otherwise; any other field has an entry
of its own, and no other entry writes its bytes. -/
structure Right (p : Pass) (order : List Registration) (entries : List Entry) : Prop where
  filled : ∀ c, c ∈ order → c.type.isTrivial = true → ∀ x, c.Has x →
    ∃ entry, entry ∈ entries ∧ entry.Covers x
  zero : ∀ c, c ∈ order → c.type.isTrivial = true → ∀ x, c.Has x →
    ∀ entry, entry ∈ entries → entry.Covers x → entry.method = .fillWithZero
  alone : ∀ c, c ∈ order → c.type.isTrivial = false →
    ∃ before after, entries = before ++ p.merge.entry c :: after ∧
      ∀ entry, entry ∈ before ++ after → ∀ x, c.Has x → ¬ entry.Covers x

theorem covers_write {β : Type} {effect : Effect β} {entry : Entry} {ptr x : ℕ}
    {pool : Option ℕ} :
  ((entry.call ptr pool none).write effect).Covers (ptr + x) ↔ entry.Covers x
  := by
  simp only [Write.Covers, Entry.Covers, Call.write, Entry.call]
  omega

/-- What an entry writes lies behind the beginning of the data. -/
theorem exists_of_covers_write {β : Type} {effect : Effect β} {entry : Entry} {ptr y : ℕ}
    {pool : Option ℕ} (h : ((entry.call ptr pool none).write effect).Covers y) :
  ∃ x, y = ptr + x ∧ entry.Covers x
  := by
  obtain ⟨x, rfl⟩ := Nat.exists_eq_add_of_le (Nat.le_trans (Nat.le_add_right ptr _) h.1)
  exact ⟨x, rfl, covers_write.mp h⟩

theorem bytesAfter_entries {β : Type} {effect : Effect β} {entries : List Entry} {ptr : ℕ}
    {pool : Option ℕ} {memory : ℕ → β} :
  bytesAfter effect (entries.map fun entry => entry.call ptr pool none) memory =
    writeAll (entries.map fun entry => (entry.call ptr pool none).write effect) memory
  := by
  rw [bytesAfter, List.map_map]
  rfl

/-- Entries that are right do to a field what they are for. -/
theorem Right.bytesAfter_eq {p : Pass} {order : List Registration} {entries : List Entry}
    (h : Right p order entries) {c : Registration} (hc : c ∈ order) {β : Type}
    (effect : Effect β) (ptr : ℕ) (pool : Option ℕ) (memory : ℕ → β) {i : ℕ}
    (hi : i < c.type.sizeOf) :
  bytesAfter effect (entries.map fun entry => entry.call ptr pool none) memory
      (ptr + c.offset + i) =
    p.byteOf effect ptr memory c i
  := by
  have hhas : c.Has (c.offset + i) := by
    rw [Registration.Has, Registration.limit]
    omega
  rcases htrivial : c.type.isTrivial with _ | _
  · obtain ⟨before, after, rfl, halone⟩ := h.alone c hc htrivial
    have hentry : p.merge.entry c = ⟨c.offset, c.type.sizeOf, p.method c.type⟩ := by
      simp [Pass.merge, htrivial]
    rw [bytesAfter_entries, List.map_append, List.map_cons, writeAll_alone]
    · have hmethod := p.method_ne c.type
      rw [hentry]
      rcases heq : p.method c.type with _ | _ | _ | _ | _ <;>
        simp_all [Pass.byteOf, Call.write, Entry.call]
    · rw [Nat.add_assoc, covers_write, hentry]
      exact ⟨Nat.le_add_right _ _, Nat.add_lt_add_left hi _⟩
    · intro w hw y hy
      obtain ⟨entry, hmem, rfl⟩ := List.mem_map.mp hw
      obtain ⟨x, rfl, hx⟩ := exists_of_covers_write hy
      rw [covers_write]
      rw [hentry] at hx
      apply halone entry (List.mem_append_left _ hmem) x hx
    · intro w hw y hy
      obtain ⟨entry, hmem, rfl⟩ := List.mem_map.mp hw
      obtain ⟨x, rfl, hx⟩ := exists_of_covers_write hy
      rw [covers_write]
      rw [hentry] at hx
      apply halone entry (List.mem_append_right _ hmem) x hx
  · rw [Pass.byteOf, if_pos htrivial, Nat.add_assoc, bytesAfter_entries]
    apply writeAll_const
    · obtain ⟨entry, hentry, hcovers⟩ := h.filled c hc htrivial _ hhas
      exact ⟨_, List.mem_map_of_mem hentry, covers_write.mpr hcovers⟩
    · intro w hw hcovers bytes j
      obtain ⟨entry, hentry, rfl⟩ := List.mem_map.mp hw
      have hmethod := h.zero c hc htrivial _ hhas entry hentry (covers_write.mp hcovers)
      simp [Call.write, Entry.call, hmethod]

end DynamicStruct
