import CppFreshman.Pool.Contents
import CppFreshman.Schema.Chains

/-!
# Structs in memory pools

`create_with_pool` with the allocator of a memory pool makes a struct in bytes that the pool hands
out: the pointer to the schema, and behind it the fields.  The user writes the fields through their
accessors; `clear`, which finds the schema through the pointer, and `reconstruct` of the pool of
instances clear them.  Meanwhile the pools go on: they allocate, copy texts, are moved and cleared.

What a program sees of its structs is what it would see of records that hold a value for each name,
apart from each other and from everything else (`records_shown`): a `Record` knows nothing of bytes
and addresses.
-/

namespace DynamicStruct

open BaseSchema (Registration)

/-! ### Schemas whose structs can be stored -/

/-- The fields of a struct of the schema lie behind the pointer to it in what is allocated, and a
pass prepares each of them and writes nothing else. -/
structure BaseSchema.Stores (s : BaseSchema) : Prop where
  align : alignofMeta ≤ s.allocateAlign
  header : sizeofMeta ≤ s.allocateSize
  laidOut : s.LaidOut (s.allocateSize - sizeofMeta)
  prepares : ∀ (pass : Pass) f, f ∈ s.fieldMap → pass.Prepares s f.registration
  inside : ∀ (pass : Pass) entry, entry ∈ pass.entries s → ∀ x, entry.Covers x →
    x < s.allocateSize - sizeofMeta

theorem BaseSchema.le_allocateAlign (calls : List Registration) :
  alignofMeta ≤ (newSchema.register calls).allocateAlign
  := by
  induction calls using List.reverseRecOn with
  | nil => apply Nat.le_refl
  | append_singleton calls c ih =>
      rw [register_concat]
      obtain ⟨field, -, heq⟩ | ⟨-, field, s', hadds, heq⟩ :=
        (newSchema.register calls).registerField_cases c
      · rw [heq]
        exact ih
      · rw [heq]
        simp only
        rw [hadds.allocateAlign, place]
        split
        · exact ih.trans (Nat.le_max_left _ _)
        · exact ih

/-- Fields without offsets can be stored if no sum wraps around. -/
theorem BaseSchema.stores_register {calls : List Registration}
    (hauto : ∀ c, c ∈ calls → c.offset = npos)
    (hfit : registering.Steps SumsFit newSchema calls) :
  (newSchema.register calls).Stores
  := by
  have hpacked := packed_register hauto hfit
  have hagrees := agrees_of_packed (lists_register alignofMeta sizeofMeta calls) hpacked
  constructor
  · apply le_allocateAlign
  · exact hpacked.base_le.trans hpacked.le_size
  · apply hpacked.sound.laidOut
    intro f hf
    have hend := hpacked.ends f hf
    have hlt := hpacked.unaligned_lt
    omega
  · intro pass
    apply (hagrees pass).prepares
  · intro pass
    apply (hagrees pass).inside

/-- The calls of a pass write only the bytes of the fields. -/
theorem BaseSchema.Stores.bytesAfter_of_outside {s : BaseSchema} (h : s.Stores) (pass : Pass)
    {β : Type} {effect : Effect β} {ds x : ℕ} {pool : Option ℕ} {memory : ℕ → β}
    (hx : x < ds ∨ ds + (s.allocateSize - sizeofMeta) ≤ x) :
  bytesAfter effect (pass.calls s ds pool) memory x = memory x
  := by
  rw [pass.calls_eq, bytesAfter_entries]
  apply writeAll_of_untouched
  intro w hw hcovers
  obtain ⟨entry, hentry, rfl⟩ := List.mem_map.mp hw
  obtain ⟨y, rfl, hy⟩ := exists_of_covers_write hcovers
  have hlt := h.inside pass entry hentry y hy
  omega

namespace Records

open StaticMemoryPool (Storage Ledger Ledgers Region Turn Tracks Good World copyBytes)

/-! ### The structs of a program -/

/-- The schemas of a program, where they are, and what the functions of the fields that are not
trivial do to the bytes of a field. -/
structure Program (σ : Type) where
  schema : σ → BaseSchema
  align : σ → Fin 16
  effect : Method → List UInt8 → ℕ → UInt8
  address : σ → List UInt8
  schemaAt : List UInt8 → Option σ
  stores : ∀ j, (schema j).Stores
  align_eq : ∀ j, (schema j).allocateAlign = 2 ^ (align j).val
  address_length : ∀ j, (address j).length = sizeofMeta
  schemaAt_address : ∀ j, schemaAt (address j) = some j

/-- A struct that has been made: its schema, where it is, and the pool that has its bytes, if any
has them yet; what a command does to the bytes does not depend on the pool. -/
structure Instance (σ κ : Type) where
  schema : σ
  ds : ℕ
  pool : Option κ
  deriving DecidableEq

/-- The pools with the bytes of the memory, and the structs in the order in which they were made. -/
structure State (σ κ : Type) where
  storage : Storage κ
  structs : List (Instance σ κ)

/-- What a program does: a command for the pools; `create_with_pool`; writing the field of a struct
that an accessor leads to; `clear`; and the `clear_all` of `ReuseDynamicStructPool::reconstruct`.
What the functions of the fields allocate from a pool are commands of their own. -/
inductive Command (σ κ : Type) where
  | storage (q : StaticMemoryPool.Command κ)
  | createWithPool (k : κ) (schema : σ)
  | put (n : ℕ) (name : String) (content : List UInt8)
  | clear (n : ℕ)
  | reconstruct (n : ℕ)

/-- The command is one for a struct. -/
def Command.OfStruct {σ κ : Type} : Command σ κ → Prop
  | .storage _ => False
  | .createWithPool _ _ => False
  | .put _ _ _ => True
  | .clear _ => True
  | .reconstruct _ => True

/-- `hidden_meta`. -/
def hiddenMeta (ds : ℕ) : ℕ :=
  ds - sizeofMeta

variable {σ κ : Type}

namespace Program

variable (p : Program σ)

/-- What a call does to the bytes. -/
def effects : Effect UInt8 :=
  ⟨0, p.effect⟩

/-- `hidden_schema`. -/
def hiddenSchema (bytes : ℕ → UInt8) (ds : ℕ) : Option σ :=
  p.schemaAt (bytesAt bytes (hiddenMeta ds) sizeofMeta)

/-- The bytes that were allocated for a struct. -/
def region (i : Instance σ κ) : Region :=
  ⟨hiddenMeta i.ds, (p.schema i.schema).allocateSize, 2 ^ (p.align i.schema).val⟩

/-- The byte is one of the data of a struct. -/
def HasData (i : Instance σ κ) (x : ℕ) : Prop :=
  i.ds ≤ x ∧ x < i.ds + ((p.schema i.schema).allocateSize - sizeofMeta)

end Program

/-- The struct after its bytes have gone from pool to pool. -/
def Instance.carry (f : κ → Option κ) (i : Instance σ κ) : Instance σ κ :=
  { i with pool := i.pool.bind f }

theorem Instance.carry_some (i : Instance σ κ) :
  i.carry some = i
  := by
  obtain ⟨schema, ds, _ | k⟩ := i <;> rfl

namespace State

/-- The state with other bytes. -/
def setBytes (s : State σ κ) (bytes : ℕ → UInt8) : State σ κ :=
  { s with storage := { s.storage with bytes := bytes } }

/-- The struct is there. -/
def Has (s : State σ κ) (n : ℕ) : Prop :=
  ∃ i, i ∈ s.structs[n]? ∧ i.pool.isSome

variable [DecidableEq κ]

section

variable (p : Program σ) (grow : ℕ → ℕ) (s : State σ κ) (news : List ℕ) (noise : ℕ → UInt8)

/-- `create_with_pool`. -/
def createWithPool (k : κ) (schema : σ) : Option (State σ κ) := do
  let size := (p.schema schema).allocateSize
  let storage ← s.storage.step grow news noise (.run k (.createAligned size (.large (p.align schema))))
  let r ← (storage.world.regions k).getLast?
  let ds := create r.start
  let bytes := copyBytes storage.bytes r.start (p.address schema)
  let bytes := bytesAfter p.effects ((p.schema schema).constructAll ds (some 0)) bytes
  pure ⟨{ storage with bytes := bytes }, s.structs ++ [⟨schema, ds, some k⟩]⟩

omit [DecidableEq κ] in
/-- The field with that name of the struct `n` is written. -/
def put (n : ℕ) (name : String) (content : List UInt8) : Option (State σ κ) := do
  let i ← s.structs[n]?
  let field ← (p.schema i.schema).getField name
  pure (s.setBytes (copyBytes s.storage.bytes (get i.ds field) content))

omit [DecidableEq κ] in
/-- `clear`. -/
def clear (n : ℕ) : Option (State σ κ) := do
  let i ← s.structs[n]?
  let schema ← p.hiddenSchema s.storage.bytes i.ds
  pure (s.setBytes (bytesAfter p.effects ((p.schema schema).clearAll i.ds none) s.storage.bytes))

omit [DecidableEq κ] in
/-- `clear_all` with the schema of the pool of instances. -/
def reconstruct (n : ℕ) : Option (State σ κ) := do
  let i ← s.structs[n]?
  let calls := (p.schema i.schema).clearAll i.ds (some 0)
  pure (s.setBytes (bytesAfter p.effects calls s.storage.bytes))

/-- What a command does. -/
def serve : Command σ κ → Option (State σ κ)
  | .storage q =>
      (s.storage.serve grow news noise q).map fun storage =>
        ⟨storage, s.structs.map (Instance.carry q.carry)⟩
  | .createWithPool k schema => s.createWithPool p grow news noise k schema
  | .put n name content => s.put p n name content
  | .clear n => s.clear p n
  | .reconstruct n => s.reconstruct p n

end

/-- No pools and no structs. -/
def start (σ κ : Type) (bytes : ℕ → UInt8) : State σ κ :=
  ⟨.start bytes, []⟩

/-- The programs that have structs in pools. -/
def machine (κ : Type) [DecidableEq κ] (p : Program σ) (grow : ℕ → ℕ) :
    Machine (State σ κ) (Command σ κ × List ℕ × (ℕ → UInt8)) where
  step s e := s.serve p grow e.2.1 e.2.2 e.1

/-- No sum that a command computes wraps around; a field is written while its struct is there, with
as many bytes as it has; and a struct is cleared while it is there, without a pool only if no field
is of one. -/
def CommandOk (p : Program σ) (grow : ℕ → ℕ) (s : State σ κ) :
    Command σ κ × List ℕ × (ℕ → UInt8) → Prop
  | (.storage q, news, noise) => s.storage.CommandFits grow (q, news, noise)
  | (.createWithPool k schema, news, _) =>
      World.EventFits grow s.storage.world (.run k (.createAligned (p.schema schema).allocateSize
        (.large (p.align schema))), news)
  | (.put n name content, _, _) => s.Has n ∧
      ∃ i, i ∈ s.structs[n]? ∧ ∃ f, f ∈ (p.schema i.schema).find name ∧
        content.length = f.type.sizeOf
  | (.clear n, _, _) => s.Has n ∧
      ∃ i, i ∈ s.structs[n]? ∧ ∀ f, f ∈ (p.schema i.schema).fieldMap →
        f.type.isTrivial = false → f.type.isVoid = true
  | (.reconstruct n, _, _) => s.Has n

instance (s : State σ κ) (n : ℕ) : Decidable (s.Has n) := by
  unfold Has
  infer_instance

instance (p : Program σ) (grow : ℕ → ℕ) (s : State σ κ) : ∀ e, Decidable (s.CommandOk p grow e)
  | (.storage q, news, noise) =>
      inferInstanceAs (Decidable (s.storage.CommandFits grow (q, news, noise)))
  | (.createWithPool k schema, news, _) => inferInstanceAs (Decidable (World.EventFits grow
      s.storage.world (.run k (.createAligned (p.schema schema).allocateSize
        (.large (p.align schema))), news)))
  | (.put n name content, _, _) => inferInstanceAs (Decidable (s.Has n ∧
      ∃ i, i ∈ s.structs[n]? ∧ ∃ f, f ∈ (p.schema i.schema).find name ∧
        content.length = f.type.sizeOf))
  | (.clear n, _, _) => inferInstanceAs (Decidable (s.Has n ∧
      ∃ i, i ∈ s.structs[n]? ∧ ∀ f, f ∈ (p.schema i.schema).fieldMap →
        f.type.isTrivial = false → f.type.isVoid = true))
  | (.reconstruct n, _, _) => inferInstanceAs (Decidable (s.Has n))

end State

/-! ### Records -/

/-- A struct without bytes: its schema, the pool that it is in, if it is there yet, and what its
fields hold. -/
structure Record (σ κ : Type) where
  schema : σ
  pool : Option κ
  value : String → List UInt8

/-- The record after it has gone from pool to pool. -/
def Record.carry (f : κ → Option κ) (r : Record σ κ) : Record σ κ :=
  { r with pool := r.pool.bind f }

namespace Program

variable (p : Program σ)

/-- What a pass leaves of a field that has held `old`. -/
def after (pass : Pass) (f : Field) (old : List UInt8) : List UInt8 :=
  (List.range f.type.sizeOf).map fun n =>
    if f.type.isTrivial then 0 else p.effect (pass.method f.type) old n

/-- What a pass leaves of the fields. -/
def passed (pass : Pass) (schema : σ) (value : String → List UInt8) (name : String) : List UInt8 :=
  match (p.schema schema).find name with
  | none => value name
  | some f => p.after pass f (value name)

/-- What a command does to the records.  What is in the memory of a new struct is left open. -/
inductive Step [DecidableEq κ] : List (Record σ κ) → Command σ κ → List (Record σ κ) → Prop
  | storage (rs : List (Record σ κ)) (q : StaticMemoryPool.Command κ) :
      Step rs (.storage q) (rs.map (Record.carry q.carry))
  | createWithPool (rs : List (Record σ κ)) (k : κ) (schema : σ) (raw : String → List UInt8) :
      Step rs (.createWithPool k schema) (rs ++ [⟨schema, some k, p.passed .construct schema raw⟩])
  | put {rs : List (Record σ κ)} {n : ℕ} {r : Record σ κ} (name : String) (content : List UInt8)
      (hr : rs[n]? = some r) :
      Step rs (.put n name content)
        (rs.set n { r with value := Function.update r.value name content })
  | clear {rs : List (Record σ κ)} {n : ℕ} {r : Record σ κ} (hr : rs[n]? = some r) :
      Step rs (.clear n) (rs.set n { r with value := p.passed .clear r.schema r.value })
  | reconstruct {rs : List (Record σ κ)} {n : ℕ} {r : Record σ κ} (hr : rs[n]? = some r) :
      Step rs (.reconstruct n) (rs.set n { r with value := p.passed .clear r.schema r.value })

/-- The records after commands, one after the other. -/
inductive Runs [DecidableEq κ] : List (Command σ κ) → List (Record σ κ) → Prop
  | nil : Runs [] []
  | concat {qs : List (Command σ κ)} {q : Command σ κ} {rs rs' : List (Record σ κ)} (h : Runs qs rs)
      (hstep : p.Step rs q rs') : Runs (qs ++ [q]) rs'

/-- The struct shows what the record holds, as long as it is there. -/
structure Shows (bytes : ℕ → UInt8) (i : Instance σ κ) (r : Record σ κ) : Prop where
  schema : r.schema = i.schema
  pool : r.pool = i.pool
  header : i.pool.isSome → bytesAt bytes (hiddenMeta i.ds) sizeofMeta = p.address i.schema
  value : i.pool.isSome → ∀ name f, (p.schema i.schema).find name = some f →
    bytesAt bytes (get i.ds (.ofField f)) f.type.sizeOf = r.value name

end Program

/-- The structs show what the records hold. -/
structure State.Agrees (p : Program σ) (s : State σ κ) (rs : List (Record σ κ)) : Prop where
  length : s.structs.length = rs.length
  shows : ∀ (n : ℕ) i r, s.structs[n]? = some i → rs[n]? = some r → p.Shows s.storage.bytes i r

/-- The pools are in order and the texts are there; the structs that are there are in regions of
their pools, and these have no byte in common. -/
structure State.Right (p : Program σ) (s : State σ κ) (L : Ledgers κ) : Prop where
  tracks : Tracks s.storage.world L
  good : Good L
  intact : s.storage.Intact L
  placed : ∀ i, i ∈ s.structs → ∀ k, i.pool = some k →
    sizeofMeta ≤ i.ds ∧ ∃ l, L k = some l ∧ p.region i ∈ l.regions
  apart : s.structs.Pairwise fun i j =>
    i.pool.isSome → j.pool.isSome → (p.region i).Apart (p.region j)

variable {p : Program σ} {grow : ℕ → ℕ} {s s' : State σ κ} {L L' : Ledgers κ} {i j : Instance σ κ}
  {r : Record σ κ} {rs : List (Record σ κ)} {n m x : ℕ} {k : κ} {name : String}
  {bytes bytes' : ℕ → UInt8} {news : List ℕ} {noise : ℕ → UInt8}

/-! ### The bytes of a struct -/

theorem get_ofField (ds : ℕ) (f : Field) :
  get ds (.ofField f) = ds + f.offset
  := rfl

theorem Program.region_size_ne (p : Program σ) (i : Instance σ κ) :
  (p.region i).size ≠ 0
  := by
  have hheader := (p.stores i.schema).header
  simp only [region, sizeofMeta] at hheader ⊢
  omega

/-- The pointer to the schema is in the bytes that were allocated. -/
theorem Program.contains_header (p : Program σ) (hlo : hiddenMeta i.ds ≤ x)
    (hhi : x < hiddenMeta i.ds + sizeofMeta) :
  (p.region i).Contains x
  := by
  have hheader := (p.stores i.schema).header
  exact ⟨hlo, Nat.lt_of_lt_of_le hhi (Nat.add_le_add_left hheader _)⟩

/-- The data are in the bytes that were allocated, behind the pointer to the schema. -/
theorem Program.HasData.contains (hx : p.HasData i x) (hds : sizeofMeta ≤ i.ds) :
  (p.region i).Contains x
  := by
  have hheader := (p.stores i.schema).header
  simp only [HasData, Region.Contains, region, hiddenMeta] at hx ⊢
  omega

/-- A byte of a field is one of the data of its struct. -/
theorem Program.hasData_field {f : Field} (hf : (p.schema i.schema).find name = some f)
    (hlo : get i.ds (.ofField f) ≤ x) (hhi : x < get i.ds (.ofField f) + f.type.sizeOf) :
  p.HasData i x
  := by
  have hinside := (p.stores i.schema).laidOut.inside f (BaseSchema.mem_of_find hf).1
  rw [get_ofField] at hlo hhi
  simp only [HasData]
  omega

/-- Structs whose bytes are not written show what they have shown, in whatever pool they are. -/
theorem Program.Shows.carry (h : p.Shows bytes i r) (f : κ → Option κ)
    (hds : i.pool.isSome → sizeofMeta ≤ i.ds)
    (hsame : (i.carry f).pool.isSome → ∀ x, (p.region i).Contains x → bytes' x = bytes x) :
  p.Shows bytes' (i.carry f) (r.carry f)
  := by
  have hthere : (i.carry f).pool.isSome → i.pool.isSome := Option.isSome_of_isSome_bind
  constructor
  · apply h.schema
  · rw [Record.carry, Instance.carry, h.pool]
  · intro hcarry
    rw [Instance.carry, ← h.header (hthere hcarry)]
    apply bytesAt_congr
    intro x hlo hhi
    apply hsame hcarry x (p.contains_header hlo hhi)
  · intro hcarry name f hf
    have hvalue := h.value (hthere hcarry) name f hf
    rw [Instance.carry, Record.carry, ← hvalue]
    apply bytesAt_congr
    intro x hlo hhi
    apply hsame hcarry x
    apply (p.hasData_field hf hlo hhi).contains (hds (hthere hcarry))

theorem Record.carry_some (r : Record σ κ) :
  r.carry some = r
  := by
  obtain ⟨schema, _ | k, value⟩ := r <;> rfl

/-- Structs whose bytes are not written show what they have shown. -/
theorem Program.Shows.congr (h : p.Shows bytes i r) (hds : i.pool.isSome → sizeofMeta ≤ i.ds)
    (hsame : i.pool.isSome → ∀ x, (p.region i).Contains x → bytes' x = bytes x) :
  p.Shows bytes' i r
  := by
  rw [← i.carry_some] at hsame
  have hcarry := h.carry some hds hsame
  rw [i.carry_some, r.carry_some] at hcarry
  apply hcarry

/-- A struct of which only data are written keeps the pointer to its schema. -/
theorem Program.Shows.write (h : p.Shows bytes i r) (hds : sizeofMeta ≤ i.ds)
    (hsame : ∀ x, ¬ p.HasData i x → bytes' x = bytes x) {value : String → List UInt8}
    (hvalue : ∀ name f, (p.schema i.schema).find name = some f →
      bytesAt bytes' (get i.ds (.ofField f)) f.type.sizeOf = value name) :
  p.Shows bytes' i { r with value := value }
  := by
  refine ⟨h.schema, h.pool, ?_, fun _ => hvalue⟩
  intro hthere
  rw [← h.header hthere]
  apply bytesAt_congr
  intro x hlo hhi
  apply hsame
  rintro ⟨hle, -⟩
  rw [hiddenMeta] at hhi
  omega

/-- A field after a pass is what the pass makes of it. -/
theorem Program.bytesAt_pass (p : Program σ) (pass : Pass) {schema : σ} {ds : ℕ}
    {pool : Option ℕ} {f : Field} (hf : (p.schema schema).find name = some f) :
  bytesAt (bytesAfter p.effects (pass.calls (p.schema schema) ds pool) bytes)
      (get ds (.ofField f)) f.type.sizeOf =
    p.after pass f (bytesAt bytes (get ds (.ofField f)) f.type.sizeOf)
  := by
  apply List.map_congr_left
  intro n hn
  rw [List.mem_range] at hn
  apply (p.stores schema).prepares pass f (BaseSchema.mem_of_find hf).1 UInt8 p.effects ds pool
    bytes n hn

/-- A pass writes only data. -/
theorem Program.bytesAfter_eq (p : Program σ) (pass : Pass) {pool : Option ℕ}
    (hx : ¬ p.HasData i x) :
  bytesAfter p.effects (pass.calls (p.schema i.schema) i.ds pool) bytes x = bytes x
  := by
  apply (p.stores i.schema).bytesAfter_of_outside
  rw [HasData] at hx
  omega

/-- What was copied is what is read. -/
theorem bytesAt_copyBytes (bytes : ℕ → UInt8) (start : ℕ) (content : List UInt8) :
  bytesAt (copyBytes bytes start content) start content.length = content
  := by
  apply List.ext_getElem
  · rw [bytesAt, List.length_map, List.length_range]
  · intro n hn hn'
    simp only [bytesAt, List.getElem_map, List.getElem_range]
    apply StaticMemoryPool.copyBytes_getElem (List.getElem?_eq_getElem hn')

/-! ### The bytes of a new struct -/

/-- The pointer to the schema is written to the first bytes of the region. -/
theorem Program.copyBytes_address (p : Program σ) {schema : σ} {region : Region}
    (hsize : region.size = (p.schema schema).allocateSize) (hx : ¬ region.Contains x) :
  copyBytes bytes region.start (p.address schema) x = bytes x
  := by
  apply StaticMemoryPool.copyBytes_of_not_contains
  rintro ⟨hlo, hhi⟩
  apply hx
  use hlo
  change x < region.start + (p.address schema).length at hhi
  have hheader := (p.stores schema).header
  have hlen := p.address_length schema
  omega

/-- The fields are behind it. -/
theorem Program.bytesAfter_construct (p : Program σ) {schema : σ} {region : Region}
    (hsize : region.size = (p.schema schema).allocateSize)
    (hx : x < create region.start ∨ ¬ region.Contains x) :
  bytesAfter p.effects ((p.schema schema).constructAll (create region.start) (some 0)) bytes x =
    bytes x
  := by
  apply (p.stores schema).bytesAfter_of_outside .construct
  have hheader := (p.stores schema).header
  rw [Region.Contains] at hx
  rw [create] at hx ⊢
  omega

/-- The pointer to the schema and the fields of a new struct. -/
theorem Program.shows_made (p : Program σ) {schema : σ} {region : Region}
    (hsize : region.size = (p.schema schema).allocateSize) (bytes : ℕ → UInt8) (k : κ) :
  ∃ raw, p.Shows (bytesAfter p.effects
      ((p.schema schema).constructAll (create region.start) (some 0))
      (copyBytes bytes region.start (p.address schema)))
    ⟨schema, create region.start, some k⟩ ⟨schema, some k, p.passed .construct schema raw⟩
  := by
  use fun name => (((p.schema schema).find name).map fun f => bytesAt
    (copyBytes bytes region.start (p.address schema)) (get (create region.start) (.ofField f))
    f.type.sizeOf).getD []
  refine ⟨rfl, rfl, ?_, ?_⟩
  · intro _
    have hread := bytesAt_copyBytes bytes region.start (p.address schema)
    rw [p.address_length schema] at hread
    apply Eq.trans _ hread
    apply bytesAt_congr
    intro x _ hhi
    apply p.bytesAfter_construct hsize (Or.inl hhi)
  · intro _ name f hf
    simp only [Program.passed, hf, Option.map_some, Option.getD_some]
    apply p.bytesAt_pass .construct hf

/-! ### What is done to one struct -/

namespace State

theorem Has.there (h : s.Has n) :
  ∃ i k, s.structs[n]? = some i ∧ i.pool = some k
  := by
  obtain ⟨i, hi, hthere⟩ := h
  obtain ⟨k, hk⟩ := Option.isSome_iff_exists.mp hthere
  exact ⟨i, k, hi, hk⟩

theorem Right.sizeofMeta_le (h : s.Right p L) (hn : s.structs[n]? = some i)
    (hthere : i.pool.isSome) :
  sizeofMeta ≤ i.ds
  := by
  obtain ⟨k, hk⟩ := Option.isSome_iff_exists.mp hthere
  apply (h.placed i (List.mem_of_getElem? hn) k hk).1

/-- The regions of two structs have no byte in common. -/
theorem Right.apart_of_ne (h : s.Right p L) (hm : s.structs[m]? = some i)
    (hn : s.structs[n]? = some j) (hne : m ≠ n) (hi : i.pool.isSome) (hj : j.pool.isSome) :
  (p.region i).Apart (p.region j)
  := by
  obtain ⟨hlt, rfl⟩ := List.getElem?_eq_some_iff.mp hm
  obtain ⟨hlt', rfl⟩ := List.getElem?_eq_some_iff.mp hn
  rcases Nat.lt_or_gt_of_ne hne with hmn | hnm
  · apply List.pairwise_iff_getElem.mp h.apart m n hlt hlt' hmn hi hj
  · rintro x ⟨hx, hx'⟩
    apply List.pairwise_iff_getElem.mp h.apart n m hlt' hlt hnm hj hi x ⟨hx', hx⟩

/-- The region of a struct is aligned, so that it is none of a text. -/
theorem Right.apart_text {t : StaticMemoryPool.Text} (h : s.Right p L)
    (hn : s.structs[n]? = some i) (hthere : i.pool.isSome) (ht : t ∈ s.storage.texts k) :
  t.region.Apart (p.region i)
  := by
  obtain ⟨k', hk'⟩ := Option.isSome_iff_exists.mp hthere
  obtain ⟨-, l, hl, hr⟩ := h.placed i (List.mem_of_getElem? hn) k' hk'
  obtain ⟨l', hl', ht'⟩ := h.intact.placed k t ht
  apply h.tracks.apart_of_ne h.good hl' hl ht' hr
  intro heq
  have halign : 1 = (p.region i).align := congrArg Region.align heq
  have hle := (p.stores i.schema).align
  rw [p.align_eq] at hle
  change 1 = 2 ^ (p.align i.schema).val at halign
  rw [← halign] at hle
  cases Nat.le_of_succ_le_succ hle

/-- Writing the data of a struct that is there changes nothing else. -/
theorem Right.write (h : s.Right p L) (hn : s.structs[n]? = some i) (hthere : i.pool.isSome)
    (hsame : ∀ x, ¬ p.HasData i x → bytes x = s.storage.bytes x) :
  (s.setBytes bytes).Right p L
  := by
  refine ⟨h.tracks, h.good, h.intact.congr ?_, h.placed, h.apart⟩
  intro k t ht x hx
  apply hsame
  intro hdata
  apply h.apart_text hn hthere ht x ⟨hx, hdata.contains (h.sizeofMeta_le hn hthere)⟩

/-- The other structs show what they have shown. -/
theorem Agrees.write {r' : Record σ κ} (ha : s.Agrees p rs) (h : s.Right p L)
    (hn : s.structs[n]? = some i) (hthere : i.pool.isSome)
    (hsame : ∀ x, ¬ p.HasData i x → bytes x = s.storage.bytes x) (hshows : p.Shows bytes i r') :
  (s.setBytes bytes).Agrees p (rs.set n r')
  := by
  constructor
  · rw [List.length_set]
    apply ha.length
  · intro m j r hj hr
    rcases Classical.em (m = n) with rfl | hne
    · obtain rfl := Option.some.inj (hn.symm.trans hj)
      obtain ⟨hlt, heq⟩ := List.getElem?_eq_some_iff.mp hr
      rw [List.getElem_set_self] at heq
      rw [← heq]
      apply hshows
    · rw [List.getElem?_set_ne (Ne.symm hne)] at hr
      apply (ha.shows m j r hj hr).congr
      · apply h.sizeofMeta_le hj
      · intro hthere' x hx
        apply hsame
        intro hdata
        apply h.apart_of_ne hj hn hne hthere' hthere x
        exact ⟨hx, hdata.contains (h.sizeofMeta_le hn hthere)⟩

/-- The record of a struct. -/
theorem Agrees.record (ha : s.Agrees p rs) (hn : s.structs[n]? = some i) :
  ∃ r, rs[n]? = some r ∧ p.Shows s.storage.bytes i r
  := by
  have hlt := (List.getElem?_eq_some_iff.mp hn).1
  rw [ha.length] at hlt
  have hr := List.getElem?_eq_getElem hlt
  exact ⟨rs[n], hr, ha.shows n i _ hn hr⟩

/-- A field of a struct that is there is written, and the record holds what was written. -/
theorem Right.put {f : Field} {content : List UInt8} (h : s.Right p L) (ha : s.Agrees p rs)
    (hn : s.structs[n]? = some i) (hthere : i.pool.isSome)
    (hf : (p.schema i.schema).find name = some f) (hlen : content.length = f.type.sizeOf) :
  ∃ r, rs[n]? = some r ∧
    (s.setBytes (copyBytes s.storage.bytes (get i.ds (.ofField f)) content)).Right p L ∧
    (s.setBytes (copyBytes s.storage.bytes (get i.ds (.ofField f)) content)).Agrees p
      (rs.set n { r with value := Function.update r.value name content })
  := by
  obtain ⟨r, hr, hshows⟩ := ha.record hn
  have hsame : ∀ x, ¬ p.HasData i x →
      copyBytes s.storage.bytes (get i.ds (.ofField f)) content x = s.storage.bytes x := by
    intro x hx
    apply StaticMemoryPool.copyBytes_of_not_contains
    rintro ⟨hlo, hhi⟩
    apply hx
    apply p.hasData_field hf hlo
    rw [← hlen]
    exact hhi
  refine ⟨r, hr, h.write hn hthere hsame, ha.write h hn hthere hsame ?_⟩
  apply hshows.write (h.sizeofMeta_le hn hthere) hsame
  intro name' g hg
  rcases Classical.em (name' = name) with rfl | hne
  · obtain rfl := Option.some.inj (hf.symm.trans hg)
    rw [Function.update_self, ← hlen]
    apply bytesAt_copyBytes
  · rw [Function.update_of_ne hne, ← hshows.value hthere name' g hg]
    have hapart := (p.stores i.schema).laidOut.apart_of_find hf hg (Ne.symm hne)
    apply bytesAt_congr
    intro x hlo hhi
    apply StaticMemoryPool.copyBytes_of_not_contains
    rintro ⟨hlo', hhi'⟩
    change x < get i.ds (.ofField f) + content.length at hhi'
    change get i.ds (.ofField f) ≤ x at hlo'
    rw [get_ofField] at hlo hhi hlo' hhi'
    omega

/-- The fields of a struct that is there are cleared. -/
theorem Right.clearAll (h : s.Right p L) (ha : s.Agrees p rs) (hn : s.structs[n]? = some i)
    (hthere : i.pool.isSome) (pool : Option ℕ) :
  ∃ r, rs[n]? = some r ∧
    (s.setBytes (bytesAfter p.effects ((p.schema i.schema).clearAll i.ds pool)
      s.storage.bytes)).Right p L ∧
    (s.setBytes (bytesAfter p.effects ((p.schema i.schema).clearAll i.ds pool)
      s.storage.bytes)).Agrees p (rs.set n { r with value := p.passed .clear r.schema r.value })
  := by
  obtain ⟨r, hr, hshows⟩ := ha.record hn
  have hsame : ∀ x, ¬ p.HasData i x →
      bytesAfter p.effects ((p.schema i.schema).clearAll i.ds pool) s.storage.bytes x =
        s.storage.bytes x := by
    intro x hx
    apply p.bytesAfter_eq .clear hx
  refine ⟨r, hr, h.write hn hthere hsame, ha.write h hn hthere hsame ?_⟩
  apply hshows.write (h.sizeofMeta_le hn hthere) hsame
  intro name f hf
  rw [hshows.schema, Program.passed, hf]
  simp only [← hshows.value hthere name f hf]
  apply p.bytesAt_pass .clear hf

/-- The pointer to the schema leads to the schema of a struct that is there. -/
theorem Agrees.hiddenSchema (ha : s.Agrees p rs) (hn : s.structs[n]? = some i)
    (hthere : i.pool.isSome) :
  p.hiddenSchema s.storage.bytes i.ds = some i.schema
  := by
  obtain ⟨r, -, hshows⟩ := ha.record hn
  rw [Program.hiddenSchema, hshows.header hthere, p.schemaAt_address]

/-! ### What is done to the pools -/

/-- What carries on the bytes in the regions carries on the structs. -/
theorem Right.carry {storage : Storage κ} {f : κ → Option κ} (h : s.Right p L)
    (htracks : Tracks storage.world L') (hgood : Good L') (hi : storage.Intact L')
    (hcarries : s.storage.Carries storage L L' f) :
  State.Right p ⟨storage, s.structs.map (Instance.carry f)⟩ L'
  := by
  refine ⟨htracks, hgood, hi, ?_, ?_⟩
  · intro i hmem k hk
    obtain ⟨j, hj, rfl⟩ := List.mem_map.mp hmem
    obtain ⟨k', hk', hf⟩ := Option.bind_eq_some_iff.mp hk
    obtain ⟨hds, l, hl, hr⟩ := h.placed j hj k' hk'
    use hds
    apply (hcarries k' k l (p.region j) hl hr (p.region_size_ne j) hf).1
  · rw [List.pairwise_map]
    apply h.apart.imp
    intro i j hapart hthere hthere'
    apply hapart (Option.isSome_of_isSome_bind hthere) (Option.isSome_of_isSome_bind hthere')

theorem Agrees.carry {storage : Storage κ} {f : κ → Option κ} (ha : s.Agrees p rs)
    (h : s.Right p L) (hcarries : s.storage.Carries storage L L' f) :
  State.Agrees p ⟨storage, s.structs.map (Instance.carry f)⟩ (rs.map (Record.carry f))
  := by
  constructor
  · rw [List.length_map, List.length_map, ha.length]
  · intro n i r hn hr
    obtain ⟨j, hj, rfl⟩ := Option.map_eq_some_iff.mp (List.getElem?_map.symm.trans hn)
    obtain ⟨r', hr', rfl⟩ := Option.map_eq_some_iff.mp (List.getElem?_map.symm.trans hr)
    apply (ha.shows n j r' hj hr').carry
    · apply h.sizeofMeta_le hj
    · intro hcarry
      obtain ⟨k, hk⟩ := Option.isSome_iff_exists.mp hcarry
      obtain ⟨k', hk', hf⟩ := Option.bind_eq_some_iff.mp hk
      obtain ⟨-, l, hl, hmem⟩ := h.placed j (List.mem_of_getElem? hj) k' hk'
      apply (hcarries k' k l (p.region j) hl hmem (p.region_size_ne j) hf).2

/-- The bytes of a struct that has been made in the region `r`. -/
theorem Right.made {storage : Storage κ} {schema : σ} {r : Region} (h : s.Right p L)
    (hout : s.storage.HandsOut storage L L' k r)
    (hsize : r.size = (p.schema schema).allocateSize)
    (halign : r.align = 2 ^ (p.align schema).val)
    (hsame : ∀ x, ¬ r.Contains x → bytes x = storage.bytes x) :
  State.Right p ⟨{ storage with bytes := bytes }, s.structs ++ [⟨schema, create r.start, some k⟩]⟩
    L'
  := by
  have hregion : p.region (⟨schema, create r.start, some k⟩ : Instance σ κ) = r := by
    obtain ⟨start, size, align⟩ := r
    obtain rfl := hsize
    obtain rfl := halign
    rfl
  have hold := h.carry hout.tracks hout.good hout.intact hout.carries
  rw [funext Instance.carry_some, List.map_id'] at hold
  refine ⟨hold.tracks, hold.good, hold.intact.congr ?_, ?_, ?_⟩
  · intro j t ht x hx
    apply hsame
    intro hcontains
    apply hout.texts j t ht x ⟨hx, hcontains⟩
  · intro i hi j hj
    rcases List.mem_append.mp hi with hi | hi
    · apply hold.placed i hi j hj
    · obtain rfl := List.mem_singleton.mp hi
      obtain rfl := Option.some.inj hj
      use Nat.le_add_left sizeofMeta r.start
      rw [hregion]
      apply hout.placed
  · rw [List.pairwise_append]
    refine ⟨hold.apart, List.pairwise_singleton _ _, ?_⟩
    intro i hi j hj hthere _
    obtain rfl := List.mem_singleton.mp hj
    obtain ⟨k', hk'⟩ := Option.isSome_iff_exists.mp hthere
    obtain ⟨-, l, hl, hr⟩ := h.placed i hi k' hk'
    rw [hregion]
    apply hout.apart k' l _ hl hr

theorem Agrees.made {storage : Storage κ} {r : Region} {record : Record σ κ} (ha : s.Agrees p rs)
    (h : s.Right p L) (hout : s.storage.HandsOut storage L L' k r)
    (hsame : ∀ x, ¬ r.Contains x → bytes x = storage.bytes x) (hshows : p.Shows bytes i record) :
  State.Agrees p ⟨{ storage with bytes := bytes }, s.structs ++ [i]⟩ (rs ++ [record])
  := by
  have hold := ha.carry h hout.carries
  rw [funext Instance.carry_some, funext Record.carry_some, List.map_id', List.map_id'] at hold
  constructor
  · rw [List.length_append, List.length_append, ha.length, List.length_singleton,
      List.length_singleton]
  · intro n j r' hj hr'
    rcases Nat.lt_or_ge n s.structs.length with hlt | hge
    · rw [List.getElem?_append_left hlt] at hj
      rw [ha.length] at hlt
      rw [List.getElem?_append_left hlt] at hr'
      apply (hold.shows n j r' hj hr').congr
      · apply h.sizeofMeta_le hj
      · intro hthere x hx
        obtain ⟨k', hk'⟩ := Option.isSome_iff_exists.mp hthere
        obtain ⟨-, l, hl, hmem⟩ := h.placed j (List.mem_of_getElem? hj) k' hk'
        apply hsame
        intro hcontains
        apply hout.apart k' l _ hl hmem x ⟨hx, hcontains⟩
    · rw [List.getElem?_append_right hge] at hj
      rw [ha.length] at hge hj
      rw [List.getElem?_append_right hge] at hr'
      rcases Nat.eq_zero_or_pos (n - rs.length) with hzero | hpos
      · rw [hzero] at hj hr'
        obtain rfl := Option.some.inj hj
        obtain rfl := Option.some.inj hr'
        apply hshows
      · rw [List.getElem?_eq_none (Nat.succ_le_of_lt hpos)] at hj
        cases hj

variable [DecidableEq κ]

/-- `create_with_pool` makes a struct whose fields are what the constructors make of what was in
the memory. -/
theorem Right.createWithPool {schema : σ} (h : s.Right p L) (ha : s.Agrees p rs)
    (hfits : World.EventFits grow s.storage.world (.run k
      (.createAligned (p.schema schema).allocateSize (.large (p.align schema))), news))
    (hserve : s.createWithPool p grow news noise k schema = some s') :
  ∃ L' raw, s'.Right p L' ∧ s'.Agrees p (rs ++ [⟨schema, some k, p.passed .construct schema raw⟩])
  := by
  obtain ⟨storage, hstep, hserve⟩ := Option.bind_eq_some_iff.mp hserve
  obtain ⟨r, hlast, hserve⟩ := Option.bind_eq_some_iff.mp hserve
  obtain rfl := Option.some.inj hserve
  obtain ⟨L', r', hout, hsize, halign⟩ := h.intact.handsOut h.tracks h.good
    (.createAligned (p.schema schema).allocateSize (.large (p.align schema))) hfits hstep
  obtain rfl := Option.some.inj (hlast.symm.trans hout.last)
  have hsame : ∀ x, ¬ r.Contains x → bytesAfter p.effects
      ((p.schema schema).constructAll (create r.start) (some 0))
      (copyBytes storage.bytes r.start (p.address schema)) x = storage.bytes x := by
    intro x hx
    rw [p.bytesAfter_construct hsize (Or.inr hx), p.copyBytes_address hsize hx]
  obtain ⟨raw, hshows⟩ := p.shows_made hsize storage.bytes k
  exact ⟨L', raw, h.made hout hsize halign hsame, ha.made h hout hsame hshows⟩

/-! ### Programs -/

/-- What a command does to the records. -/
theorem Right.serve {q : Command σ κ} (h : s.Right p L) (ha : s.Agrees p rs)
    (hok : s.CommandOk p grow (q, news, noise)) (hserve : s.serve p grow news noise q = some s') :
  ∃ L' rs', s'.Right p L' ∧ p.Step rs q rs' ∧ s'.Agrees p rs'
  := by
  cases q with
  | storage q =>
      obtain ⟨storage, hstorage, rfl⟩ := Option.map_eq_some_iff.mp hserve
      obtain ⟨L', h', hgood', hi', hcarries⟩ := h.intact.serve h.tracks h.good hok hstorage
      exact ⟨L', _, h.carry h' hgood' hi' hcarries, .storage rs q, ha.carry h hcarries⟩
  | createWithPool k schema =>
      obtain ⟨L', raw, h', ha'⟩ := h.createWithPool ha hok hserve
      exact ⟨L', _, h', .createWithPool rs k schema raw, ha'⟩
  | put n name content =>
      obtain ⟨hhas, i, hn, f, hf, hlen⟩ := hok
      obtain ⟨i', k, hn', hk⟩ := hhas.there
      obtain rfl := Option.some.inj (hn'.symm.trans hn)
      obtain ⟨r, hr, h', ha'⟩ := h.put ha hn' (Option.isSome_of_eq_some hk) hf hlen
      obtain ⟨j, hj, hserve⟩ := Option.bind_eq_some_iff.mp hserve
      obtain rfl := Option.some.inj (hn'.symm.trans hj)
      obtain ⟨field, hfield, hserve⟩ := Option.bind_eq_some_iff.mp hserve
      obtain ⟨g, hg, rfl⟩ := Option.map_eq_some_iff.mp hfield
      obtain rfl := Option.some.inj (hg.symm.trans hf)
      obtain rfl := Option.some.inj hserve
      exact ⟨L, _, h', .put name content hr, ha'⟩
  | clear n =>
      obtain ⟨i, k, hn, hk⟩ := hok.1.there
      have hthere := Option.isSome_of_eq_some hk
      obtain ⟨r, hr, h', ha'⟩ := h.clearAll ha hn hthere none
      obtain ⟨j, hj, hserve⟩ := Option.bind_eq_some_iff.mp hserve
      obtain rfl := Option.some.inj (hn.symm.trans hj)
      rw [ha.hiddenSchema hn hthere] at hserve
      obtain rfl := Option.some.inj hserve
      exact ⟨L, _, h', .clear hr, ha'⟩
  | reconstruct n =>
      obtain ⟨i, k, hn, hk⟩ := hok.there
      obtain ⟨r, hr, h', ha'⟩ := h.clearAll ha hn (Option.isSome_of_eq_some hk) (some 0)
      obtain ⟨j, hj, hserve⟩ := Option.bind_eq_some_iff.mp hserve
      obtain rfl := Option.some.inj (hn.symm.trans hj)
      obtain rfl := Option.some.inj hserve
      exact ⟨L, _, h', .reconstruct hr, ha'⟩

/-- A command for a struct that is there is carried out. -/
theorem Agrees.isSome_serve {q : Command σ κ} (ha : s.Agrees p rs) (hq : q.OfStruct)
    (hok : s.CommandOk p grow (q, news, noise)) :
  (s.serve p grow news noise q).isSome
  := by
  cases q with
  | storage q => cases hq
  | createWithPool k schema => cases hq
  | put n name content =>
      obtain ⟨-, i, hn, f, hf, -⟩ := hok
      have hn : s.structs[n]? = some i := hn
      have hf : (p.schema i.schema).find name = some f := hf
      simp [State.serve, State.put, BaseSchema.getField, hn, hf]
  | clear n =>
      obtain ⟨i, k, hn, hk⟩ := hok.1.there
      have hschema := ha.hiddenSchema hn (Option.isSome_of_eq_some hk)
      simp [State.serve, State.clear, hn, hschema]
  | reconstruct n =>
      obtain ⟨i, k, hn, -⟩ := hok.there
      simp [State.serve, State.reconstruct, hn]

end State

variable [DecidableEq κ]

/-- Every program that keeps to the rules sees of its structs what it would see of records: their
fields hold what was last written to them, or what the constructors and cleaners have left, whatever
else is done to the structs and the pools.  The texts in the pools are there too, and a command for
a struct that is there finds its schema and field. -/
theorem records_shown {es : List (Command σ κ × List ℕ × (ℕ → UInt8))}
    (hok : (State.machine κ p grow).Steps (State.CommandOk p grow) (.start σ κ bytes) es)
    (hrun : (State.machine κ p grow).run (.start σ κ bytes) es = some s) :
  (∃ rs, p.Runs (es.map Prod.fst) rs ∧ s.Agrees p rs) ∧
    (∀ k t, t ∈ s.storage.texts k → s.storage.Reads t) ∧
    ∀ q news noise, q.OfStruct → s.CommandOk p grow (q, news, noise) →
      (s.serve p grow news noise q).isSome
  := by
  have hinv : ∃ L rs, s.Right p L ∧ p.Runs (es.map Prod.fst) rs ∧ s.Agrees p rs := by
    revert hok
    apply Machine.run_induction (State.machine κ p grow) (P := fun es s =>
      (State.machine κ p grow).Steps (State.CommandOk p grow) (.start σ κ bytes) es →
        ∃ L rs, s.Right p L ∧ p.Runs (es.map Prod.fst) rs ∧ s.Agrees p rs) _ _ hrun
    · intro _
      refine ⟨_, [], ⟨StaticMemoryPool.empty_tracks, nofun, ⟨?_, ?_⟩, nofun, List.Pairwise.nil⟩,
        .nil, rfl, ?_⟩
      · intro k t ht
        cases ht
      · intro k t ht
        cases ht
      · intro n i r hn
        cases hn
    · intro es t e u ht ih hstep hok
      obtain ⟨L, rs, h, hruns, ha⟩ := ih (hok.of_isPrefix (List.prefix_append es [e]))
      obtain ⟨L', rs', h', hrecords, ha'⟩ :=
        h.serve ha (hok es e t (List.prefix_refl _) ht) hstep
      refine ⟨L', rs', h', ?_, ha'⟩
      rw [List.map_append]
      apply hruns.concat hrecords
  obtain ⟨L, rs, h, hruns, ha⟩ := hinv
  refine ⟨⟨rs, hruns, ha⟩, ?_, ?_⟩
  · intro k t ht
    apply h.intact.text_reads ht
  · intro q news noise hq hok
    apply ha.isSome_serve hq hok

/-- Two schemas: numbers, and numbers with a string of the pool.  A pointer to one of them is zero
or one. -/
def numbersAndNames : Program Bool where
  schema j := if j then newSchema.register [⟨int32, "id", npos⟩, ⟨pooledString, "name", npos⟩]
    else newSchema.register [⟨int32, "id", npos⟩, ⟨int32, "age", npos⟩]
  align _ := 3
  effect method _ _ :=
    match method with
    | .reconstruct _ => 2
    | .fillWithZero => 0
    | .construct _ => 1
    | .constructWithPool _ => 1
    | .constructWithMetadata _ => 1
  address j := List.replicate 7 0 ++ [if j then 1 else 0]
  schemaAt content := content.getLast?.map fun b => decide (b = 1)
  stores j := by
    cases j
    · apply BaseSchema.stores_register (by decide) (by decide +kernel)
    · apply BaseSchema.stores_register (by decide) (by decide +kernel)
  align_eq := by decide +kernel
  address_length := by decide
  schemaAt_address := by decide

/-- Three structs in two pools: one is cleared and written again, one is released when the other
pool is moved to its own, and one is cleared through the pointer to its schema. -/
def threeRecords : List (Command Bool Bool × List ℕ × (ℕ → UInt8)) :=
  [(.storage (.event (.construct false 200)), [], fun _ => 7),
    (.storage (.event (.construct true 100)), [], fun _ => 7),
    (.createWithPool false true, [4096], fun _ => 7),
    (.createWithPool true false, [8192], fun _ => 7),
    (.put 0 "id" [1, 2, 3, 4], [], fun _ => 8), (.put 1 "id" [5, 6, 7, 8], [], fun _ => 8),
    (.storage (.createCstringBuffer false [104, 105]), [], fun _ => 9),
    (.reconstruct 0, [], fun _ => 9), (.put 0 "id" [9, 9, 9, 9], [], fun _ => 9),
    (.storage (.event (.moveAssign true false)), [12288], fun _ => 8),
    (.createWithPool true false, [], fun _ => 8), (.put 2 "id" [1, 1, 1, 1], [], fun _ => 9),
    (.put 2 "age" [2, 2, 2, 2], [], fun _ => 9), (.clear 2, [], fun _ => 9),
    (.put 2 "age" [3, 3, 3, 3], [], fun _ => 9)]

/-- The first four bytes of the data of the structs. -/
def firstBytes (s : State Bool Bool) : List (List UInt8) :=
  s.structs.map fun i => bytesAt s.storage.bytes i.ds 4

theorem records_shown_threeRecords :
  ∃ s rs, (State.machine Bool numbersAndNames (· * 11 / 10)).run (.start Bool Bool fun _ => 0)
      threeRecords = some s ∧
    numbersAndNames.Runs (threeRecords.map Prod.fst) rs ∧ s.Agrees numbersAndNames rs ∧
    s.structs.map Instance.pool = [some true, none, some true] ∧
    firstBytes s = [[9, 9, 9, 9], [8, 8, 8, 8], [0, 0, 0, 0]]
  := by
  have hrun : ((State.machine Bool numbersAndNames (· * 11 / 10)).run (.start Bool Bool fun _ => 0)
      threeRecords).any fun s =>
        s.structs.map Instance.pool == [some true, none, some true] &&
          firstBytes s == [[9, 9, 9, 9], [8, 8, 8, 8], [0, 0, 0, 0]] := by
    decide +kernel
  obtain ⟨s, hs, h⟩ := Option.any_eq_true _ _ |>.mp hrun
  rw [Bool.and_eq_true, beq_iff_eq, beq_iff_eq] at h
  obtain ⟨⟨rs, hruns, ha⟩, -⟩ := records_shown (by decide +kernel) hs
  exact ⟨s, rs, hs, hruns, ha, h.1, h.2⟩

end Records

end DynamicStruct
