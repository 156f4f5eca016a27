import CppFreshman.Machine.Threads
import CppFreshman.Schema.Zeroing
import Mathlib.Data.List.Nodup

/-!
# Registering fields in several threads

`register_field` looks for the name before it takes the lock, and not again once it has the lock.
If no other thread has registered the name in between, and the place of the field is clear, every
name is laid out once (`laidOutOnce_of_undisturbed`).  Fields without offsets have clear places as
long as no sum wraps around (`laidOutOnce_of_fresh`).
-/

namespace DynamicStruct

open BaseSchema (Registration)

namespace BaseSchema

variable (s : BaseSchema)

/-- What the protected `register_field` does under the lock: the field gets a place and its
entries; the map keeps the field of that name if it has one, and it is the one returned. -/
def registerLockedAs (type : TypeInfo) (name : String) (fieldType : FieldType) (offset : ℕ)
    (schema : Option ℕ) : BaseSchema × FieldAccessor :=
  let (added, accessor) := s.addField type name fieldType offset schema
  match s.find name with
  | some field => ({ added with fieldMap := s.fieldMap }, .ofField field)
  | none => (added, accessor)

/-- What `register_field` does under the lock, for each of its overloads. -/
def registerLocked (c : Registration) : BaseSchema × FieldAccessor :=
  match c.type.isPointer, c.type.structSchema with
  | true, some schema =>
      s.registerLockedAs c.type c.name .dynamicStructPointer c.offset (some schema)
  | true, none => s.registerLockedAs c.type c.name .other c.offset none
  | false, some schema =>
      s.registerLockedAs c.type c.name .dynamicStruct c.offset (some schema)
  | false, none => s.registerLockedAs c.type c.name .other c.offset none

/-- `get_field_size`. -/
def getFieldSize : ℕ :=
  s.fieldMap.length

/-- The field that a call is to add, with the offset that it gets. -/
def placed (c : Registration) : Registration :=
  ⟨c.type, c.name, (s.place c.type c.offset).2⟩

end BaseSchema

/-- What a thread has before it: the call that has not found its name and waits for the lock; and
the calls that have returned. -/
structure Caller where
  pending : Option Registration
  returned : List (Registration × FieldAccessor)

/-- The steps of `register_field`: it looks for the name of a field; and it registers the field
under the lock. -/
inductive Act where
  | find (c : Registration)
  | lock
  deriving DecidableEq

/-- Threads that call `register_field` of one schema, each again and again. -/
def registrars (ι : Type*) : Threads ι BaseSchema Caller Act where
  step _ a s l :=
    match a, l.pending with
    | .find c, none =>
        match s.find c.name with
        | some field => some (s, { l with returned := l.returned ++ [(c, .ofField field)] })
        | none => some (s, { l with pending := some c })
    | .lock, some c =>
        let (s, accessor) := s.registerLocked c
        some (s, { pending := none, returned := l.returned ++ [(c, accessor)] })
    | _, _ => none

/-- No thread has called yet. -/
def unregistered (ι : Type*) (initAlign initAlignSize : ℕ) :
    Threads.Config ι BaseSchema Caller :=
  ⟨.new initAlign initAlignSize, fun _ => ⟨none, []⟩⟩

/-! ### What it is to be laid out once -/

/-- The creator of the metadata of a field. -/
def Field.metadata (field : Field) : Option TypeInfo :=
  if field.type.useMetadata then some field.type else none

/-- The bytes of the field lie in the range of the entry. -/
def Entry.Holds (entry : Entry) (c : Registration) : Prop :=
  entry.offset ≤ c.offset ∧ c.limit ≤ entry.offset + entry.size

/-- The field lies in exactly one of the ranges, with the function that is for it. -/
def Pass.HoldsOnce (p : Pass) (s : BaseSchema) (field : Field) : Prop :=
  ∃ before entry after, p.entries s = before ++ entry :: after ∧
    entry.Holds field.registration ∧
    (∀ e, e ∈ before ++ after → ¬ e.Holds field.registration) ∧
    if field.type.isTrivial then entry.method = .fillWithZero
    else entry = ⟨field.offset, field.type.sizeOf, p.method field.type⟩

/-- Every name has one entry in each of the lists and lies in one range to be constructed and one
to be cleared. -/
structure BaseSchema.EachOnce (s : BaseSchema) : Prop where
  names : (s.fieldMap.map Field.name).Nodup
  creators : s.metadataCreator = s.fieldMap.map Field.metadata
  deletors : s.metadataDeletor = s.fieldMap.map Field.metadata
  updators : s.metadataUpdator = s.fieldMap.map fun field => (field.offset, field.metadata)
  ranges : ∀ p field, field ∈ s.fieldMap → Pass.HoldsOnce p s field

/-- Every name is laid out once, the number of the fields is that of the entries, and all calls
for a name have returned the field that is laid out. -/
structure LaidOutOnce {ι : Type*} (c : Threads.Config ι BaseSchema Caller) : Prop where
  schema : c.shared.EachOnce
  creators : c.shared.getFieldSize = c.shared.metadataCreator.length
  deletors : c.shared.getFieldSize = c.shared.metadataDeletor.length
  updators : c.shared.getFieldSize = c.shared.metadataUpdator.length
  returned : ∀ i r, r ∈ (c.locals i).returned →
    ∃ field, field ∈ c.shared.fieldMap ∧ field.name = r.1.name ∧ r.2 = .ofField field
  agree : ∀ i r, r ∈ (c.locals i).returned → ∀ j r', r' ∈ (c.locals j).returned →
    r.1.name = r'.1.name → r.2.offset = r'.2.offset

/-! ### When it is -/

/-- The field is clear of the ranges there are: it ends before the end of memory and lies in none
of them; and if its range is to be that of the last entry, it lies behind it, and none of the
others in between. -/
structure Clear (entries : List Entry) (c : Registration) : Prop where
  limit_lt : c.limit < 2 ^ 64
  apart : ∀ e, e ∈ entries → c.limit ≤ e.offset ∨ e.offset + e.size ≤ c.offset
  follows : c.type.isTrivial = true → ∀ last, last ∈ entries.getLast? →
    last.method = .fillWithZero → last.offset ≤ c.offset ∧
      ∀ e, e ∈ entries.dropLast → e.offset + e.size ≤ last.offset ∨ c.limit ≤ e.offset

instance Clear.decidable (entries : List Entry) (c : Registration) :
    Decidable (Clear entries c) :=
  decidable_of_iff
    (c.limit < 2 ^ 64 ∧
      (∀ e, e ∈ entries → c.limit ≤ e.offset ∨ e.offset + e.size ≤ c.offset) ∧
      (c.type.isTrivial = true → ∀ last, last ∈ entries.getLast? →
        last.method = .fillWithZero → last.offset ≤ c.offset ∧
          ∀ e, e ∈ entries.dropLast → e.offset + e.size ≤ last.offset ∨ c.limit ≤ e.offset))
    ⟨fun ⟨hl, ha, hf⟩ => ⟨hl, ha, hf⟩, fun ⟨hl, ha, hf⟩ => ⟨hl, ha, hf⟩⟩

/-- A field that is registered now has not been registered since it was looked for. -/
def Fresh (a : Act) (s : BaseSchema) (l : Caller) : Prop :=
  a = .lock → ∀ c, c ∈ l.pending → s.find c.name = none

/-- A field that is registered now has not been registered since it was looked for, and its place
is clear. -/
def Undisturbed (a : Act) (s : BaseSchema) (l : Caller) : Prop :=
  Fresh a s l ∧ (a = .lock → ∀ c, c ∈ l.pending →
    Clear s.constructors (s.placed c) ∧ Clear s.cleaners (s.placed c))

instance Undisturbed.decidable (a : Act) (s : BaseSchema) (l : Caller) :
    Decidable (Undisturbed a s l) := by
  unfold Undisturbed Fresh
  infer_instance

/-! ### The ranges -/

/-- The range of each run of fields holds the fields of the run and no others. -/
def HoldRuns (p : Pass) (order : List Registration) : Prop :=
  ∀ run, run ∈ trivialRuns order → ∀ entry, p.merge.merged run = some entry →
    ∀ c, c ∈ order → (entry.Holds c ↔ c ∈ run)

variable {p : Pass} {order : List Registration} {c : Registration}

/-- A field is not held by a range that it is clear of. -/
theorem not_holds_of_apart {entry : Entry}
    (h : c.limit ≤ entry.offset ∨ entry.offset + entry.size ≤ c.offset) :
  ¬ entry.Holds c
  := by
  have hpos := c.type.size_pos
  rintro ⟨hle, hlimit⟩
  rw [Registration.limit] at h hlimit
  omega

/-- A range of which a field is clear holds nothing that the field's own range does. -/
theorem not_holds_own {entry : Entry} {d : Registration} {method : Method}
    (h : c.limit ≤ entry.offset ∨ entry.offset + entry.size ≤ c.offset) (hd : entry.Holds d) :
  ¬ (⟨c.offset, c.type.sizeOf, method⟩ : Entry).Holds d
  := by
  have hpos := d.type.size_pos
  obtain ⟨hle, hlimit⟩ := hd
  rintro ⟨hle', hlimit'⟩
  rw [Registration.limit] at h hlimit hlimit'
  simp only at hle' hlimit'
  omega

/-- A field is in one of the runs. -/
theorem exists_run (hc : c ∈ order) :
  ∃ run entry, run ∈ trivialRuns order ∧ c ∈ run ∧ p.merge.merged run = some entry ∧
    entry ∈ p.merge.entries order
  := by
  rw [← p.merge.flatten_runs order, runs_merge] at hc
  obtain ⟨run, hrun, hc⟩ := List.mem_flatten.mp hc
  obtain ⟨entry, hentry⟩ : ∃ entry, p.merge.merged run = some entry := by
    rcases run with _ | ⟨c', run⟩
    · cases hc
    · exact ⟨_, rfl⟩
  exact ⟨run, entry, hrun, hc, hentry, p.merge.mem_entries.mpr ⟨run, hrun, hentry⟩⟩

/-- A field with a clear place is merged into the last range, or gets one of its own. -/
theorem HoldRuns.concat (h : HoldRuns p order) (hnew : c ∉ order)
    (hclear : Clear (p.merge.entries order) c) :
  HoldRuns p (order ++ [c])
  := by
  have hold : ∀ run, run ∈ trivialRuns order → ∀ entry, p.merge.merged run = some entry →
      ∀ d, d ∈ order ++ [c] → (entry.Holds d ↔ d ∈ run) := by
    intro run hrun entry hentry d hd
    obtain hd | hd := List.mem_append.mp hd
    · apply h run hrun entry hentry d hd
    · obtain rfl := List.mem_singleton.mp hd
      have hapart := hclear.apart entry (p.merge.mem_entries.mpr ⟨run, hrun, hentry⟩)
      constructor
      · intro hholds
        exact absurd hholds (not_holds_of_apart hapart)
      · intro hmem
        exact absurd (mem_of_mem_run hrun hmem) hnew
  obtain ⟨init, run, last, hruns, hmerged, hlast, hjoins, hjoined, hruns'⟩ | ⟨-, hruns'⟩ :=
    p.merge.runs_concat (l := order) c
  · rw [runs_merge] at hruns hruns'
    have hzero : last.method = .fillWithZero := by simpa [Pass.merge] using hjoined
    obtain ⟨hle, hothers⟩ := hclear.follows hjoins last hlast hzero
    have hapart := hclear.apart last (List.mem_of_mem_getLast? hlast)
    have hlimit := hclear.limit_lt
    have hpos := c.type.size_pos
    intro r hr entry hentry d hd
    rw [hruns'] at hr
    obtain hr | hr := List.mem_append.mp hr
    · apply hold r _ entry hentry d hd
      rw [hruns]
      apply List.mem_append_left _ hr
    · obtain rfl := List.mem_singleton.mp hr
      obtain rfl := Option.some.inj (hentry.symm.trans (p.merge.merged_concat hmerged))
      have hsize : last.offset +
          (c.offset + (2 ^ 64 - last.offset) + c.type.sizeOf) % 2 ^ 64 = c.limit := by
        rw [Registration.limit] at hlimit ⊢
        omega
      have hrange : (p.merge.extend last c).Holds d ↔
          last.offset ≤ d.offset ∧ d.limit ≤ c.limit := by
        rw [Entry.Holds, Pass.merge]
        simp only
        rw [hsize]
      rw [hrange, List.mem_append, List.mem_singleton]
      obtain hd | hd := List.mem_append.mp hd
      · have hrun := h run (by rw [hruns]; exact List.mem_concat_self) last hmerged d hd
        constructor
        · rintro ⟨hfirst, hend⟩
          left
          by_contra hnot
          obtain ⟨r, e, hr, hdr, he, -⟩ := exists_run (p := p) hd
          have hmem := hr
          rw [hruns] at hr
          obtain hr | hr := List.mem_append.mp hr
          · obtain ⟨hd1, hd2⟩ := (h r hmem e he d hd).mpr hdr
            have hdpos := d.type.size_pos
            have hbetween := hothers e (p.merge.mem_dropLast_entries hruns hr he)
            rw [Registration.limit] at hd2 hend hbetween
            rw [Registration.limit] at hend
            omega
          · obtain rfl := List.mem_singleton.mp hr
            apply hnot hdr
        · intro hor
          obtain hmem | heq := hor
          · obtain ⟨hfirst, hend⟩ := hrun.mpr hmem
            use hfirst
            rw [Registration.limit] at hapart hend ⊢
            rw [Registration.limit]
            omega
          · rw [heq] at hd
            exact absurd hd hnew
      · obtain rfl := List.mem_singleton.mp hd
        exact ⟨fun _ => Or.inr rfl, fun _ => ⟨hle, Nat.le_refl _⟩⟩
  · rw [runs_merge] at hruns'
    intro r hr entry hentry d hd
    rw [hruns'] at hr
    obtain hr | hr := List.mem_append.mp hr
    · apply hold r hr entry hentry d hd
    · obtain rfl := List.mem_singleton.mp hr
      obtain rfl := Option.some.inj hentry
      rw [List.mem_singleton]
      obtain hd | hd := List.mem_append.mp hd
      · obtain ⟨r, e, hr, hdr, he, hmem⟩ := exists_run (p := p) hd
        have hholds := (h r hr e he d hd).mpr hdr
        constructor
        · intro hown
          exact absurd hown (not_holds_own (hclear.apart e hmem) hholds)
        · intro heq
          rw [heq] at hd
          exact absurd hd hnew
      · obtain rfl := List.mem_singleton.mp hd
        exact ⟨fun _ => rfl, fun _ => ⟨Nat.le_refl _, Nat.le_refl _⟩⟩

/-- Where the runs are held by their ranges, a field is held by one of them. -/
theorem HoldRuns.once (h : HoldRuns p order) (hnodup : order.Nodup) (hc : c ∈ order) :
  ∃ before entry after, p.merge.entries order = before ++ entry :: after ∧
    entry.Holds c ∧ (∀ e, e ∈ before ++ after → ¬ e.Holds c) ∧
    if c.type.isTrivial then entry.method = .fillWithZero
    else entry = ⟨c.offset, c.type.sizeOf, p.method c.type⟩
  := by
  obtain ⟨run, entry, hrun, hcr, hentry, -⟩ := exists_run (p := p) hc
  obtain ⟨rs, rs', hsplit⟩ := List.append_of_mem hrun
  have hmap := p.merge.map_entries (l := order)
  rw [runs_merge, hsplit, List.map_append, List.map_cons, hentry] at hmap
  obtain ⟨before, tail, hentries, hbefore, htail⟩ := List.map_eq_append_iff.mp hmap
  obtain ⟨e, after, rfl, he, hafter⟩ := List.map_eq_cons_iff.mp htail
  obtain rfl := Option.some.inj he
  have hflat := p.merge.flatten_runs order
  rw [runs_merge, hsplit] at hflat
  have hother : ∀ r, r ∈ rs ++ rs' → c ∉ r := by
    intro r hr hmem
    rw [← hflat] at hnodup
    have hperm : (rs ++ run :: rs').flatten.Perm (run ++ (rs ++ rs').flatten) := by
      rw [← List.flatten_cons]
      apply List.Perm.flatten List.perm_middle
    have happend := List.nodup_append.mp (hperm.nodup_iff.mp hnodup)
    apply happend.2.2 c hcr c (List.mem_flatten.mpr ⟨r, hr, hmem⟩) rfl
  refine ⟨before, e, after, hentries, (h run hrun e hentry c hc).mpr hcr, ?_, ?_⟩
  · intro e' he' hholds
    have hsome : some e' ∈ (rs ++ rs').map p.merge.merged := by
      rw [List.map_append, ← hbefore, ← hafter, ← List.map_append]
      apply List.mem_map_of_mem he'
    obtain ⟨r, hr, hmerged⟩ := List.mem_map.mp hsome
    have hmem : r ∈ trivialRuns order := by
      rw [hsplit]
      obtain hr | hr := List.mem_append.mp hr
      · apply List.mem_append_left _ hr
      · apply List.mem_append_right _ (List.mem_cons_of_mem _ hr)
    apply hother r hr
    apply (h r hmem e' hmerged c hc).mp hholds
  · obtain ⟨f, hf, -, hmethod⟩ := merged_first hentry
    rcases htrivial : c.type.isTrivial with _ | _
    · obtain hc' | rfl := trivial_of_mem_run hrun hcr
      · rw [htrivial] at hc'
        cases hc'
      · obtain rfl := Option.some.inj hentry
        simp [Pass.merge, htrivial]
    · have hftrivial : f.type.isTrivial = true := by
        obtain hf' | rfl := trivial_of_mem_run hrun (List.mem_of_mem_head? hf)
        · apply hf'
        · obtain rfl := List.mem_singleton.mp hcr
          apply htrivial
      rw [if_pos rfl, hmethod]
      simp [Pass.merge, hftrivial]

/-! ### One registration -/

namespace BaseSchema

variable {s s' : BaseSchema}

/-- `register_field` is the two steps one after the other. -/
theorem registerField_eq_steps (s : BaseSchema) (c : Registration) :
  s.registerField c.type c.name c.offset =
    match s.find c.name with
    | some field => (s, .ofField field)
    | none => s.registerLocked c
  := by
  rw [registerField, registerLocked]
  rcases hpointer : c.type.isPointer with _ | _ <;>
    rcases hschema : c.type.structSchema with _ | schema <;>
      rcases hfind : s.find c.name with _ | field <;>
        simp only [registerFieldAs, registerLockedAs, hfind]

/-- What is registered under a new name is added, also to the other two lists. -/
theorem registerLocked_adds (hnew : s.find c.name = none) :
  ∃ field s', s.registerLocked c = (s', .ofField field) ∧ s.Adds c field s' ∧
    s'.metadataDeletor = s.metadataDeletor ++ [field.metadata] ∧
    s'.metadataUpdator = s.metadataUpdator ++ [(field.offset, field.metadata)]
  := by
  have hadd : ∃ fieldType schema, s.registerLocked c =
      s.registerLockedAs c.type c.name fieldType c.offset schema := by
    rw [registerLocked]
    split <;> exact ⟨_, _, rfl⟩
  obtain ⟨fieldType, schema, heq⟩ := hadd
  have hlists : (s.place c.type c.offset).1.metadataDeletor = s.metadataDeletor ∧
      (s.place c.type c.offset).1.metadataUpdator = s.metadataUpdator := by
    rw [place]
    split <;> exact ⟨rfl, rfl⟩
  rw [heq, registerLockedAs, hnew]
  refine ⟨_, _, rfl, s.adds_place c fieldType schema, ?_, ?_⟩
  · rw [← hlists.1]
    rfl
  · rw [← hlists.2]
    rfl

/-- The lists of the schema are those of its fields, and the ranges hold the runs. -/
structure InStep (s : BaseSchema) : Prop where
  names : (s.fieldMap.map Field.name).Nodup
  creators : s.metadataCreator = s.fieldMap.map Field.metadata
  deletors : s.metadataDeletor = s.fieldMap.map Field.metadata
  updators : s.metadataUpdator = s.fieldMap.map fun field => (field.offset, field.metadata)
  entries : ∀ p : Pass, p.entries s = p.merge.entries (s.fieldMap.map Field.registration)
  runs : ∀ p, HoldRuns p (s.fieldMap.map Field.registration)

theorem InStep.nodup (h : s.InStep) :
  (s.fieldMap.map Field.registration).Nodup
  := by
  apply List.Nodup.of_map Registration.name
  rw [List.map_map]
  apply h.names

theorem InStep.eachOnce (h : s.InStep) :
  s.EachOnce
  := by
  use h.names, h.creators, h.deletors, h.updators
  intro p field hfield
  rw [Pass.HoldsOnce, h.entries]
  apply (h.runs p).once h.nodup (List.mem_map_of_mem hfield)

theorem inStep_new (initAlign initAlignSize : ℕ) :
  (new initAlign initAlignSize).InStep
  := by
  constructor
  · apply List.nodup_nil
  · rfl
  · rfl
  · rfl
  · intro p
    cases p <;> rfl
  · intro p run hrun
    cases hrun

/-- A field under a new name and with a clear place keeps the lists in step. -/
theorem InStep.adds {field : Field} (h : s.InStep) (hadds : s.Adds c field s')
    (hdeletor : s'.metadataDeletor = s.metadataDeletor ++ [field.metadata])
    (hupdator : s'.metadataUpdator = s.metadataUpdator ++ [(field.offset, field.metadata)])
    (hnew : s.find c.name = none) (hclear : ∀ p : Pass, Clear (p.entries s) (s.placed c)) :
  s'.InStep
  := by
  have hplaced : field.registration = s.placed c := by
    rw [Field.registration, placed, hadds.type, hadds.name, hadds.offset]
  have hfields : s'.fieldMap.map Field.registration =
      s.fieldMap.map Field.registration ++ [s.placed c] := by
    rw [hadds.fieldMap, List.map_append, List.map_singleton, hplaced]
  constructor
  · rw [hadds.fieldMap, List.map_append, List.map_singleton, List.nodup_append]
    refine ⟨h.names, List.nodup_singleton _, ?_⟩
    intro name hname name' hname' heq
    obtain ⟨f, hf, rfl⟩ := List.mem_map.mp hname
    obtain rfl := List.mem_singleton.mp hname'
    apply find_eq_none.mp hnew f hf
    rw [heq, hadds.name]
  · rw [hadds.metadataCreator, hadds.fieldMap, List.map_append, h.creators, ← hadds.type]
    rfl
  · rw [hdeletor, hadds.fieldMap, List.map_append, h.deletors]
    rfl
  · rw [hupdator, hadds.fieldMap, List.map_append, h.updators]
    rfl
  · intro p
    rw [hfields, Merge.entries_concat, ← h.entries p, ← hplaced]
    cases p with
    | construct => exact hadds.constructors
    | clear => exact hadds.cleaners
  · intro p
    rw [hfields]
    apply (h.runs p).concat
    · intro hmem
      obtain ⟨f, hf, heq⟩ := List.mem_map.mp hmem
      apply find_eq_none.mp hnew f hf
      apply congrArg Registration.name heq
    · rw [← h.entries p]
      apply hclear p

end BaseSchema

/-! ### All interleavings -/

/-- What a thread has got are fields of the schema. -/
def Caller.Knows (s : BaseSchema) (l : Caller) : Prop :=
  ∀ r, r ∈ l.returned →
    ∃ field, field ∈ s.fieldMap ∧ field.name = r.1.name ∧ r.2 = .ofField field

theorem Caller.Knows.mono {s s' : BaseSchema} {l : Caller} (h : l.Knows s)
    (hsub : s.fieldMap ⊆ s'.fieldMap) :
  l.Knows s'
  := by
  intro r hr
  obtain ⟨field, hfield, hname, hret⟩ := h r hr
  exact ⟨field, hsub hfield, hname, hret⟩

/-- A thread that gets one more field of the schema. -/
theorem Caller.Knows.concat {s : BaseSchema} {pending : Option Registration}
    {returned : List (Registration × FieldAccessor)} {field : Field}
    (h : Caller.Knows s ⟨pending, returned⟩) (hfield : field ∈ s.fieldMap)
    (hname : field.name = c.name) (pending' : Option Registration) :
  Caller.Knows s ⟨pending', returned ++ [(c, .ofField field)]⟩
  := by
  intro r hr
  obtain hr | hr := List.mem_append.mp hr
  · apply h r hr
  · obtain rfl := List.mem_singleton.mp hr
    exact ⟨field, hfield, hname, rfl⟩

variable {ι : Type*}

/-- A thread finds the name, or does not find it and waits, or registers the field. -/
theorem registrars_step {i : ι} {a : Act} {s s' : BaseSchema} {l l' : Caller}
    (h : (registrars ι).step i a s l = some (s', l')) :
  (∃ c field, a = .find c ∧ s.find c.name = some field ∧ s' = s ∧
      l' = ⟨l.pending, l.returned ++ [(c, .ofField field)]⟩) ∨
    (∃ c, a = .find c ∧ s.find c.name = none ∧ s' = s ∧ l' = ⟨some c, l.returned⟩) ∨
    ∃ c, a = .lock ∧ l.pending = some c ∧ s' = (s.registerLocked c).1 ∧
      l' = ⟨none, l.returned ++ [(c, (s.registerLocked c).2)]⟩
  := by
  obtain ⟨pending, returned⟩ := l
  cases a with
  | find c =>
      cases pending with
      | some c' => cases h
      | none =>
          simp only [registrars] at h
          rcases hfind : s.find c.name with _ | field
          · rw [hfind] at h
            obtain ⟨rfl, rfl⟩ := Prod.mk.inj (Option.some.inj h)
            right
            left
            exact ⟨c, rfl, hfind, rfl, rfl⟩
          · rw [hfind] at h
            obtain ⟨rfl, rfl⟩ := Prod.mk.inj (Option.some.inj h)
            left
            exact ⟨c, field, rfl, hfind, rfl, rfl⟩
  | lock =>
      cases pending with
      | none => cases h
      | some c =>
          obtain ⟨rfl, rfl⟩ := Prod.mk.inj (Option.some.inj h)
          right
          right
          exact ⟨c, rfl, rfl, rfl, rfl⟩

/-- A step that is undisturbed keeps the lists in step and what is known. -/
theorem undisturbed_step {i : ι} {a : Act} {s s' : BaseSchema} {l l' : Caller}
    (hs : s.InStep) (hl : l.Knows s) (hquiet : Undisturbed a s l)
    (h : (registrars ι).step i a s l = some (s', l')) :
  s'.InStep ∧ s.fieldMap ⊆ s'.fieldMap ∧ l'.Knows s'
  := by
  obtain ⟨c, field, rfl, hfind, rfl, rfl⟩ | ⟨c, rfl, -, rfl, rfl⟩ | ⟨c, rfl, hc, rfl, rfl⟩ :=
    registrars_step h
  · obtain ⟨hmem, hname⟩ := BaseSchema.mem_of_find hfind
    use hs, List.Subset.refl _
    apply Caller.Knows.concat hl hmem hname
  · exact ⟨hs, List.Subset.refl _, hl⟩
  · have hnew := hquiet.1 rfl c hc
    obtain ⟨hconstruct, hclean⟩ := hquiet.2 rfl c hc
    obtain ⟨field, s', heq, hadds, hdeletor, hupdator⟩ := BaseSchema.registerLocked_adds hnew
    have hsub : s.fieldMap ⊆ s'.fieldMap := by
      rw [hadds.fieldMap]
      apply List.subset_append_left
    rw [heq]
    refine ⟨?_, hsub, ?_⟩
    · apply hs.adds hadds hdeletor hupdator hnew
      intro p
      cases p with
      | construct => exact hconstruct
      | clear => exact hclean
    · apply Caller.Knows.concat (hl.mono hsub) _ hadds.name
      rw [hadds.fieldMap]
      apply List.mem_concat_self

/-- The outline of threads that are undisturbed. -/
def layingOut (ι : Type*) :
    Threads.Outline ((registrars ι).restrict fun _ a s l => Undisturbed a s l) where
  shared := BaseSchema.InStep
  own _ s l := l.Knows s
  apart _ _ := True
  symm _ := trivial
  step := by
    intro i a s l s' l' hs hl hstep
    simp only [Threads.restrict, Option.ite_none_right_eq_some] at hstep
    obtain ⟨hs', -, hl'⟩ := undisturbed_step hs hl hstep.1 hstep.2
    exact ⟨hs', hl'⟩
  free := by
    intro i a s l s' l' j k hs hl hstep _ hk _
    simp only [Threads.restrict, Option.ite_none_right_eq_some] at hstep
    obtain ⟨-, hsub, -⟩ := undisturbed_step hs hl hstep.1 hstep.2
    exact ⟨hk.mono hsub, trivial⟩

theorem layingOut_start (ι : Type*) [DecidableEq ι] (initAlign initAlignSize : ℕ) :
  (layingOut ι).Holds (unregistered ι initAlign initAlignSize)
  := by
  constructor
  · apply BaseSchema.inStep_new
  · intro i r hr
    cases hr
  · intro i j _
    trivial

theorem LaidOutOnce.of_holds {c : Threads.Config ι BaseSchema Caller}
    (h : (layingOut ι).Holds c) :
  LaidOutOnce c
  := by
  have hs : c.shared.InStep := h.shared
  constructor
  · apply hs.eachOnce
  · rw [hs.creators, List.length_map, BaseSchema.getFieldSize]
  · rw [hs.deletors, List.length_map, BaseSchema.getFieldSize]
  · rw [hs.updators, List.length_map, BaseSchema.getFieldSize]
  · apply h.own
  · intro i r hr j r' hr' hnames
    obtain ⟨field, hfield, hname, hret⟩ := h.own i r hr
    obtain ⟨field', hfield', hname', hret'⟩ := h.own j r' hr'
    have heq := List.inj_on_of_nodup_map hs.names hfield hfield'
      (by rw [hname, hnames, hname'])
    rw [hret, hret', heq]

/-- In a run of which no registration is disturbed and every place is clear, every name is laid
out once in each state that is reached. -/
theorem laidOutOnce_of_undisturbed [DecidableEq ι] {initAlign initAlignSize : ℕ}
    {es : List (ι × Act)}
    (h : (registrars ι).machine.Steps
      (fun c e => Undisturbed e.2 c.shared (c.locals e.1))
      (unregistered ι initAlign initAlignSize) es) :
  (registrars ι).machine.Along LaidOutOnce (unregistered ι initAlign initAlignSize) es
  := by
  intro fs c hfs hrun
  apply LaidOutOnce.of_holds
  apply (layingOut ι).along_of_steps (layingOut_start ι initAlign initAlignSize) h fs c hfs hrun

/-- Two threads register a field each, the second one looking for its name before the first one has
the lock; then each looks for the field of the other. -/
theorem laidOutOnce_of_undisturbed_overlapping :
  (registrars Bool).machine.Along LaidOutOnce (unregistered Bool 8 8)
    [(true, .find ⟨int32, "id", npos⟩), (false, .find ⟨pooledString, "name", npos⟩), (true, .lock),
      (false, .lock), (true, .find ⟨pooledString, "name", npos⟩),
      (false, .find ⟨int32, "id", npos⟩)]
  := laidOutOnce_of_undisturbed (by decide +kernel)

/-- Two threads look for a name before either registers it, and both register it. -/
theorem bothMiss_not_laidOutOnce :
  ∃ c, (registrars Bool).machine.run (unregistered Bool 8 8)
      [(true, .find ⟨int32, "id", npos⟩), (false, .find ⟨int32, "id", npos⟩), (true, .lock),
        (false, .lock)] = some c ∧
    (∀ i, (c.locals i).pending = none) ∧ ¬ LaidOutOnce c
  := by
  refine ⟨_, rfl, ?_, ?_⟩
  · decide +kernel
  · intro h
    have hsize := h.creators
    revert hsize
    decide +kernel

/-! ### Fields without offsets -/

/-- A field that is registered now has not been registered since it was looked for; it has no
offset, and no sum wraps around. -/
def Automatic (a : Act) (s : BaseSchema) (l : Caller) : Prop :=
  Fresh a s l ∧ (a = .lock → ∀ c, c ∈ l.pending → c.offset = npos ∧ s.SumsFit c)

instance Automatic.decidable (a : Act) (s : BaseSchema) (l : Caller) :
    Decidable (Automatic a s l) := by
  unfold Automatic Fresh
  infer_instance

/-- The ranges of fields that are in order are so, and end before the place behind the fields. -/
theorem clear_of_increasing
    (hinc : (order ++ [c]).Pairwise fun c c' => c.limit ≤ c'.offset) (hlimit : c.limit < 2 ^ 64) :
  Clear (p.merge.entries order) c
  := by
  obtain ⟨horder, -, hbehind⟩ := List.pairwise_append.mp hinc
  have hbefore : ∀ d, d ∈ order → d.limit ≤ c.offset :=
    fun d hd => hbehind d hd c List.mem_cons_self
  have hlt : c.offset < 2 ^ 64 := Nat.lt_of_le_of_lt (Nat.le_add_right _ _) hlimit
  have hapart := apart_of_increasing horder fun d hd => Nat.lt_of_le_of_lt (hbefore d hd) hlt
  have hlow := (regular_of_increasing horder).firstLowest
  constructor
  · apply hlimit
  · intro e he
    obtain ⟨run, f, g, hspans⟩ := spans_of_entry hlow hapart he
    right
    rw [hspans.limit]
    apply hbefore g hspans.last_mem
  · intro _ last hlast _
    obtain ⟨es, hes⟩ := List.getLast?_eq_some_iff.mp hlast
    have hmap := p.merge.map_entries (l := order)
    rw [runs_merge, hes, List.map_append, List.map_singleton] at hmap
    obtain ⟨rs, rs', hruns, hrs, hrs'⟩ := List.map_eq_append_iff.mp hmap.symm
    obtain ⟨run, tail, rfl, hrun, hnil⟩ := List.map_eq_cons_iff.mp hrs'
    obtain rfl := List.map_eq_nil_iff.mp hnil
    have hmem : ∀ r, r ∈ rs ++ [run] → r ∈ trivialRuns order := by
      intro r hr
      rw [hruns]
      apply hr
    obtain ⟨f, g, hspans⟩ := spans_of_merged hlow hapart (hmem run List.mem_concat_self) hrun
    constructor
    · rw [hspans.offset]
      apply Nat.le_trans _ (hbefore f hspans.first_mem)
      apply Nat.le_add_right
    · intro e he
      left
      rw [hes, List.dropLast_concat] at he
      have hsome := List.mem_map_of_mem (f := some) he
      rw [← hrs] at hsome
      obtain ⟨r, hr, hmerged⟩ := List.mem_map.mp hsome
      obtain ⟨f', g', hspans'⟩ :=
        spans_of_merged hlow hapart (hmem r (List.mem_append_left _ hr)) hmerged
      have hflat := p.merge.flatten_runs order
      rw [runs_merge, hruns, List.flatten_append, List.flatten_singleton] at hflat
      rw [← hflat, List.pairwise_append] at horder
      rw [hspans'.limit, hspans.offset]
      apply horder.2.2 g' (List.mem_flatten.mpr ⟨r, hr, List.mem_of_mem_getLast? hspans'.last⟩)
      apply List.mem_of_mem_head? hspans.first

/-- A place behind the fields is clear. -/
theorem BaseSchema.Packed.clear {s : BaseSchema} (hs : s.InStep) (h : s.Packed)
    (hnew : s.find c.name = none) (hauto : c.offset = npos) (hfit : s.SumsFit c) (p : Pass) :
  Clear (p.entries s) (s.placed c)
  := by
  obtain ⟨field, s', -, hadds, -, -⟩ := BaseSchema.registerLocked_adds hnew
  have hplaced : field.registration = s.placed c := by
    rw [Field.registration, BaseSchema.placed, hadds.type, hadds.name, hadds.offset]
  have hpacked := h.adds hadds hauto hfit hnew
  have hmem : field ∈ s'.fieldMap := by
    rw [hadds.fieldMap]
    apply List.mem_concat_self
  have hend := hpacked.ends field hmem
  have hlt := hpacked.unaligned_lt
  rw [hs.entries p, ← hplaced]
  apply clear_of_increasing
  · have hinc := hpacked.increasing
    rw [hadds.fieldMap] at hinc
    rw [← List.map_singleton, ← List.map_append, List.pairwise_map]
    apply hinc
  · rw [Registration.limit]
    simp only [Field.registration]
    omega

/-- A place without an offset is clear. -/
theorem Automatic.undisturbed {a : Act} {s : BaseSchema} {l : Caller} (h : Automatic a s l)
    (hs : s.InStep) (hpacked : s.Packed) :
  Undisturbed a s l
  := by
  use h.1
  intro ha c hc
  obtain ⟨hauto, hfit⟩ := h.2 ha c hc
  have hnew := h.1 ha c hc
  exact ⟨hpacked.clear hs hnew hauto hfit .construct, hpacked.clear hs hnew hauto hfit .clear⟩

/-- Fields without offsets are packed, whichever thread registers them. -/
theorem automatic_step {i : ι} {a : Act} {s s' : BaseSchema} {l l' : Caller}
    (h : Automatic a s l) (hpacked : s.Packed)
    (hstep : (registrars ι).step i a s l = some (s', l')) :
  s'.Packed
  := by
  obtain ⟨c, field, rfl, -, rfl, -⟩ | ⟨c, rfl, -, rfl, -⟩ | ⟨c, rfl, hc, rfl, -⟩ :=
    registrars_step hstep
  · apply hpacked
  · apply hpacked
  · have hnew := h.1 rfl c hc
    obtain ⟨hauto, hfit⟩ := h.2 rfl c hc
    obtain ⟨field, s', heq, hadds, -, -⟩ := BaseSchema.registerLocked_adds hnew
    rw [heq]
    apply hpacked.adds hadds hauto hfit hnew

/-- The outline of threads that register fields without offsets. -/
def packing (ι : Type*) :
    Threads.Outline ((registrars ι).restrict fun _ a s l => Automatic a s l) where
  shared s := s.InStep ∧ s.Packed
  own _ s l := l.Knows s
  apart _ _ := True
  symm _ := trivial
  step := by
    rintro i a s l s' l' ⟨hs, hpacked⟩ hl hstep
    simp only [Threads.restrict, Option.ite_none_right_eq_some] at hstep
    obtain ⟨hs', -, hl'⟩ :=
      undisturbed_step hs hl (hstep.1.undisturbed hs hpacked) hstep.2
    exact ⟨⟨hs', automatic_step hstep.1 hpacked hstep.2⟩, hl'⟩
  free := by
    rintro i a s l s' l' j k ⟨hs, hpacked⟩ hl hstep - hk -
    simp only [Threads.restrict, Option.ite_none_right_eq_some] at hstep
    obtain ⟨-, hsub, -⟩ :=
      undisturbed_step hs hl (hstep.1.undisturbed hs hpacked) hstep.2
    exact ⟨hk.mono hsub, trivial⟩

/-- In a run in which fields without offsets are registered, each under a name that no other
thread has registered in the meantime, every name is laid out once in each state that is
reached, and the fields do not overlap. -/
theorem laidOutOnce_of_fresh [DecidableEq ι] {es : List (ι × Act)}
    (h : (registrars ι).machine.Steps (fun c e => Automatic e.2 c.shared (c.locals e.1))
      (unregistered ι alignofMeta sizeofMeta) es) :
  (registrars ι).machine.Along (fun c => LaidOutOnce c ∧ c.shared.Sound)
    (unregistered ι alignofMeta sizeofMeta) es
  := by
  intro fs c hfs hrun
  have hstart := layingOut_start ι alignofMeta sizeofMeta
  have hholds := (packing ι).along_of_steps
    ⟨⟨hstart.shared, BaseSchema.packed_newSchema⟩, hstart.own, hstart.apart⟩ h fs c hfs hrun
  obtain ⟨hs, hpacked⟩ := hholds.shared
  constructor
  · apply LaidOutOnce.of_holds ⟨hs, hholds.own, hholds.apart⟩
  · apply hpacked.sound

end DynamicStruct
