import CppFreshman.Schema.Zeroing
import Mathlib.Data.List.Nodup
import Mathlib.Data.List.Perm.Subperm

/-!
# Members of a struct

`MEMBER` registers a member of a struct with its offset, and the members may be registered in any
order and not all of them.  `construct_all` and `clear_all` are then safe exactly if the order of
the registrations is regular (`safe_iff_regular`).
-/

namespace DynamicStruct

open BaseSchema (Registration)

/-- The layout of a struct: its size, its alignment and its members, which do not overlap. -/
structure Layout where
  size : ℕ
  align : ℕ
  members : List Registration
  names : (members.map Registration.name).Nodup
  apart : ∀ m, m ∈ members → ∀ m', m' ∈ members → m ≠ m' →
    m.limit ≤ m'.offset ∨ m'.limit ≤ m.offset
  limit_le : ∀ m, m ∈ members → m.limit ≤ size
  size_lt : size < 2 ^ 64

namespace Layout

variable (l : Layout)

/-- The schema after the members have been registered in the given order: `MEMBER_BEGIN`, then
`MEMBER` for each of them, and `MEMBER_END`. -/
def schema (order : List Registration) : BaseSchema :=
  (newSchema.register order).setSizeAndAlign l.size l.align

/-- The members that are not trivial or not registered. -/
def others (order : List Registration) : List Registration :=
  l.members.filter fun m => m.type.isTrivial = false ∨ m ∉ order

end Layout

/-- The size of a `memset` that is extended to a field is computed without wrapping around. -/
def Pass.NoWrap (p : Pass) (s : BaseSchema) (c : Registration) : Prop :=
  c.type.isTrivial = true → s.find c.name = none → ∀ last, (p.entries s).getLast? = some last →
    last.method = .fillWithZero →
      last.offset ≤ c.offset ∧ c.offset - last.offset + c.type.sizeOf < 2 ^ 64

namespace Layout

variable (l : Layout)

/-- A pass writes only inside the struct and fills no byte with zero that is of a member that is
not trivial or not registered; it prepares the registered members; and no size wraps around. -/
structure Safe (order : List Registration) (p : Pass) : Prop where
  inside : ∀ entry, entry ∈ p.entries (l.schema order) → ∀ x, entry.Covers x → x < l.size
  spares : ∀ entry, entry ∈ p.entries (l.schema order) → entry.method = .fillWithZero →
    ∀ m, m ∈ l.members → m.type.isTrivial = false ∨ m ∉ order →
      ∀ x, entry.Covers x → ¬ m.Has x
  prepares : ∀ m, m ∈ order → p.Prepares (l.schema order) m
  noWrap : BaseSchema.registering.Steps p.NoWrap newSchema order

variable {l}

theorem apart_order {order : List Registration} (h : order.Subperm l.members) :
  Apart order
  := by
  have hsub := h.subset
  constructor
  · obtain ⟨order', hperm, hsublist⟩ := h
    apply hperm.nodup_iff.mp
    have hnodup : l.members.Nodup := List.Nodup.of_map _ l.names
    apply hnodup.sublist hsublist
  · intro c hc c' hc' hne
    apply l.apart c (hsub hc) c' (hsub hc') hne
  · intro c hc
    apply Nat.lt_of_le_of_lt (l.limit_le c (hsub hc)) l.size_lt

theorem names_order {order : List Registration} (h : order.Subperm l.members) :
  (order.map Registration.name).Nodup
  := by
  obtain ⟨order', hperm, hsublist⟩ := h
  apply (hperm.map _).nodup_iff.mp
  apply l.names.sublist (hsublist.map _)

end Layout

namespace BaseSchema

/-- Fields with offsets and different names are registered as they are. -/
theorem fieldMap_register {order : List Registration}
    (hnames : (order.map Registration.name).Nodup)
    (hoffsets : ∀ c, c ∈ order → c.offset ≠ npos) :
  (newSchema.register order).fieldMap.map Field.registration = order
  := by
  induction order using List.reverseRecOn with
  | nil => rfl
  | append_singleton order c ih =>
      rw [List.map_append, List.nodup_append] at hnames
      have hfields := ih hnames.1 fun c hc => hoffsets c (List.mem_append_left _ hc)
      rw [register_concat]
      obtain ⟨field, hfind, -⟩ | ⟨-, field, s', hadds, heq⟩ :=
        (newSchema.register order).registerField_cases c
      · obtain ⟨hmem, hname⟩ := mem_of_find hfind
        have hreg := List.mem_map_of_mem (f := Field.registration) hmem
        rw [hfields] at hreg
        have hne := hnames.2.2 _ (List.mem_map_of_mem hreg) c.name (by simp)
        exact absurd hname hne
      · have hplace : (newSchema.register order).place c.type c.offset =
            (newSchema.register order, c.offset) := by
          rw [place, if_neg (hoffsets c List.mem_concat_self)]
        have hfield : field.registration = c := by
          rw [Field.registration, hadds.type, hadds.name, hadds.offset, hplace]
        rw [heq, hadds.fieldMap, List.map_append, hfields, List.map_singleton, hfield]

end BaseSchema

/-- The sizes do not wrap around exactly if the first field of each run is the lowest. -/
theorem steps_noWrap_iff (p : Pass) {order : List Registration}
    (hnames : (order.map Registration.name).Nodup)
    (hlimit : ∀ c, c ∈ order → c.limit < 2 ^ 64) :
  BaseSchema.registering.Steps p.NoWrap newSchema order ↔ FirstLowest order
  := by
  induction order using List.reverseRecOn with
  | nil =>
      constructor
      · rintro - run hrun
        cases hrun
      · intro _
        apply Machine.steps_nil
  | append_singleton order c ih =>
      have hoffsets : ∀ c', c' ∈ order ++ [c] → c'.offset ≠ npos := by
        intro c' hc'
        have hlt := hlimit c' hc'
        have hpos := c'.type.size_pos
        rw [Registration.limit] at hlt
        rw [npos]
        omega
      have hc := hlimit c List.mem_concat_self
      rw [List.map_append, List.nodup_append] at hnames
      have hfields := BaseSchema.fieldMap_register hnames.1
        fun c hc => hoffsets c (List.mem_append_left _ hc)
      have hfind : (newSchema.register order).find c.name = none := by
        rw [BaseSchema.find_eq_none]
        intro field hfield hname
        have hreg := List.mem_map_of_mem (f := Field.registration) hfield
        rw [hfields] at hreg
        apply hnames.2.2 _ (List.mem_map_of_mem hreg) c.name (by simp) hname
      have hentries := p.entries_eq (BaseSchema.lists_register alignofMeta sizeofMeta order)
      change p.entries (newSchema.register order) = p.merge.entries
        ((newSchema.register order).fieldMap.map Field.registration) at hentries
      rw [hfields] at hentries
      rw [Machine.steps_concat_iff (BaseSchema.registering_run newSchema order),
        ih hnames.1 fun c hc => hlimit c (List.mem_append_left _ hc), Pass.NoWrap, hentries]
      obtain ⟨init, run, last, hruns, hmerged, hlast, hjoins, hjoined, hruns'⟩ |
        ⟨hjoined, hruns'⟩ := p.merge.runs_concat (l := order) c
      · obtain ⟨f, hf, hoffset, -⟩ := merged_first hmerged
        have hf' : (run ++ [c]).head? = some f := by
          rw [List.head?_append, hf]
          rfl
        rw [runs_merge] at hruns hruns'
        rw [FirstLowest, FirstLowest, hruns, hruns']
        constructor
        · rintro ⟨hlow, hwrap⟩ r hr g hg d hd
          obtain hr | hr := List.mem_append.mp hr
          · apply hlow r (List.mem_append_left _ hr) g hg d hd
          · obtain rfl := List.mem_singleton.mp hr
            obtain rfl := Option.some.inj (hf'.symm.trans hg)
            obtain hd | hd := List.mem_append.mp hd
            · apply hlow run (by simp) f hf d hd
            · obtain rfl := List.mem_singleton.mp hd
              rw [← hoffset]
              apply (hwrap hjoins hfind last hlast (by simpa [Pass.merge] using hjoined)).1
        · intro hlow
          have hlowlast := hlow (run ++ [c]) (by simp) f hf'
          constructor
          · intro r hr g hg d hd
            obtain hr | hr := List.mem_append.mp hr
            · apply hlow r (List.mem_append_left _ hr) g hg d hd
            · obtain rfl := List.mem_singleton.mp hr
              obtain rfl := Option.some.inj (hf.symm.trans hg)
              apply hlowlast d (List.mem_append_left _ hd)
          · rintro - - last' hlast' -
            obtain rfl := Option.some.inj (hlast.symm.trans hlast')
            have hle := hlowlast c List.mem_concat_self
            rw [Registration.limit] at hc
            omega
      · rw [runs_merge] at hruns'
        rw [FirstLowest, FirstLowest, hruns']
        constructor
        · rintro ⟨hlow, -⟩ r hr g hg d hd
          obtain hr | hr := List.mem_append.mp hr
          · apply hlow r hr g hg d hd
          · obtain rfl := List.mem_singleton.mp hr
            obtain rfl := Option.some.inj hg
            rw [List.mem_singleton.mp hd]
        · intro hlow
          constructor
          · intro r hr
            apply hlow r (List.mem_append_left _ hr)
          · intro htrivial _ last hlast hzero
            have := hjoined htrivial last hlast
            simp [Pass.merge, hzero] at this

namespace Layout

variable {l : Layout}

theorem mem_others {order : List Registration} {m : Registration} :
  m ∈ l.others order ↔ m ∈ l.members ∧ (m.type.isTrivial = false ∨ m ∉ order)
  := by
  simp [others]

theorem entries_schema {order : List Registration} (hsub : order.Subperm l.members) (p : Pass) :
  p.entries (l.schema order) = p.merge.entries order
  := by
  have hfields := BaseSchema.fieldMap_register (names_order hsub) <| by
    intro c hc
    have hlt := (apart_order hsub).limit_lt c hc
    have hpos := c.type.size_pos
    rw [Registration.limit] at hlt
    rw [npos]
    omega
  have hentries := p.entries_eq (BaseSchema.lists_register alignofMeta sizeofMeta order)
  change p.entries (newSchema.register order) = p.merge.entries
    ((newSchema.register order).fieldMap.map Field.registration) at hentries
  rw [hfields] at hentries
  rw [← hentries]
  cases p <;> rfl

/-- In a regular order a pass is safe. -/
theorem safe_of_regular {order : List Registration} (hsub : order.Subperm l.members)
    (h : Regular order (l.others order)) (p : Pass) :
  l.Safe order p
  := by
  have hapart := apart_order hsub
  have hentries := entries_schema hsub p
  have hright : Right p order (p.entries (l.schema order)) := by
    rw [hentries]
    apply right_of_regular h hapart
    intro c hc htrivial
    apply mem_others.mpr ⟨hsub.subset hc, Or.inl htrivial⟩
  constructor
  · intro entry hentry x hx
    rw [hentries] at hentry
    obtain ⟨run, f, g, hspans⟩ := spans_of_entry h.firstLowest hapart hentry
    have := l.limit_le g (hsub.subset hspans.last_mem)
    rw [hspans.covers_iff] at hx
    omega
  · intro entry hentry hzero m hm hother x hx
    rw [hentries] at hentry
    obtain ⟨run, f, g, hspans⟩ := spans_of_entry h.firstLowest hapart hentry
    apply hspans.spares hzero hother _ _ hx
    · intro c hc hne
      apply l.apart c (hsub.subset hc) m hm hne
    · apply h.noneBetween run hspans.run_mem f hspans.first g hspans.last
      apply mem_others.mpr ⟨hm, hother⟩
  · intro m hm β effect ptr pool memory i hi
    rw [p.calls_eq]
    apply hright.bytesAfter_eq hm effect ptr pool memory hi
  · apply (steps_noWrap_iff p (names_order hsub) hapart.limit_lt).mpr h.firstLowest

/-- If a pass is safe the order is regular. -/
theorem regular_of_safe {order : List Registration} (hsub : order.Subperm l.members) {p : Pass}
    (h : l.Safe order p) :
  Regular order (l.others order)
  := by
  have hapart := apart_order hsub
  have hentries := entries_schema hsub p
  have hlow := (steps_noWrap_iff p (names_order hsub) hapart.limit_lt).mp h.noWrap
  constructor
  · apply hlow
  · rintro run hrun f hf g hg m hm ⟨hfm, hmg⟩
    obtain ⟨hm, hother⟩ := mem_others.mp hm
    obtain ⟨f', g', entry, hentry, hspans⟩ := spans_of_run (p := p) hlow hapart hrun
    obtain rfl := Option.some.inj (hf.symm.trans hspans.first)
    obtain rfl := Option.some.inj (hg.symm.trans hspans.last)
    have hzero : entry.method = .fillWithZero := by
      by_contra hzero
      obtain ⟨rfl, -⟩ := hspans.eq_of_not_zero hzero
      omega
    rw [← hentries] at hentry
    apply h.spares entry hentry hzero m hm hother m.offset
    · rw [hspans.covers_iff, Registration.limit]
      omega
    · have := m.type.size_pos
      rw [Registration.Has, Registration.limit]
      omega
  · intro c hc htrivial
    have hpos := c.type.size_pos
    have hbyte := h.prepares c hc Bool ⟨false, fun _ _ _ => true⟩ 0 none (fun _ => true) 0 hpos
    rw [Pass.byteOf, if_pos htrivial, p.calls_eq, bytesAfter_entries] at hbyte
    have hcover : ∃ entry, entry ∈ p.entries (l.schema order) ∧ entry.Covers c.offset := by
      by_contra hnone
      rw [writeAll_of_untouched] at hbyte
      · cases hbyte
      · intro w hw hcovers
        obtain ⟨entry, hentry, rfl⟩ := List.mem_map.mp hw
        rw [Nat.add_zero, covers_write] at hcovers
        apply hnone ⟨entry, hentry, hcovers⟩
    obtain ⟨entry, hentry, hcovers⟩ := hcover
    rw [hentries] at hentry
    obtain ⟨run, f, g, hspans⟩ := spans_of_entry hlow hapart hentry
    refine ⟨run, hspans.run_mem, f, hspans.first, g, hspans.last, ?_⟩
    obtain ⟨hle, hlt⟩ := hspans.covers_iff.mp hcovers
    refine ⟨hle, ?_⟩
    rcases eq_or_ne c g with rfl | hne
    · apply Nat.le_refl
    · have := hapart.apart c hc g hspans.last_mem hne
      rw [Registration.limit, Registration.limit] at this
      rw [Registration.limit] at hlt
      omega

/-- `construct_all` and `clear_all` are safe for members that are registered in some order exactly
if in each run of trivial members the first has the lowest offset, no member that is not trivial
or not registered lies between the first and the last of a run, and every registered trivial
member does for some run. -/
theorem safe_iff_regular (l : Layout) {order : List Registration}
    (hsub : order.Subperm l.members) :
  (∀ p, l.Safe order p) ↔ Regular order (l.others order)
  := by
  constructor
  · intro h
    apply regular_of_safe hsub (h .construct)
  · intro h p
    apply safe_of_regular hsub h p

end Layout

/-- Three numbers. -/
def threeNumbers : Layout where
  size := 12
  align := 4
  members := [⟨int32, "a", 0⟩, ⟨int32, "b", 4⟩, ⟨int32, "c", 8⟩]
  names := by decide
  apart := by decide
  limit_le := by decide
  size_lt := by decide

theorem Layout.safe_iff_regular_twoNumbers :
  (∀ p, threeNumbers.Safe [⟨int32, "a", 0⟩, ⟨int32, "b", 4⟩] p) ↔
    Regular [⟨int32, "a", 0⟩, ⟨int32, "b", 4⟩]
      (threeNumbers.others [⟨int32, "a", 0⟩, ⟨int32, "b", 4⟩])
  := safe_iff_regular threeNumbers (by decide)

/-- If the last number is registered before the first, the `memset` for them is as long as the
address space but for four bytes. -/
theorem lastBeforeFirst_not_safe :
  ¬ threeNumbers.Safe [⟨int32, "c", 8⟩, ⟨int32, "a", 0⟩] .construct
  := by
  intro h
  have hentry : ⟨8, 2 ^ 64 - 4, .fillWithZero⟩ ∈ Pass.construct.entries
      (threeNumbers.schema [⟨int32, "c", 8⟩, ⟨int32, "a", 0⟩]) := by
    decide +kernel
  have hlt := h.inside _ hentry 12 ⟨by decide, by decide⟩
  revert hlt
  decide

end DynamicStruct
