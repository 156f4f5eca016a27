import CppFreshman.Schema.Effects
import CppFreshman.Schema.Layout

/-!
# Filling runs of trivial fields with zeroes

Trivial fields that are registered one after the other share one `memset`, which begins where the
first of them does and ends where the last one ends.  It is right if no other field lies in
between, and if every trivial field is in the range of a run (`right_of_regular`).

Fields without explicit offsets are laid out in order, so it is right for them
(`zeroFill_eq_each`).  For fields with offsets it depends on the order of the registrations
(`safe_iff_regular`).
-/

namespace DynamicStruct

open BaseSchema (Registration)

/-- The runs of trivial fields; any other field is a run of its own. -/
def trivialRuns (order : List Registration) : List (List Registration) :=
  order.splitBy fun c c' => c.type.isTrivial && c'.type.isTrivial

/-- The fields do not overlap, and their ends fit a word. -/
structure Apart (order : List Registration) : Prop where
  nodup : order.Nodup
  apart : ∀ c, c ∈ order → ∀ c', c' ∈ order → c ≠ c' →
    c.limit ≤ c'.offset ∨ c'.limit ≤ c.offset
  limit_lt : ∀ c, c ∈ order → c.limit < 2 ^ 64

/-- The first field of a run has the lowest offset of the run. -/
def FirstLowest (order : List Registration) : Prop :=
  ∀ run, run ∈ trivialRuns order → ∀ f, run.head? = some f → ∀ c, c ∈ run → f.offset ≤ c.offset

/-- No field of `others` lies between the first and the last field of a run. -/
def NoneBetween (order others : List Registration) : Prop :=
  ∀ run, run ∈ trivialRuns order → ∀ f, run.head? = some f → ∀ g, run.getLast? = some g →
    ∀ m, m ∈ others → ¬ (f.offset < m.offset ∧ m.offset < g.offset)

/-- Every trivial field lies between the first and the last field of a run. -/
def AllBetween (order : List Registration) : Prop :=
  ∀ c, c ∈ order → c.type.isTrivial = true → ∃ run, run ∈ trivialRuns order ∧
    ∃ f, run.head? = some f ∧ ∃ g, run.getLast? = some g ∧
      f.offset ≤ c.offset ∧ c.offset ≤ g.offset

variable {p : Pass} {order run : List Registration} {c f g m : Registration} {entry : Entry}

theorem runs_merge (p : Pass) (order : List Registration) :
  p.merge.runs order = trivialRuns order
  := rfl

theorem mem_of_mem_run (hrun : run ∈ trivialRuns order) (hc : c ∈ run) :
  c ∈ order
  := by
  rw [← Pass.construct.merge.flatten_runs order]
  apply List.mem_flatten.mpr ⟨run, hrun, hc⟩

theorem trivial_of_mem_run (hrun : run ∈ trivialRuns order) (hc : c ∈ run) :
  c.type.isTrivial = true ∨ run = [c]
  := Pass.construct.merge.joins_of_mem_runs hrun hc

/-- The entry of a run begins where the first field does. -/
theorem merged_first (h : p.merge.merged run = some entry) :
  ∃ f, run.head? = some f ∧ entry.offset = f.offset ∧
    entry.method = (p.merge.entry f).method
  := by
  rcases run with _ | ⟨f, run⟩
  · cases h
  · use f, rfl
    induction run using List.reverseRecOn generalizing entry with
    | nil =>
        obtain rfl := Option.some.inj h
        exact ⟨rfl, rfl⟩
    | append_singleton run c ih =>
        obtain ⟨b, hb⟩ : ∃ b, p.merge.merged (f :: run) = some b := ⟨_, rfl⟩
        obtain rfl := Option.some.inj (h.symm.trans (p.merge.merged_concat hb))
        apply ih hb

/-- The entry of a run ends where the last field does, if the first field is the lowest. -/
theorem merged_last (h : p.merge.merged run = some entry) (hf : run.head? = some f)
    (hlow : ∀ c, c ∈ run → f.offset ≤ c.offset) (hlimit : ∀ c, c ∈ run → c.limit < 2 ^ 64) :
  ∃ g, run.getLast? = some g ∧ entry.offset + entry.size = g.limit
  := by
  rcases run with _ | ⟨f', run⟩
  · cases h
  · obtain rfl : f' = f := by simpa using hf
    induction run using List.reverseRecOn generalizing entry with
    | nil =>
        obtain rfl := Option.some.inj h
        exact ⟨f', rfl, rfl⟩
    | append_singleton run c _ =>
        use c
        constructor
        · rw [← List.cons_append, List.getLast?_concat]
        · obtain ⟨b, hb⟩ : ∃ b, p.merge.merged (f' :: run) = some b := ⟨_, rfl⟩
          obtain ⟨_, hfirst, hoffset, -⟩ := merged_first hb
          obtain rfl := Option.some.inj hfirst
          obtain rfl := Option.some.inj (h.symm.trans (p.merge.merged_concat hb))
          have hle := hlow c (by simp)
          have hlt := hlimit c (by simp)
          rw [Registration.limit] at hlt ⊢
          simp only [Pass.merge] at hoffset ⊢
          omega

/-- The entry is that of the run from `f` to `g`. -/
structure Spans (p : Pass) (order run : List Registration) (f g : Registration) (entry : Entry) :
    Prop where
  run_mem : run ∈ trivialRuns order
  first : run.head? = some f
  last : run.getLast? = some g
  offset : entry.offset = f.offset
  limit : entry.offset + entry.size = g.limit
  method : entry.method = (p.merge.entry f).method

theorem spans_of_merged (hlow : FirstLowest order) (hapart : Apart order)
    (hrun : run ∈ trivialRuns order) (h : p.merge.merged run = some entry) :
  ∃ f g, Spans p order run f g entry
  := by
  obtain ⟨f, hf, hoffset, hmethod⟩ := merged_first h
  obtain ⟨g, hg, hlimit⟩ := merged_last h hf (hlow run hrun f hf) fun c hc =>
    hapart.limit_lt c (mem_of_mem_run hrun hc)
  exact ⟨f, g, hrun, hf, hg, hoffset, hlimit, hmethod⟩

theorem spans_of_entry (hlow : FirstLowest order) (hapart : Apart order)
    (h : entry ∈ p.merge.entries order) :
  ∃ run f g, Spans p order run f g entry
  := by
  obtain ⟨run, hrun, hmerged⟩ := p.merge.mem_entries.mp h
  use run
  apply spans_of_merged hlow hapart hrun hmerged

theorem spans_of_run (hlow : FirstLowest order) (hapart : Apart order)
    (hrun : run ∈ trivialRuns order) :
  ∃ f g entry, entry ∈ p.merge.entries order ∧ Spans p order run f g entry
  := by
  have hsome : ∃ entry, p.merge.merged run = some entry := by
    rcases run with _ | ⟨c, run⟩
    · exact absurd hrun (List.nil_notMem_splitBy _ _)
    · exact ⟨_, rfl⟩
  obtain ⟨entry, hentry⟩ := hsome
  obtain ⟨f, g, hspans⟩ := spans_of_merged hlow hapart hrun hentry
  exact ⟨f, g, entry, p.merge.mem_entries.mpr ⟨run, hrun, hentry⟩, hspans⟩

namespace Spans

theorem first_mem (h : Spans p order run f g entry) :
  f ∈ order
  := by
  apply mem_of_mem_run h.run_mem
  apply List.mem_of_mem_head? h.first

theorem last_mem (h : Spans p order run f g entry) :
  g ∈ order
  := by
  apply mem_of_mem_run h.run_mem
  apply List.mem_of_mem_getLast? h.last

/-- A `memset` is for trivial fields. -/
theorem trivial_of_zero (h : Spans p order run f g entry) (hzero : entry.method = .fillWithZero) :
  f.type.isTrivial = true ∧ g.type.isTrivial = true
  := by
  have hf : f.type.isTrivial = true := by
    rw [h.method] at hzero
    rcases htrivial : f.type.isTrivial with _ | _
    · simp [Pass.merge, htrivial, p.method_ne] at hzero
    · rfl
  use hf
  obtain hg | rfl := trivial_of_mem_run h.run_mem (List.mem_of_mem_getLast? h.last)
  · apply hg
  · obtain rfl := Option.some.inj h.first
    apply hf

/-- Any other entry is that of one field. -/
theorem eq_of_not_zero (h : Spans p order run f g entry)
    (hzero : entry.method ≠ .fillWithZero) :
  f = g ∧ f.type.isTrivial = false
  := by
  have hf : f.type.isTrivial = false := by
    rw [h.method] at hzero
    rcases htrivial : f.type.isTrivial with _ | _
    · rfl
    · simp [Pass.merge, htrivial] at hzero
  obtain hf' | rfl := trivial_of_mem_run h.run_mem (List.mem_of_mem_head? h.first)
  · rw [hf] at hf'
    cases hf'
  · exact ⟨Option.some.inj h.last, hf⟩

theorem covers_iff (h : Spans p order run f g entry) {x : ℕ} :
  entry.Covers x ↔ f.offset ≤ x ∧ x < g.limit
  := by
  rw [Entry.Covers, h.limit, h.offset]

/-- A `memset` does not write a field that is not one of its trivial ones, if none lies in
between. -/
theorem spares (h : Spans p order run f g entry) (hzero : entry.method = .fillWithZero)
    (hm : m.type.isTrivial = false ∨ m ∉ order)
    (hapart : ∀ c, c ∈ order → c ≠ m → c.limit ≤ m.offset ∨ m.limit ≤ c.offset)
    (hbetween : ¬ (f.offset < m.offset ∧ m.offset < g.offset)) {x : ℕ} (hx : entry.Covers x) :
  ¬ m.Has x
  := by
  obtain ⟨hf, hg⟩ := h.trivial_of_zero hzero
  have hne : ∀ c : Registration, c ∈ order → c.type.isTrivial = true → c ≠ m := by
    rintro c hc htrivial rfl
    obtain hm | hm := hm
    · rw [htrivial] at hm
      cases hm
    · apply hm hc
  have hfm := hapart f h.first_mem (hne f h.first_mem hf)
  have hgm := hapart g h.last_mem (hne g h.last_mem hg)
  have hfsize := f.type.size_pos
  have hmsize := m.type.size_pos
  rw [h.covers_iff] at hx
  rintro ⟨hle, hlt⟩
  simp only [Registration.limit] at hfm hgm hx hlt
  omega

end Spans

/-- What is needed of the order for the entries to be right. -/
structure Regular (order others : List Registration) : Prop where
  firstLowest : FirstLowest order
  noneBetween : NoneBetween order others
  allBetween : AllBetween order

/-- In a regular order the entries are right. -/
theorem right_of_regular {others : List Registration} (h : Regular order others)
    (hapart : Apart order) (hothers : ∀ c, c ∈ order → c.type.isTrivial = false → c ∈ others) :
  Right p order (p.merge.entries order)
  := by
  constructor
  · intro c hc htrivial x hx
    obtain ⟨run, hrun, f, hf, g, hg, hfc, hcg⟩ := h.allBetween c hc htrivial
    obtain ⟨f', g', entry, hentry, hspans⟩ := spans_of_run (p := p) h.firstLowest hapart hrun
    obtain rfl := Option.some.inj (hf.symm.trans hspans.first)
    obtain rfl := Option.some.inj (hg.symm.trans hspans.last)
    use entry, hentry
    rw [hspans.covers_iff]
    have hgsize := g.type.size_pos
    obtain ⟨hle, hlt⟩ := hx
    rcases eq_or_ne c g with rfl | hne
    · exact ⟨Nat.le_trans hfc hle, hlt⟩
    · have hcg' := hapart.apart c hc g hspans.last_mem hne
      simp only [Registration.limit] at hcg' hlt ⊢
      omega
  · intro c hc htrivial x hx entry hentry hcovers
    by_contra hzero
    obtain ⟨run, f, g, hspans⟩ := spans_of_entry h.firstLowest hapart hentry
    obtain ⟨rfl, hf⟩ := hspans.eq_of_not_zero hzero
    have hne : c ≠ f := by
      rintro rfl
      rw [htrivial] at hf
      cases hf
    have hcf := hapart.apart c hc f hspans.first_mem hne
    rw [hspans.covers_iff] at hcovers
    obtain ⟨hle, hlt⟩ := hx
    omega
  · intro c hc htrivial
    obtain ⟨before, after, rfl⟩ := List.append_of_mem hc
    obtain ⟨hruns, hentries⟩ := p.merge.entries_append_cons before after
      (a := c) htrivial
    refine ⟨_, _, hentries, ?_⟩
    have halone : ∀ part : List Registration, (∀ r, r ∈ trivialRuns part →
        r ∈ trivialRuns (before ++ c :: after)) → c ∉ part →
        ∀ entry, entry ∈ p.merge.entries part → ∀ x, c.Has x → ¬ entry.Covers x := by
      intro part hsub hnot entry hentry x hx hcovers
      obtain ⟨run, hrun, hmerged⟩ := p.merge.mem_entries.mp hentry
      obtain ⟨f, g, hspans⟩ := spans_of_merged h.firstLowest hapart (hsub run hrun) hmerged
      rcases Decidable.em (entry.method = .fillWithZero) with hzero | hzero
      · apply hspans.spares hzero (Or.inl htrivial) _ _ hcovers hx
        · intro c' hc' hne
          apply hapart.apart c' hc' c hc hne
        · apply h.noneBetween run (hsub run hrun) f hspans.first g hspans.last c
          apply hothers c hc htrivial
      · obtain ⟨rfl, -⟩ := hspans.eq_of_not_zero hzero
        have hne : f ≠ c := by
          rintro rfl
          apply hnot
          apply mem_of_mem_run hrun
          apply List.mem_of_mem_head? hspans.first
        have hfc := hapart.apart f hspans.first_mem c hc hne
        rw [hspans.covers_iff] at hcovers
        obtain ⟨hle, hlt⟩ := hx
        omega
    have hnodup := List.nodup_append.mp hapart.nodup
    intro entry hentry
    obtain hentry | hentry := List.mem_append.mp hentry
    · apply halone before _ _ entry hentry
      · intro r hr
        rw [← runs_merge p, hruns]
        apply List.mem_append_left _ hr
      · intro hmem
        apply hnodup.2.2 c hmem c List.mem_cons_self rfl
    · apply halone after _ _ entry hentry
      · intro r hr
        rw [← runs_merge p, hruns]
        apply List.mem_append_right _ (List.mem_cons_of_mem _ hr)
      · apply (List.nodup_cons.mp hnodup.2.1).1

/-- Fields in order, one behind the other, are regular. -/
theorem regular_of_increasing (h : order.Pairwise fun c c' => c.limit ≤ c'.offset) :
  Regular order (order.filter fun c => !c.type.isTrivial)
  := by
  have hsplit : ∀ run, run ∈ trivialRuns order →
      ∃ before after, order = before ++ (run ++ after) := by
    intro run hrun
    obtain ⟨rs, rs', hrs⟩ := List.append_of_mem hrun
    use rs.flatten, rs'.flatten
    rw [← Pass.construct.merge.flatten_runs order, runs_merge, hrs]
    simp
  have hlow : FirstLowest order := by
    intro run hrun f hf c hc
    obtain ⟨before, after, rfl⟩ := hsplit run hrun
    obtain ⟨rest, rfl⟩ := List.head?_eq_some_iff.mp hf
    have hpairs := (List.pairwise_append.mp (List.pairwise_append.mp h).2.1).1
    obtain rfl | hc := List.mem_cons.mp hc
    · apply Nat.le_refl
    · apply Nat.le_trans _ ((List.pairwise_cons.mp hpairs).1 c hc)
      apply Nat.le_add_right
  constructor
  · apply hlow
  · rintro run hrun f hf g hg m hm ⟨hfm, hmg⟩
    obtain ⟨hm, htrivial⟩ := List.mem_filter.mp hm
    have hfrun := List.mem_of_mem_head? hf
    have hgrun := List.mem_of_mem_getLast? hg
    obtain ⟨before, after, rfl⟩ := hsplit run hrun
    have hbefore := (List.pairwise_append.mp h).2.2
    have hafter := (List.pairwise_append.mp (List.pairwise_append.mp h).2.1).2.2
    obtain hm | hm := List.mem_append.mp hm
    · have hle := hbefore m hm f (List.mem_append_left _ hfrun)
      rw [Registration.limit] at hle
      omega
    · obtain hm | hm := List.mem_append.mp hm
      · obtain hjoins | rfl := trivial_of_mem_run hrun hm
        · simp [hjoins] at htrivial
        · obtain rfl := Option.some.inj hf
          apply Nat.lt_irrefl _ hfm
      · have hle := hafter g hgrun m hm
        rw [Registration.limit] at hle
        omega
  · intro c hc htrivial
    rw [← Pass.construct.merge.flatten_runs order, runs_merge] at hc
    obtain ⟨run, hrun, hcrun⟩ := List.mem_flatten.mp hc
    obtain ⟨f, hf⟩ := Option.isSome_iff_exists.mp
      (List.isSome_head?.mpr (List.ne_nil_of_mem hcrun))
    obtain ⟨g, hg⟩ := Option.isSome_iff_exists.mp
      (List.getLast?_isSome.mpr (List.ne_nil_of_mem hcrun))
    refine ⟨run, hrun, f, hf, g, hg, hlow run hrun f hf c hcrun, ?_⟩
    obtain ⟨before, after, rfl⟩ := hsplit run hrun
    obtain ⟨init, rfl⟩ := List.getLast?_eq_some_iff.mp hg
    have hpairs := (List.pairwise_append.mp (List.pairwise_append.mp h).2.1).1
    obtain hc | hc := List.mem_append.mp hcrun
    · apply Nat.le_trans _ ((List.pairwise_append.mp hpairs).2.2 c hc g (by simp))
      apply Nat.le_add_right
    · rw [List.mem_singleton.mp hc]

theorem apart_of_increasing (h : order.Pairwise fun c c' => c.limit ≤ c'.offset)
    (hlimit : ∀ c, c ∈ order → c.limit < 2 ^ 64) :
  Apart order
  := by
  constructor
  · apply h.imp
    rintro c c' hle rfl
    have := c.type.size_pos
    rw [Registration.limit] at hle
    omega
  · have hpairs : order.Pairwise fun c c' => c.limit ≤ c'.offset ∨ c'.limit ≤ c.offset := by
      apply h.imp
      intro c c' hle
      left
      apply hle
    have hsymm : Std.Symm fun c c' : Registration =>
        c.limit ≤ c'.offset ∨ c'.limit ≤ c.offset := ⟨fun _ _ => Or.symm⟩
    intro c hc c' hc' hne
    apply hpairs.forall hc hc' hne
  · apply hlimit

/-- One entry a field is right too. -/
theorem right_each (hapart : Apart order) :
  Right p order (order.map p.merge.entry)
  := by
  have hcovers : ∀ c x, (p.merge.entry c).Covers x ↔ c.Has x := fun _ _ => Iff.rfl
  have heq : ∀ c, c ∈ order → ∀ c', c' ∈ order → ∀ x, c.Has x → c'.Has x → c' = c := by
    rintro c hc c' hc' x ⟨hle, hlt⟩ ⟨hle', hlt'⟩
    by_contra hne
    have := hapart.apart c' hc' c hc hne
    omega
  constructor
  · intro c hc _ x hx
    exact ⟨_, List.mem_map_of_mem hc, (hcovers c x).mpr hx⟩
  · intro c hc htrivial x hx entry hentry hcover
    obtain ⟨c', hc', rfl⟩ := List.mem_map.mp hentry
    rw [heq c hc c' hc' x hx ((hcovers c' x).mp hcover)]
    simp [Pass.merge, htrivial]
  · intro c hc _
    obtain ⟨before, after, rfl⟩ := List.append_of_mem hc
    refine ⟨before.map p.merge.entry, after.map p.merge.entry, by simp, ?_⟩
    intro entry hentry x hx hcover
    rw [← List.map_append] at hentry
    obtain ⟨c', hc', rfl⟩ := List.mem_map.mp hentry
    have hmem : c' ∈ before ++ c :: after := by
      obtain hc' | hc' := List.mem_append.mp hc'
      · apply List.mem_append_left _ hc'
      · apply List.mem_append_right _ (List.mem_cons_of_mem c hc')
    obtain rfl := heq c hc c' hmem x hx ((hcovers c' x).mp hcover)
    have hnodup := List.perm_middle.nodup_iff.mp hapart.nodup
    apply (List.nodup_cons.mp hnodup).1 hc'

/-- One call a field, in the order of the registrations. -/
def Pass.callsEach (s : BaseSchema) (ptr : ℕ) (pool : Option ℕ) (p : Pass) : List Call :=
  s.fieldMap.map fun field =>
    ⟨if field.type.isTrivial then .fillWithZero else p.method field.type, ptr + field.offset,
      pool, none, field.type.sizeOf⟩

/-- The pass does to every field what one call a field would do: trivial fields are filled with
zeroes, any other field is constructed, by one call, and nothing is written outside the data. -/
structure Pass.Agrees (p : Pass) (s : BaseSchema) : Prop where
  same : ∀ field, field ∈ s.fieldMap → ∀ (β : Type) (effect : Effect β) (ptr : ℕ)
    (pool : Option ℕ) (memory : ℕ → β) (i : ℕ), i < field.type.sizeOf →
      bytesAfter effect (p.calls s ptr pool) memory (ptr + field.offset + i) =
        bytesAfter effect (p.callsEach s ptr pool) memory (ptr + field.offset + i)
  prepares : ∀ field, field ∈ s.fieldMap → p.Prepares s field.registration
  once : ∀ ptr pool, ((p.calls s ptr pool).filter fun call => call.method ≠ .fillWithZero) =
    (s.fieldMap.filter fun field => !field.type.isTrivial).map fun field =>
      ⟨p.method field.type, ptr + field.offset, pool, none, field.type.sizeOf⟩
  spares : ∀ entry, entry ∈ p.entries s → entry.method = .fillWithZero →
    ∀ field, field ∈ s.fieldMap → field.type.isTrivial = false →
      ∀ x, entry.Covers x → ¬ field.registration.Has x
  inside : ∀ entry, entry ∈ p.entries s → ∀ x, entry.Covers x → x < s.allocateSize - sizeofMeta

/-- A pass over packed fields does what one call a field does. -/
theorem agrees_of_packed {s : BaseSchema} {cs : List Registration} (hlists : s.Lists cs)
    (hpacked : s.Packed) (p : Pass) :
  p.Agrees s
  := by
  have hinc : (s.fieldMap.map Field.registration).Pairwise fun c c' => c.limit ≤ c'.offset := by
    rw [List.pairwise_map]
    apply hpacked.increasing
  have hends : ∀ c, c ∈ s.fieldMap.map Field.registration →
      sizeofMeta + c.limit ≤ s.unalignedAllocateSize := by
    intro c hc
    obtain ⟨field, hfield, rfl⟩ := List.mem_map.mp hc
    have := hpacked.ends field hfield
    rw [Registration.limit]
    simp only [Field.registration]
    omega
  have hapart : Apart (s.fieldMap.map Field.registration) := by
    apply apart_of_increasing hinc
    intro c hc
    have := hends c hc
    have := hpacked.unaligned_lt
    omega
  have hregular := regular_of_increasing hinc
  have hentries := p.entries_eq hlists
  have hright : Right p (s.fieldMap.map Field.registration) (p.entries s) := by
    rw [hentries]
    apply right_of_regular hregular hapart
    intro c hc htrivial
    apply List.mem_filter.mpr
    simp [hc, htrivial]
  have hprepares : ∀ field, field ∈ s.fieldMap → p.Prepares s field.registration := by
    intro field hfield β effect ptr pool memory i hi
    rw [p.calls_eq]
    apply hright.bytesAfter_eq (List.mem_map_of_mem hfield) effect ptr pool memory hi
  constructor
  · intro field hfield β effect ptr pool memory i hi
    have heach : p.callsEach s ptr pool =
        ((s.fieldMap.map Field.registration).map p.merge.entry).map
          fun entry => entry.call ptr pool none := by
      rw [List.map_map, List.map_map]
      rfl
    rw [heach]
    have hleft := hprepares field hfield β effect ptr pool memory i hi
    have hright := (right_each (p := p) hapart).bytesAfter_eq (List.mem_map_of_mem hfield)
      effect ptr pool memory hi
    apply hleft.trans hright.symm
  · apply hprepares
  · intro ptr pool
    have hfilter := p.merge.filter_entries (l := s.fieldMap.map Field.registration)
    rw [p.calls_eq, hentries, List.filter_map]
    have hjoined : ((fun call : Call => decide (call.method ≠ .fillWithZero)) ∘
        fun entry : Entry => entry.call ptr pool none) = fun b => !p.merge.joined b := by
      funext entry
      simp [Entry.call, Pass.merge]
    rw [hjoined, hfilter, List.map_map, List.filter_map, List.map_map]
    apply List.map_congr_left
    intro field hfield
    have htrivial : field.type.isTrivial = false := by
      simpa [Pass.merge, Field.registration] using (List.mem_filter.mp hfield).2
    simp [Entry.call, Pass.merge, Field.registration, htrivial]
  · intro entry hentry hzero field hfield htrivial x hx
    rw [hentries] at hentry
    have hmem := List.mem_map_of_mem (f := Field.registration) hfield
    obtain ⟨run, f, g, hspans⟩ := spans_of_entry hregular.firstLowest hapart hentry
    apply hspans.spares hzero (Or.inl htrivial) _ _ hx
    · intro c hc hne
      apply hapart.apart c hc _ hmem hne
    · apply hregular.noneBetween run hspans.run_mem f hspans.first g hspans.last
      apply List.mem_filter.mpr
      exact ⟨hmem, by simp [Field.registration, htrivial]⟩
  · intro entry hentry x hx
    rw [hentries] at hentry
    obtain ⟨run, f, g, hspans⟩ := spans_of_entry hregular.firstLowest hapart hentry
    have hend := hends g hspans.last_mem
    have hsize := hpacked.le_size
    rw [hspans.covers_iff] at hx
    omega

/-- After calls of `register_field` without offsets of which no sum wraps around, `construct_all`
and `clear_all` do to every field what one call a field would do. -/
theorem zeroFill_eq_each {calls : List Registration} (hauto : ∀ c, c ∈ calls → c.offset = npos)
    (hfit : BaseSchema.registering.Steps BaseSchema.SumsFit newSchema calls) (p : Pass) :
  p.Agrees (newSchema.register calls)
  := by
  apply agrees_of_packed (BaseSchema.lists_register alignofMeta sizeofMeta calls)
  apply BaseSchema.packed_register hauto hfit

theorem zeroFill_eq_each_numbersAndString :
  Pass.construct.Agrees (newSchema.register
    [⟨int32, "id", npos⟩, ⟨int32, "age", npos⟩, ⟨pooledString, "name", npos⟩])
  := zeroFill_eq_each (by decide) (by decide +kernel) .construct

/-- A struct of one `char[1ul << 62]`. -/
def quarterOfMemory : TypeInfo where
  id := 2
  sizeOf := 2 ^ 62
  alignOf := 1
  isPointer := false
  structSchema := none
  isTrivial := true
  isTriviallyDestructible := true
  isVoid := true
  useMetadata := false
  size_pos := by decide
  align_pow := ⟨0, rfl⟩
  align_dvd := by decide
  trivial_destructible := int32.trivial_destructible
  metadata_allocator := int32.metadata_allocator

/-- Four fields that together are as long as the address space: the `memset` for them has the
length zero. -/
theorem fourQuarters_not_agrees :
  ¬ Pass.construct.Agrees (newSchema.register
    [⟨quarterOfMemory, "a", npos⟩, ⟨quarterOfMemory, "b", npos⟩, ⟨quarterOfMemory, "c", npos⟩,
      ⟨quarterOfMemory, "d", npos⟩])
  := by
  intro h
  have hfield : ⟨0, "a", quarterOfMemory, .other, none⟩ ∈ (newSchema.register
      [⟨quarterOfMemory, "a", npos⟩, ⟨quarterOfMemory, "b", npos⟩,
        ⟨quarterOfMemory, "c", npos⟩, ⟨quarterOfMemory, "d", npos⟩]).fieldMap := by
    decide +kernel
  have hzero := h.prepares _ hfield Bool ⟨false, fun _ _ _ => true⟩ 0 none (fun _ => true) 0
    (by decide)
  revert hzero
  decide +kernel

end DynamicStruct
