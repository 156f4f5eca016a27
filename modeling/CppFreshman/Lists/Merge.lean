import Mathlib.Data.List.Chain
import Mathlib.Data.List.Induction
import Mathlib.Data.List.SplitBy
import Mathlib.Data.Option.Basic

/-!
# Lists with merged neighbours

A list of entries is built from a list of elements, one entry an element, but an element of one
sort is merged into the entry before it when that is of the same sort.  The elements of the other
sort keep their own entries (`Merge.filter_zipIdx_entries`): that of the element at a position
stands at the number of entries of the elements before it, which is its own position exactly if
no two neighbours before it are merged (`Merge.length_entries_eq_iff`).

The elements that are merged into one entry are a run, and the entries are those of the runs
(`Merge.map_entries`).
-/

universe u v

/-- How entries are made from elements: `joins` says which elements may be merged and `joined`
which entries are of such elements. -/
structure Merge (α : Type u) (β : Type v) where
  joins : α → Bool
  joined : β → Bool
  entry : α → β
  extend : β → α → β
  joined_entry : ∀ a, joined (entry a) = joins a
  joined_extend : ∀ b a, joined b = true → joined (extend b a) = true

namespace Merge

variable {α : Type u} {β : Type v} (M : Merge α β)

/-- The entries after one more element. -/
def push (es : List β) (a : α) : List β :=
  match es.getLast? with
  | some b => if M.joins a && M.joined b then es.dropLast ++ [M.extend b a] else es ++ [M.entry a]
  | none => [M.entry a]

/-- The entries of a list of elements. -/
def entries (l : List α) : List β :=
  l.foldl M.push []

@[simp]
theorem entries_nil :
  M.entries [] = []
  := rfl

theorem entries_concat
    {l : List α} {a : α} :
  M.entries (l ++ [a]) = M.push (M.entries l) a
  := by
  rw [entries, List.foldl_append]
  rfl

/-- An element is merged with the last entry, or gets an entry of its own. -/
theorem push_cases (es : List β) (a : α) :
  (∃ init b, es = init ++ [b] ∧ M.joins a = true ∧ M.joined b = true ∧
      M.push es a = init ++ [M.extend b a]) ∨
    (M.joins a = true → ∀ b, es.getLast? = some b → M.joined b = false) ∧
      M.push es a = es ++ [M.entry a]
  := by
  rcases List.eq_nil_or_concat' es with rfl | ⟨init, b, rfl⟩
  · right
    simp [push]
  · rw [push, List.getLast?_concat, List.dropLast_concat]
    rcases h : M.joins a && M.joined b with _ | _
    · right
      simpa using h
    · left
      obtain ⟨ha, hb⟩ : M.joins a = true ∧ M.joined b = true := by simpa using h
      use init, b
      simp [ha, hb]

/-- The last entry is of a merged element if the last element is one. -/
theorem getLast?_entries
    {l : List α} :
  (M.entries l).getLast?.map M.joined = l.getLast?.map M.joins
  := by
  induction l using List.reverseRecOn with
  | nil => rfl
  | append_singleton l a ih =>
      rw [entries_concat, List.getLast?_concat, Option.map_some]
      obtain ⟨init, b, -, ha, hb, hpush⟩ | ⟨-, hpush⟩ := M.push_cases (M.entries l) a
      · rw [hpush, List.getLast?_concat, Option.map_some, M.joined_extend b a hb, ha]
      · rw [hpush, List.getLast?_concat, Option.map_some, M.joined_entry]

theorem length_entries_le
    {l : List α} :
  (M.entries l).length ≤ l.length
  := by
  induction l using List.reverseRecOn with
  | nil => rfl
  | append_singleton l a ih =>
      rw [entries_concat, List.length_append, List.length_singleton]
      obtain ⟨init, b, hes, -, -, hpush⟩ | ⟨-, hpush⟩ := M.push_cases (M.entries l) a
      · rw [hpush]
        rw [hes] at ih
        simp only [List.length_append, List.length_singleton] at ih ⊢
        omega
      · rw [hpush]
        simpa using ih

/-- There are as many entries as elements exactly if no two neighbours are merged. -/
theorem length_entries_eq_iff
    {l : List α} :
  (M.entries l).length = l.length ↔ l.IsChain fun a b => ¬(M.joins a = true ∧ M.joins b = true)
  := by
  induction l using List.reverseRecOn with
  | nil => simp
  | append_singleton l a ih =>
      have hlast := M.getLast?_entries (l := l)
      rw [entries_concat, List.length_append, List.length_singleton, List.isChain_append, ← ih]
      obtain ⟨init, b, hes, ha, hb, hpush⟩ | ⟨hb, hpush⟩ := M.push_cases (M.entries l) a
      · have hle := M.length_entries_le (l := l)
        rw [hes, List.getLast?_concat, Option.map_some, hb] at hlast
        obtain ⟨c, hc, hjoins⟩ := Option.map_eq_some_iff.mp hlast.symm
        rw [hes, List.length_append, List.length_singleton] at hle
        rw [hpush, List.length_append, List.length_singleton]
        constructor
        · intro heq
          omega
        · rintro ⟨-, -, hR⟩
          exact absurd ⟨hjoins, ha⟩ (hR c hc a (by simp))
      · rw [hpush, List.length_append, List.length_singleton, Nat.add_right_cancel_iff]
        constructor
        · intro heq
          refine ⟨heq, List.isChain_singleton a, ?_⟩
          rintro c hc d hd ⟨hjoins, ha⟩
          obtain rfl : a = d := by simpa using hd
          rw [hc, Option.map_some, hjoins] at hlast
          obtain ⟨b, hlast, hjoined⟩ := Option.map_eq_some_iff.mp hlast
          rw [hb ha b hlast] at hjoined
          cases hjoined
        · intro h
          apply h.1

/-- The elements that are not merged have their own entries, each at the number of entries of
the elements before it. -/
theorem filter_zipIdx_entries
    {l : List α} :
  (M.entries l).zipIdx.filter (fun x => !M.joined x.1) =
    (l.zipIdx.filter fun x => !M.joins x.1).map fun x =>
      (M.entry x.1, (M.entries (l.take x.2)).length)
  := by
  induction l using List.reverseRecOn with
  | nil => rfl
  | append_singleton l a ih =>
      have htake : (l.zipIdx.filter fun x => !M.joins x.1).map
          (fun x => (M.entry x.1, (M.entries ((l ++ [a]).take x.2)).length)) =
          (l.zipIdx.filter fun x => !M.joins x.1).map
          (fun x => (M.entry x.1, (M.entries (l.take x.2)).length)) := by
        apply List.map_congr_left
        intro x hx
        have hk := List.snd_lt_of_mem_zipIdx (List.mem_of_mem_filter hx)
        rw [List.take_append_of_le_length (by omega)]
      rw [entries_concat, List.zipIdx_append, List.filter_append, List.map_append, htake, ← ih]
      obtain ⟨init, b, hes, ha, hb, hpush⟩ | ⟨-, hpush⟩ := M.push_cases (M.entries l) a
      · rw [hpush, hes, List.zipIdx_append, List.zipIdx_append, List.filter_append,
          List.filter_append]
        simp [ha, hb, M.joined_extend b a hb]
      · rw [hpush, List.zipIdx_append, List.filter_append]
        rcases ha : M.joins a with _ | _ <;> simp [ha, M.joined_entry]

/-- The entries of the elements that are not merged. -/
theorem filter_entries {l : List α} :
  ((M.entries l).filter fun b => !M.joined b) = (l.filter fun a => !M.joins a).map M.entry
  := by
  induction l using List.reverseRecOn with
  | nil => rfl
  | append_singleton l a ih =>
      rw [entries_concat, List.filter_append, List.map_append, ← ih]
      obtain ⟨init, b, hes, ha, hb, hpush⟩ | ⟨-, hpush⟩ := M.push_cases (M.entries l) a
      · rw [hpush, hes]
        simp [ha, hb, M.joined_extend b a hb]
      · rw [hpush]
        cases ha : M.joins a <;> simp [ha, M.joined_entry]

/-- The runs of neighbours that are merged. -/
def runs (l : List α) : List (List α) :=
  l.splitBy fun a b => M.joins a && M.joins b

/-- The entry of a run. -/
def merged : List α → Option β
  | [] => none
  | a :: run => some (run.foldl M.extend (M.entry a))

theorem merged_concat {run : List α} {a : α} {b : β} (h : M.merged run = some b) :
  M.merged (run ++ [a]) = some (M.extend b a)
  := by
  cases run with
  | nil => cases h
  | cons c run =>
      obtain rfl := Option.some.inj h
      rw [List.cons_append, merged, List.foldl_append]
      rfl

/-- Where the entries are those of the runs, one more element is merged into the last entry and
continues the last run, or gets its own entry and begins a run. -/
theorem runs_concat_of_map_entries {l : List α}
    (hl : (M.entries l).map some = (M.runs l).map M.merged) (a : α) :
  (∃ init run b, M.runs l = init ++ [run] ∧ M.merged run = some b ∧
      (M.entries l).getLast? = some b ∧ M.joins a = true ∧ M.joined b = true ∧
      M.runs (l ++ [a]) = init ++ [run ++ [a]]) ∨
    (M.joins a = true → ∀ b, (M.entries l).getLast? = some b → M.joined b = false) ∧
      M.runs (l ++ [a]) = M.runs l ++ [[a]]
  := by
  have hlast := M.getLast?_entries (l := l)
  obtain ⟨init, b, hes, ha, hb, -⟩ | ⟨hb, -⟩ := M.push_cases (M.entries l) a
  · left
    rw [hes, List.getLast?_concat, Option.map_some, hb] at hlast
    obtain ⟨c, hc, hjoins⟩ := Option.map_eq_some_iff.mp hlast.symm
    rw [hes, List.map_append, List.map_singleton] at hl
    obtain ⟨rs, r, hrs, -, hr⟩ := List.map_eq_append_iff.mp hl.symm
    obtain ⟨run, r, rfl, hrun, hnil⟩ := List.map_eq_cons_iff.mp hr
    obtain rfl := List.map_eq_nil_iff.mp hnil
    refine ⟨rs, run, b, hrs, hrun, by rw [hes, List.getLast?_concat], ha, hb, ?_⟩
    obtain ⟨hflat, hne, hchain, hbreak⟩ := List.splitBy_eq_iff.mp hrs
    have hrunne : run ≠ [] := by
      rintro rfl
      cases hrun
    have hrunlast : run.getLast? = some c := by
      rw [hflat, List.flatten_append, List.flatten_singleton, List.getLast?_append] at hc
      obtain ⟨d, hd⟩ := List.getLast?_isSome.mpr hrunne |> Option.isSome_iff_exists.mp
      rw [hd] at hc ⊢
      apply hc
    apply List.splitBy_eq_iff.mpr
    refine ⟨?_, ?_, ?_, ?_⟩
    · rw [hflat]
      simp
    · intro hmem
      obtain hmem | hmem := List.mem_append.mp hmem
      · apply hne (List.mem_append_left _ hmem)
      · simp at hmem
    · intro r hr
      obtain hr | hr := List.mem_append.mp hr
      · apply hchain r (List.mem_append_left _ hr)
      · obtain rfl := List.mem_singleton.mp hr
        rw [List.isChain_append]
        refine ⟨hchain run (by simp), List.isChain_singleton a, ?_⟩
        intro x hx y hy
        obtain rfl := Option.some.inj (hrunlast.symm.trans hx)
        obtain rfl : a = y := by simpa using hy
        simp [hjoins, ha]
    · rw [List.isChain_append] at hbreak ⊢
      refine ⟨hbreak.1, List.isChain_singleton _, ?_⟩
      intro x hx y hy
      obtain rfl : run ++ [a] = y := by simpa using hy
      obtain ⟨hx', hy', hfalse⟩ := hbreak.2.2 x hx run (by simp)
      refine ⟨hx', by simp, ?_⟩
      rw [List.head_append_of_ne_nil hrunne]
      apply hfalse
  · right
    refine ⟨hb, ?_⟩
    have happend := List.splitBy_append_cons (r := fun a b => M.joins a && M.joins b)
      (l := l) (a := a) []
    rw [runs, happend]
    · rfl
    · intro c hc
      rcases ha : M.joins a with _ | _
      · simp
      · rw [hc, Option.map_some] at hlast
        obtain ⟨b, hlastb, hjoined⟩ := Option.map_eq_some_iff.mp hlast
        rw [← hjoined, hb ha b hlastb]
        rfl

/-- The entries are those of the runs. -/
theorem map_entries {l : List α} :
  (M.entries l).map some = (M.runs l).map M.merged
  := by
  induction l using List.reverseRecOn with
  | nil => rfl
  | append_singleton l a ih =>
      rw [entries_concat]
      obtain ⟨init, run, b, hruns, hmerged, hlast, ha, hb, hruns'⟩ | ⟨hb, hruns'⟩ :=
        M.runs_concat_of_map_entries ih a
      · obtain ⟨es, hes⟩ := List.getLast?_eq_some_iff.mp hlast
        have hpush : M.push (M.entries l) a = es ++ [M.extend b a] := by
          rw [push, hlast, hes]
          simp [ha, hb]
        rw [hpush, hruns', List.map_append, List.map_append, List.map_singleton,
          List.map_singleton, M.merged_concat hmerged]
        rw [hruns, hes, List.map_append, List.map_append, List.map_singleton,
          List.map_singleton, hmerged] at ih
        rw [List.append_cancel_right ih]
      · have hpush : M.push (M.entries l) a = M.entries l ++ [M.entry a] := by
          obtain ⟨es, b, hes, ha, hb', -⟩ | ⟨-, hpush⟩ :=
            M.push_cases (M.entries l) a
          · rw [hb ha b (by rw [hes, List.getLast?_concat])] at hb'
            cases hb'
          · apply hpush
        rw [hpush, hruns', List.map_append, List.map_append, ih]
        rfl

/-- One more element continues the last run or begins one. -/
theorem runs_concat {l : List α} (a : α) :
  (∃ init run b, M.runs l = init ++ [run] ∧ M.merged run = some b ∧
      (M.entries l).getLast? = some b ∧ M.joins a = true ∧ M.joined b = true ∧
      M.runs (l ++ [a]) = init ++ [run ++ [a]]) ∨
    (M.joins a = true → ∀ b, (M.entries l).getLast? = some b → M.joined b = false) ∧
      M.runs (l ++ [a]) = M.runs l ++ [[a]]
  := by
  apply M.runs_concat_of_map_entries M.map_entries

theorem mem_entries {l : List α} {b : β} :
  b ∈ M.entries l ↔ ∃ run, run ∈ M.runs l ∧ M.merged run = some b
  := by
  rw [← List.mem_map, ← map_entries]
  simp

/-- The entries but for the last are those of the runs but for the last. -/
theorem mem_dropLast_entries {l run last : List α} {init : List (List α)} {b : β}
    (h : M.runs l = init ++ [last]) (hrun : run ∈ init) (hb : M.merged run = some b) :
  b ∈ (M.entries l).dropLast
  := by
  have hmap : (M.entries l).dropLast.map some = init.map M.merged := by
    rw [List.map_dropLast, map_entries, h, List.map_append, List.map_singleton,
      List.dropLast_concat]
  have hmem := List.mem_map_of_mem (f := M.merged) hrun
  rw [hb, ← hmap] at hmem
  obtain ⟨b', hb', heq⟩ := List.mem_map.mp hmem
  obtain rfl := Option.some.inj heq
  apply hb'

/-- The runs make up the list. -/
theorem flatten_runs (l : List α) :
  (M.runs l).flatten = l
  := by
  apply List.flatten_splitBy

/-- An element of a run is one that may be merged, or the run is its own. -/
theorem joins_of_mem_runs {l run : List α} {a : α} (h : run ∈ M.runs l) (ha : a ∈ run) :
  M.joins a = true ∨ run = [a]
  := by
  have hchain : run.IsChain fun x y => (M.joins x && M.joins y) = true := by
    apply List.isChain_of_mem_splitBy h
  clear h
  induction run with
  | nil => cases ha
  | cons x run ih =>
      cases run with
      | nil =>
          right
          rw [List.mem_singleton.mp ha]
      | cons y run =>
          rw [List.isChain_cons_cons, Bool.and_eq_true] at hchain
          obtain ⟨⟨hx, hy⟩, hrest⟩ := hchain
          left
          obtain rfl | ha := List.mem_cons.mp ha
          · apply hx
          · obtain ha | heq := ih ha hrest
            · apply ha
            · obtain ⟨rfl, -⟩ := List.cons_eq_cons.mp heq
              apply hy

/-- An element that is not merged has a run and an entry of its own. -/
theorem entries_append_cons (l l' : List α) {a : α} (ha : M.joins a = false) :
  M.runs (l ++ a :: l') = M.runs l ++ [a] :: M.runs l' ∧
    M.entries (l ++ a :: l') = M.entries l ++ M.entry a :: M.entries l'
  := by
  have hruns : M.runs (l ++ a :: l') = M.runs l ++ [a] :: M.runs l' := by
    rw [runs, List.splitBy_append_cons, ← List.singleton_append, List.splitBy_append]
    · rfl
    · simp [ha]
    · simp [ha]
  refine ⟨hruns, ?_⟩
  apply List.map_injective_iff.mpr (Option.some_injective β)
  rw [map_entries, hruns, List.map_append, List.map_cons, List.map_append, List.map_cons,
    map_entries, map_entries]
  rfl

/-- The merging of elements of another type through a function. -/
def comap {γ : Type u} (g : γ → α) : Merge γ β where
  joins c := M.joins (g c)
  joined := M.joined
  entry c := M.entry (g c)
  extend b c := M.extend b (g c)
  joined_entry c := M.joined_entry (g c)
  joined_extend b c := M.joined_extend b (g c)

theorem entries_comap {γ : Type u} {g : γ → α} {l : List γ} :
  (M.comap g).entries l = M.entries (l.map g)
  := by
  rw [entries, entries, List.foldl_map]
  rfl

end Merge
