import CppFreshman.Text.Split
import Mathlib.Data.List.Sort

/-!
# The runs of a line

A run of a line is a longest stretch of it without delimiters.  `split_new_v1` for strings
appends the runs of the line in order (`splitStrings_eq`); it returns their number as an `int`,
which holds numbers below 2^31 only.
-/

namespace Text

/-- The characters of the text from `i` up to `j` are a longest stretch without delimiters. -/
structure IsRun (delims text : Text) (i j : ℕ) : Prop where
  nonempty : i < j
  within : j ≤ text.length
  inside : ∀ k c, i ≤ k → k < j → text[k]? = some c → c ∉ delims
  before : ∀ k c, k + 1 = i → text[k]? = some c → c ∈ delims
  after : ∀ c, text[j]? = some c → c ∈ delims

/-- `spans` are the ends of all runs of the line, in order. -/
structure Spans (delims line : Text) (spans : List (ℕ × ℕ)) : Prop where
  sorted : spans.Pairwise fun s t => s.1 < t.1
  mem_iff : ∀ i j, (i, j) ∈ spans ↔ IsRun delims line i j

/-- The characters between two positions. -/
def between (line : Text) (span : ℕ × ℕ) : Text :=
  (line.take span.2).drop span.1

/-- The runs of the line, in order. -/
def Runs (delims line : Text) (runs : List Text) : Prop :=
  ∃ spans, Spans delims line spans ∧ runs = spans.map (between line)

/-- The line is made up of `runs`, which are not empty and have no delimiters, and delimiters
before, behind and between them. -/
inductive Splits (delims : Text) : Text → List Text → Prop
  | gap {gap : Text} (h : ∀ c, c ∈ gap → c ∈ delims) : Splits delims gap []
  | run {gap run rest : Text} {runs : List Text} (gap_mem : ∀ c, c ∈ gap → c ∈ delims)
      (nonempty : run ≠ []) (run_not_mem : ∀ c, c ∈ run → c ∉ delims)
      (ends : ∀ c, c ∈ rest.head? → c ∈ delims) (h : Splits delims rest runs) :
      Splits delims (gap ++ run ++ rest) (run :: runs)

variable {delims line : Text}

/-! ### The runs are unique -/

theorem Spans.unique {spans spans' : List (ℕ × ℕ)} (h : Spans delims line spans)
    (h' : Spans delims line spans') :
  spans = spans'
  := by
  have irrefl : Std.Irrefl fun s t : ℕ × ℕ => s.1 < t.1 := by
    constructor
    intro s
    apply Nat.lt_irrefl
  have antisymm : Std.Antisymm fun s t : ℕ × ℕ => s.1 < t.1 := by
    constructor
    intro s t hst hts
    apply absurd hst (Nat.lt_asymm hts)
  apply h.sorted.eq_of_mem_iff h'.sorted
  rintro ⟨i, j⟩
  rw [h.mem_iff, h'.mem_iff]

theorem Runs.unique {runs runs' : List Text} (h : Runs delims line runs)
    (h' : Runs delims line runs') :
  runs = runs'
  := by
  obtain ⟨spans, hspans, rfl⟩ := h
  obtain ⟨spans', hspans', rfl⟩ := h'
  rw [hspans.unique hspans']

/-! ### The runs of a line that is made up of runs and delimiters -/

/-- A line of delimiters has no runs. -/
theorem Spans.nil (h : ∀ c, c ∈ line → c ∈ delims) :
  Spans delims line []
  := by
  constructor
  · apply List.Pairwise.nil
  · intro i j
    constructor
    · intro hmem
      cases hmem
    · intro hrun
      have hlt : i < line.length := Nat.lt_of_lt_of_le hrun.nonempty hrun.within
      have hi := List.getElem?_eq_getElem hlt
      apply absurd (h _ (List.mem_of_getElem? hi))
      apply hrun.inside i _ (Nat.le_refl i) hrun.nonempty hi

/-- The runs behind a part of the line that is followed by a delimiter. -/
theorem isRun_append_iff {front rest : Text} (ends : ∀ c, c ∈ rest.head? → c ∈ delims)
    {i j : ℕ} :
  IsRun delims (front ++ rest) (front.length + i) (front.length + j) ↔ IsRun delims rest i j
  := by
  have hget : ∀ k, (front ++ rest)[front.length + k]? = rest[k]? := by
    intro k
    rw [List.getElem?_append_right (Nat.le_add_right _ _), Nat.add_sub_cancel_left]
  constructor
  · intro h
    constructor
    · apply Nat.lt_of_add_lt_add_left h.nonempty
    · have hwithin := h.within
      rw [List.length_append] at hwithin
      apply Nat.le_of_add_le_add_left hwithin
    · intro k c hik hkj hk
      apply h.inside (front.length + k) c (by omega) (by omega)
      rw [hget, hk]
    · intro k c hk hc
      apply h.before (front.length + k) c (by omega)
      rw [hget, hc]
    · intro c hc
      apply h.after
      rw [hget, hc]
  · intro h
    have hpos : i ≠ 0 := by
      rintro rfl
      have hlt : 0 < rest.length := Nat.lt_of_lt_of_le h.nonempty h.within
      have hhead := List.getElem?_eq_getElem hlt
      apply h.inside 0 _ (Nat.le_refl 0) h.nonempty hhead
      apply ends
      rw [List.head?_eq_getElem?, hhead]
      rfl
    constructor
    · apply Nat.add_lt_add_left h.nonempty
    · rw [List.length_append]
      apply Nat.add_le_add_left h.within
    · intro k c hik hkj hk
      obtain ⟨l, rfl⟩ := Nat.exists_eq_add_of_le (Nat.le_trans (Nat.le_add_right _ i) hik)
      rw [hget] at hk
      apply h.inside l c (by omega) (by omega) hk
    · intro k c hk hc
      obtain ⟨l, rfl⟩ := Nat.exists_eq_add_of_le (show front.length ≤ k by omega)
      rw [hget] at hc
      apply h.before l c (by omega) hc
    · intro c hc
      rw [hget] at hc
      apply h.after c hc

/-- A run that begins in a part of the line of delimiters followed by characters that are none,
with a delimiter behind it, is that of these characters. -/
theorem isRun_first_iff {gap run rest : Text} (gap_mem : ∀ c, c ∈ gap → c ∈ delims)
    (nonempty : run ≠ []) (run_not_mem : ∀ c, c ∈ run → c ∉ delims)
    (ends : ∀ c, c ∈ rest.head? → c ∈ delims) {i j : ℕ} (hi : i < (gap ++ run).length) :
  IsRun delims (gap ++ run ++ rest) i j ↔ i = gap.length ∧ j = (gap ++ run).length
  := by
  have hgap : ∀ k c, k < gap.length → (gap ++ run ++ rest)[k]? = some c → c ∈ delims := by
    intro k c hk hc
    apply gap_mem
    rw [List.append_assoc, List.getElem?_append_left hk] at hc
    apply List.mem_of_getElem? hc
  have hrun : ∀ k c, gap.length ≤ k → k < (gap ++ run).length →
      (gap ++ run ++ rest)[k]? = some c → c ∉ delims := by
    intro k c hge hk hc
    apply run_not_mem
    rw [List.getElem?_append_left hk, List.getElem?_append_right hge] at hc
    apply List.mem_of_getElem? hc
  have hrest : ∀ c, (gap ++ run ++ rest)[(gap ++ run).length]? = some c → c ∈ delims := by
    intro c hc
    apply ends
    rw [List.getElem?_append_right (Nat.le_refl _), Nat.sub_self] at hc
    rw [List.head?_eq_getElem?, hc]
    rfl
  have hget : ∀ k, k < (gap ++ run ++ rest).length →
      ∃ c, (gap ++ run ++ rest)[k]? = some c := by
    intro k hk
    exact ⟨_, List.getElem?_eq_getElem hk⟩
  have hlen : 0 < run.length := List.length_pos_iff.mpr nonempty
  simp only [List.length_append] at hi hrun hrest hget ⊢
  constructor
  · intro h
    have hwithin := h.within
    have hne := h.nonempty
    simp only [List.length_append] at hwithin
    have hge : gap.length ≤ i := by
      by_contra hlt
      obtain ⟨c, hc⟩ := hget i (by omega)
      apply h.inside i c (Nat.le_refl i) hne hc
      apply hgap i c (Nat.lt_of_not_le hlt) hc
    have hbegin : i = gap.length := by
      by_contra hneq
      obtain ⟨c, hc⟩ := hget (i - 1) (by omega)
      apply hrun (i - 1) c (by omega) (by omega) hc
      apply h.before (i - 1) c (by omega) hc
    have hle : j ≤ gap.length + run.length := by
      by_contra hlt
      obtain ⟨c, hc⟩ := hget (gap.length + run.length) (by omega)
      apply h.inside _ c (by omega) (by omega) hc
      apply hrest c hc
    constructor
    · apply hbegin
    · by_contra hneq
      obtain ⟨c, hc⟩ := hget j (by omega)
      apply hrun j c (by omega) (by omega) hc
      apply h.after c hc
  · rintro ⟨rfl, rfl⟩
    constructor
    · omega
    · simp only [List.length_append]
      omega
    · intro k c hge hlt hc
      apply hrun k c hge hlt hc
    · intro k c hk hc
      apply hgap k c (by omega) hc
    · apply hrest

/-- The spans of what is behind a run, seen from the beginning of the line. -/
def shift (n : ℕ) (span : ℕ × ℕ) : ℕ × ℕ :=
  (n + span.1, n + span.2)

theorem between_shift (front rest : Text) (span : ℕ × ℕ) :
  between (front ++ rest) (shift front.length span) = between rest span
  := by
  simp [between, shift, List.take_append, List.drop_append]

theorem mem_map_shift {n i j : ℕ} {spans : List (ℕ × ℕ)} :
  (i, j) ∈ spans.map (shift n) ↔ ∃ i' j', (i', j') ∈ spans ∧ i = n + i' ∧ j = n + j'
  := by
  simp only [List.mem_map, shift, Prod.exists, Prod.mk.injEq]
  constructor
  · rintro ⟨i', j', h, rfl, rfl⟩
    use i', j'
  · rintro ⟨i', j', h, rfl, rfl⟩
    use i', j'

/-- The spans of a line that begins with delimiters and a run. -/
theorem Spans.cons {gap run rest : Text} (gap_mem : ∀ c, c ∈ gap → c ∈ delims)
    (nonempty : run ≠ []) (run_not_mem : ∀ c, c ∈ run → c ∉ delims)
    (ends : ∀ c, c ∈ rest.head? → c ∈ delims) {spans : List (ℕ × ℕ)}
    (h : Spans delims rest spans) :
  Spans delims (gap ++ run ++ rest)
    ((gap.length, (gap ++ run).length) :: spans.map (shift (gap ++ run).length))
  := by
  have hlen : 0 < run.length := List.length_pos_iff.mpr nonempty
  constructor
  · constructor
    · rintro ⟨i, j⟩ hmem
      obtain ⟨i', j', -, rfl, -⟩ := mem_map_shift.mp hmem
      simp only [List.length_append]
      omega
    · rw [List.pairwise_map]
      apply h.sorted.imp
      intro s t hst
      apply Nat.add_lt_add_left hst
  · intro i j
    rw [List.mem_cons, Prod.mk.injEq, mem_map_shift]
    rcases Nat.lt_or_ge i (gap ++ run).length with hlt | hge
    · rw [isRun_first_iff gap_mem nonempty run_not_mem ends hlt]
      constructor
      · rintro (heq | ⟨i', j', -, rfl, -⟩)
        · apply heq
        · omega
      · intro heq
        left
        apply heq
    · obtain ⟨i', rfl⟩ := Nat.exists_eq_add_of_le hge
      constructor
      · rintro (⟨heq, -⟩ | ⟨i'', j', hmem, heq, rfl⟩)
        · simp only [List.length_append] at heq
          omega
        · rw [Nat.add_left_cancel heq, isRun_append_iff ends]
          apply (h.mem_iff i'' j').mp hmem
      · intro hrun
        obtain ⟨j', rfl⟩ := Nat.exists_eq_add_of_le
          (Nat.le_trans (Nat.le_add_right _ i') (Nat.le_of_lt hrun.nonempty))
        right
        use i', j'
        constructor
        · apply (h.mem_iff i' j').mpr
          apply (isRun_append_iff ends).mp hrun
        · exact ⟨rfl, rfl⟩

theorem between_first (gap run rest : Text) :
  between (gap ++ run ++ rest) (gap.length, (gap ++ run).length) = run
  := by
  rw [between, List.take_left, List.drop_left]

/-- What a line is made up of are its runs. -/
theorem Splits.runs {runs : List Text} (h : Splits delims line runs) :
  Runs delims line runs
  := by
  induction h with
  | gap hgap =>
      use [], Spans.nil hgap
      rfl
  | @run gap run rest runs gap_mem nonempty run_not_mem ends _ ih =>
      obtain ⟨spans, hspans, rfl⟩ := ih
      use (gap.length, (gap ++ run).length) :: spans.map (shift (gap ++ run).length),
        Spans.cons gap_mem nonempty run_not_mem ends hspans
      rw [List.map_cons, between_first, List.map_map]
      congr 1
      apply List.map_congr_left
      intro span _
      symm
      apply between_shift

/-- The pieces of a line are its runs. -/
theorem splits_pieces (delims line : Text) :
  Splits delims line (pieces delims line)
  := by
  induction hlen : line.length using Nat.strongRecOn generalizing line with
  | ind n ih =>
      have hgap := List.takeWhile_append_dropWhile (p := (· ∈ delims)) (l := line)
      have gap_mem : ∀ c, c ∈ line.takeWhile (· ∈ delims) → c ∈ delims := by
        intro c hc
        simpa using List.mem_takeWhile_imp hc
      rw [← pieces_findFirstNotOf, findFirstNotOf]
      cases hdrop : line.dropWhile (· ∈ delims) with
      | nil =>
          rw [hdrop, List.append_nil] at hgap
          rw [hgap] at gap_mem
          rw [pieces_nil]
          apply Splits.gap gap_mem
      | cons c cs =>
          have hc : c ∉ delims := by
            have hhead := List.head?_dropWhile_not (· ∈ delims) line
            rw [hdrop] at hhead
            simpa using hhead
          have hrun := List.takeWhile_append_dropWhile (p := (· ∉ delims)) (l := c :: cs)
          rw [hdrop, ← hrun, ← List.append_assoc] at hgap
          have hlt : (findFirstOf delims (c :: cs)).length < n := by
            have hpos : 0 < ((c :: cs).takeWhile (· ∉ delims)).length := by
              simp [hc]
            rw [← hlen, ← hgap, List.length_append, List.length_append, findFirstOf]
            omega
          rw [pieces_cons_of_not_mem hc, ← hgap]
          apply Splits.run gap_mem
          · simp [hc]
          · intro d hd
            simpa using List.mem_takeWhile_imp hd
          · intro d hd
            have hhead := List.head?_dropWhile_not (· ∉ delims) (c :: cs)
            rw [hd] at hhead
            simpa using hhead
          · apply ih _ hlt _ rfl

/-! ### `split_new_v1` -/

/-- `split_new_v1<std::string>`, which counts in an `int`: there is no result if the count
overflows. -/
def splitStrings (line delims : Text) (tokens : List Text) : Option (ℕ × List Text) :=
  match splitNewV1 some line delims tokens with
  | (none, _) => none
  | (some n, tokens') => if n < 2 ^ 31 then some (n, tokens') else none

/-- `split_new_v1` for strings keeps the tokens and appends the runs of the line, which are all
it is made up of besides delimiters, and returns their number if an `int` can hold it. -/
theorem splitStrings_eq (line delims : Text) (tokens : List Text) :
  ∃ runs, Runs delims line runs ∧ (∀ runs', Runs delims line runs' → runs' = runs) ∧
    Splits delims line runs ∧
    splitStrings line delims tokens =
      if runs.length < 2 ^ 31 then some (runs.length, tokens ++ runs) else none
  := by
  have hsplits := splits_pieces delims line
  use pieces delims line, hsplits.runs
  constructor
  · intro runs' h'
    apply h'.unique hsplits.runs
  constructor
  · apply hsplits
  · rw [splitStrings, splitNewV1_string]

/-- `n` tokens of one character with a delimiter behind each. -/
def commas (n : ℕ) : Text :=
  (List.replicate n ['a', ',']).flatten

theorem pieces_commas (n : ℕ) :
  pieces [','] (commas n) = List.replicate n ['a']
  := by
  induction n with
  | zero => apply pieces_nil
  | succ n ih =>
      have ha : 'a' ∉ [','] := by decide
      have hcomma : ',' ∈ [','] := by decide
      have hline : commas (n + 1) = 'a' :: ',' :: commas n := rfl
      have htoken : token [','] ('a' :: ',' :: commas n) = ['a'] := by
        simp [token]
      have hrest : findFirstOf [','] ('a' :: ',' :: commas n) = ',' :: commas n := by
        simp [findFirstOf]
      rw [hline, pieces_cons_of_not_mem ha, htoken, hrest, pieces_cons_of_mem hcomma, ih]
      rfl

/-- With as many tokens as an `int` cannot hold there is no result. -/
theorem splitStrings_commas_eq_none {n : ℕ} (h : 2 ^ 31 ≤ n) (tokens : List Text) :
  splitStrings (commas n) [','] tokens = none
  := by
  rw [splitStrings, splitNewV1_string, pieces_commas, List.length_replicate]
  apply if_neg (Nat.not_lt.mpr h)

/-- The runs of a line of 2^31 tokens are not counted. -/
theorem splitStrings_overflow :
  ¬ ∃ runs, Runs [','] (commas (2 ^ 31)) runs ∧
    splitStrings (commas (2 ^ 31)) [','] [] = some (runs.length, runs)
  := by
  rintro ⟨runs, -, h⟩
  rw [splitStrings_commas_eq_none (Nat.le_refl _)] at h
  cases h

end Text
