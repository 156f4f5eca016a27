import Mathlib.Algebra.Ring.Nat
import Mathlib.Data.List.TakeWhile
import Mathlib.Data.Option.Basic
import Mathlib.Tactic.Use

/-!
# Lines and tokens

`readLines` is the loop `while (!input.eof()) { std::getline(input, line); … }` of the loaders
of dictionaries, and `splitNewV1` is `split_new_v1`.  A text is the list of its characters and
a position in it is what of the text begins there, `[]` for `std::string::npos`.
`boost::lexical_cast` is a parameter: the cast of a token is `none` if it throws
`boost::bad_lexical_cast`.

A file is read as the lines it splits into at the newlines (`readLines_eq_foldlM`) and the
tokens of a line are the non-empty pieces it splits into at the delimiters
(`splitNewV1_eq_some_iff`).
-/

universe u v

/-- The contents of a `std::string`. -/
abbrev Text := List Char

namespace Text

/-- `std::getline(input, line)`: the line and what is left of the input, `none` if its end was
reached. -/
def getline (input : Text) : Text × Option Text :=
  (input.takeWhile (· ≠ '\n'),
    match input.dropWhile (· ≠ '\n') with
    | [] => none
    | _ :: rest => some rest)

theorem getline_length_lt {input rest : Text} (h : (getline input).2 = some rest) :
  rest.length < input.length
  := by
  have hle := (List.dropWhile_sublist (· ≠ '\n') (l := input)).length_le
  rw [getline] at h
  split at h
  · cases h
  · rename_i c cs hdrop
    obtain rfl := Option.some.inj h
    rw [hdrop] at hle
    apply hle

/-- The loop `while (!input.eof())` that reads a line and does `body` with it; `body` is `none`
if an exception leaves it. -/
def readLines {σ : Type u} (body : σ → Text → Option σ) (s : σ) (input : Text) : Option σ :=
  (body s (getline input).1).bind fun s' =>
    match h : (getline input).2 with
    | none => some s'
    | some rest =>
        have := getline_length_lt h
        readLines body s' rest
  termination_by input.length

/-- The input begins with the line `std::getline` reads, and splits at the newline behind it. -/
theorem splitOn_getline (input : Text) :
  input.splitOn '\n' = (getline input).1 ::
    (match (getline input).2 with
    | none => []
    | some rest => rest.splitOn '\n')
  := by
  have hsplit := List.takeWhile_append_dropWhile (p := (· ≠ '\n')) (l := input)
  have hline : '\n' ∉ input.takeWhile (· ≠ '\n') := by
    intro hmem
    simpa using List.mem_takeWhile_imp hmem
  rw [getline]
  cases hdrop : input.dropWhile (· ≠ '\n') with
  | nil =>
      rw [hdrop, List.append_nil] at hsplit
      rw [hsplit] at hline ⊢
      apply List.splitOn_eq_singleton hline
  | cons c rest =>
      have hc : c = '\n' := by
        have hhead := List.head?_dropWhile_not (· ≠ '\n') input
        rw [hdrop] at hhead
        simpa using hhead
      subst hc
      rw [hdrop] at hsplit
      have hcut := List.splitOn_append_cons_self_of_not_mem hline rest
      rw [hsplit] at hcut
      apply hcut

/-- The loop reads the lines of the input in order. -/
theorem readLines_eq_foldlM {σ : Type u} (body : σ → Text → Option σ) (s : σ) (input : Text) :
  readLines body s input = (input.splitOn '\n').foldlM body s
  := by
  fun_induction readLines body s input with
  | case1 s input ih =>
      rw [splitOn_getline, List.foldlM_cons]
      apply congrArg
      funext s'
      split
      · rename_i hrest
        rw [hrest]
        rfl
      · rename_i rest hrest
        rw [ih s' rest hrest, hrest]

/-- `find_first_not_of(delims, pos)`. -/
def findFirstNotOf (delims rest : Text) : Text := rest.dropWhile (· ∈ delims)

/-- `find_first_of(delims, pos)`, which the source replaces by the length of the line if there
is none. -/
def findFirstOf (delims rest : Text) : Text := rest.dropWhile (· ∉ delims)

/-- `line.substr(begin, end - begin)` where `end` is `find_first_of(delims, begin)`. -/
def token (delims begin : Text) : Text := begin.takeWhile (· ∉ delims)

theorem findFirstNotOf_length_lt (delims : Text) (c : Char) (cs : Text) :
  (findFirstNotOf delims (findFirstOf delims (c :: cs))).length < (c :: cs).length
  := by
  have hof := (List.dropWhile_sublist (· ∉ delims) (l := cs)).length_le
  have hnot := (List.dropWhile_sublist (· ∈ delims) (l := cs.dropWhile (· ∉ delims))).length_le
  rw [findFirstNotOf, findFirstOf, List.length_cons]
  rcases Classical.em (c ∈ delims) with hc | hc
  · rw [List.dropWhile_cons_of_neg (by simpa using hc),
      List.dropWhile_cons_of_pos (by simpa using hc)]
    apply Nat.lt_succ_of_le (List.dropWhile_sublist _).length_le
  · rw [List.dropWhile_cons_of_pos (by simpa using hc)]
    apply Nat.lt_succ_of_le (Nat.le_trans hnot hof)

variable {τ : Type v}

/-- The loop of `split_new_v1` from the position `begin` on: what it returns, `none` if an
exception leaves it, and the tokens.  Both for numbers and for strings the cast of a token is
appended; the handler for numbers is for `std::invalid_argument`, which
`boost::lexical_cast` does not throw. -/
def splitLoop (cast : Text → Option τ) (delims : Text) :
    (begin : Text) → (tokens : List τ) → (n : ℕ) → Option ℕ × List τ
  | [], tokens, n => (some n, tokens)
  | c :: cs, tokens, n =>
      match cast (token delims (c :: cs)) with
      | none => (none, tokens)
      | some uid =>
          splitLoop cast delims (findFirstNotOf delims (findFirstOf delims (c :: cs)))
            (tokens ++ [uid]) (n + 1)
  termination_by begin => begin.length
  decreasing_by apply findFirstNotOf_length_lt

/-- `split_new_v1`. -/
def splitNewV1 (cast : Text → Option τ) (line delims : Text) (tokens : List τ) :
    Option ℕ × List τ :=
  splitLoop cast delims (findFirstNotOf delims line) tokens 0

/-- The tokens of a line, the non-empty pieces it splits into at the delimiters. -/
def pieces (delims line : Text) : List Text :=
  (line.splitOnP (· ∈ delims)).filter (· ≠ [])

@[simp]
theorem pieces_nil (delims : Text) :
  pieces delims [] = []
  := by
  simp [pieces]

theorem pieces_cons_of_mem {delims : Text} {c : Char} (hc : c ∈ delims) (cs : Text) :
  pieces delims (c :: cs) = pieces delims cs
  := by
  simp [pieces, List.splitOnP_cons_eq_if_modifyHead, hc]

/-- The delimiters a line begins with make no tokens. -/
theorem pieces_findFirstNotOf (delims line : Text) :
  pieces delims (findFirstNotOf delims line) = pieces delims line
  := by
  induction line with
  | nil => rfl
  | cons c cs ih =>
      rw [findFirstNotOf] at ih ⊢
      rcases Classical.em (c ∈ delims) with hc | hc
      · rw [pieces_cons_of_mem hc, ← ih, List.dropWhile_cons_of_pos (by simpa using hc)]
      · rw [List.dropWhile_cons_of_neg (by simpa using hc)]

/-- A line that does not begin with a delimiter begins with a token. -/
theorem pieces_cons_of_not_mem {delims : Text} {c : Char} (hc : c ∉ delims) (cs : Text) :
  pieces delims (c :: cs) =
    token delims (c :: cs) :: pieces delims (findFirstOf delims (c :: cs))
  := by
  have hsplit := List.takeWhile_append_dropWhile (p := (· ∉ delims)) (l := c :: cs)
  have htoken : ∀ x ∈ (c :: cs).takeWhile (· ∉ delims), decide (x ∈ delims) = false := by
    intro x hx
    simpa using List.mem_takeWhile_imp hx
  have hne : (c :: cs).takeWhile (· ∉ delims) ≠ [] := by
    simp [hc]
  rw [token, findFirstOf]
  cases hdrop : (c :: cs).dropWhile (· ∉ delims) with
  | nil =>
      rw [hdrop, List.append_nil] at hsplit
      rw [hsplit] at htoken ⊢
      simp [pieces, List.splitOnP_eq_singleton htoken]
  | cons d rest =>
      have hd : d ∈ delims := by
        have hhead := List.head?_dropWhile_not (· ∉ delims) (c :: cs)
        rw [hdrop] at hhead
        simpa using hhead
      have hcut := List.splitOnP_append_cons_of_forall_mem htoken d (by simpa using hd) rest
      rw [hdrop] at hsplit
      rw [hsplit] at hcut
      rw [pieces_cons_of_mem hd, pieces, pieces, hcut, List.filter_cons_of_pos (by simpa using hne)]

/-- The loop of `split_new_v1` completes exactly if every token can be cast. -/
theorem splitLoop_eq_some_iff {cast : Text → Option τ} {delims begin : Text}
    {tokens tokens' : List τ} {n n' : ℕ} (hbegin : ∀ c ∈ begin.head?, c ∉ delims) :
  splitLoop cast delims begin tokens n = (some n', tokens') ↔
    ∃ values, (pieces delims begin).mapM cast = some values ∧ tokens' = tokens ++ values ∧
      n' = n + values.length
  := by
  induction begin, tokens, n using splitLoop.induct cast delims with
  | case1 tokens n =>
      simp [splitLoop, eq_comm, and_comm]
  | case2 c cs tokens n hcast =>
      have hc : c ∉ delims := hbegin c rfl
      simp [splitLoop, hcast, pieces_cons_of_not_mem hc]
  | case3 c cs tokens n uid hcast ih =>
      have hc : c ∉ delims := hbegin c rfl
      have hnext : ∀ d ∈ (findFirstNotOf delims (findFirstOf delims (c :: cs))).head?,
          d ∉ delims := by
        intro d hd
        have hhead := List.head?_dropWhile_not (· ∈ delims) (findFirstOf delims (c :: cs))
        rw [findFirstNotOf] at hd
        rw [hd] at hhead
        simpa using hhead
      rw [splitLoop, hcast, pieces_cons_of_not_mem hc, ← pieces_findFirstNotOf]
      rw [ih hnext]
      constructor
      · rintro ⟨values, hvalues, rfl, rfl⟩
        use uid :: values
        simp [hcast, hvalues]
        omega
      · rintro ⟨values, hvalues, rfl, rfl⟩
        rw [List.mapM_cons] at hvalues
        obtain ⟨v, hv, hvalues⟩ := Option.bind_eq_some_iff.mp hvalues
        obtain ⟨vs, hvs, hcons⟩ := Option.bind_eq_some_iff.mp hvalues
        obtain rfl := Option.some.inj (hcast.symm.trans hv)
        obtain rfl := Option.some.inj hcons
        use vs, hvs
        simp
        omega

/-- `split_new_v1` completes exactly if every token of the line can be cast, and appends what
they are cast to. -/
theorem splitNewV1_eq_some_iff {cast : Text → Option τ} {line delims : Text}
    {tokens tokens' : List τ} {n : ℕ} :
  splitNewV1 cast line delims tokens = (some n, tokens') ↔
    ∃ values, (pieces delims line).mapM cast = some values ∧ tokens' = tokens ++ values ∧
      n = values.length
  := by
  have hbegin : ∀ c ∈ (findFirstNotOf delims line).head?, c ∉ delims := by
    intro c hc
    have hhead := List.head?_dropWhile_not (· ∈ delims) line
    rw [findFirstNotOf] at hc
    rw [hc] at hhead
    simpa using hhead
  rw [splitNewV1, splitLoop_eq_some_iff hbegin, pieces_findFirstNotOf]
  simp

/-- The tokens of a line as strings. -/
theorem splitNewV1_string (line delims : Text) (tokens : List Text) :
  splitNewV1 some line delims tokens =
    (some (pieces delims line).length, tokens ++ pieces delims line)
  := by
  apply splitNewV1_eq_some_iff.mpr
  use pieces delims line
  constructor
  · have hmap := List.mapM_pure (m := Option) (l := pieces delims line) (f := id)
    rw [List.map_id] at hmap
    apply hmap
  · simp

end Text
