import CppFreshman.Text.Split

/-!
# Splitting a line into numbers

`split_new_v1<T>` for a number type `T`, with its `try` and `catch`.  The handler goes on with the
next turn of the loop for a `std::invalid_argument`, without moving `begin`, and any other exception
leaves the function.  `boost::lexical_cast` throws `boost::bad_lexical_cast`, so that one token that
cannot be cast is enough for an exception to leave it.  The tokens are counted in an `int`, so it
does what it is to do exactly if every token can be cast and there are fewer than 2^31
(`splitNumbers_skips_iff`).
-/

universe v

namespace Text

/-- The exceptions that the cast of a token may throw. -/
inductive Thrown where
  | invalidArgument
  | badLexicalCast
  deriving DecidableEq

variable {τ : Type v} {cast : Text → Option τ} {delims begin line : Text} {tokens : List τ}
  {n fuel : ℕ}

/-- `boost::lexical_cast`, which throws `boost::bad_lexical_cast`. -/
def lexicalCast (cast : Text → Option τ) (token : Text) : Except Thrown τ :=
  match cast token with
  | some value => .ok value
  | none => .error .badLexicalCast

/-- The loop of `split_new_v1` from the position `begin` on, with the tokens as numbers: what it
returns or the exception that leaves it, and the tokens; `none` if it takes more than `fuel`
turns, or if `++n` overflows, since `n` is an `int`. -/
def splitNumbersLoop (cast : Text → Except Thrown τ) (delims : Text) :
    (fuel : ℕ) → (begin : Text) → (tokens : List τ) → (n : ℕ) → Option (Except Thrown ℕ × List τ)
  | 0, _, _, _ => none
  | _ + 1, [], tokens, n => some (.ok n, tokens)
  | fuel + 1, c :: cs, tokens, n =>
      match cast (token delims (c :: cs)) with
      | .error .invalidArgument => splitNumbersLoop cast delims fuel (c :: cs) tokens n
      | .error .badLexicalCast => some (.error .badLexicalCast, tokens)
      | .ok uid =>
          if n + 1 < 2 ^ 31 then
            splitNumbersLoop cast delims fuel
              (findFirstNotOf delims (findFirstOf delims (c :: cs))) (tokens ++ [uid]) (n + 1)
          else none

/-- `split_new_v1` for numbers. -/
def splitNumbers (cast : Text → Except Thrown τ) (fuel : ℕ) (line delims : Text) (tokens : List τ) :
    Option (Except Thrown ℕ × List τ) :=
  splitNumbersLoop cast delims fuel (findFirstNotOf delims line) tokens 0

/-- The numbers that the tokens of a line can be cast to, in order. -/
def numbers (cast : Text → Option τ) (delims line : Text) : List τ :=
  (pieces delims line).filterMap cast

/-- `split_new_v1` ends, no exception leaves it, and it appends the numbers on the line and returns
how many there are. -/
def SkipsMalformed (cast : Text → Option τ) (line delims : Text) (tokens : List τ) : Prop :=
  ∃ fuel, splitNumbers (lexicalCast cast) fuel line delims tokens =
    some (.ok (numbers cast delims line).length, tokens ++ numbers cast delims line)

/-- What the loop leads to, with the exception. -/
def thrown (r : Option ℕ × List τ) : Except Thrown ℕ × List τ :=
  match r.1 with
  | some n => (.ok n, r.2)
  | none => (.error .badLexicalCast, r.2)

/-- With a cast that throws no `std::invalid_argument` the handler has no effect. -/
theorem splitNumbersLoop_eq {r : Except Thrown ℕ × List τ}
    (h : splitNumbersLoop (lexicalCast cast) delims fuel begin tokens n = some r) :
  r = thrown (splitLoop cast delims begin tokens n)
  := by
  induction fuel generalizing begin tokens n with
  | zero => cases h
  | succ fuel ih =>
      rcases begin with _ | ⟨c, cs⟩
      · obtain rfl := Option.some.inj h
        rw [splitLoop]
        rfl
      · rw [splitNumbersLoop, lexicalCast] at h
        rw [splitLoop]
        rcases hcast : cast (token delims (c :: cs)) with _ | uid
        · rw [hcast] at h
          obtain rfl := Option.some.inj h
          rfl
        · rw [hcast] at h
          apply ih (Option.ite_none_right_eq_some.mp h).2

/-- The count never goes down. -/
theorem splitLoop_le {n' : ℕ} {tokens' : List τ}
    (h : splitLoop cast delims begin tokens n = (some n', tokens')) :
  n ≤ n'
  := by
  induction begin, tokens, n using splitLoop.induct cast delims with
  | case1 tokens n =>
      rw [splitLoop] at h
      obtain rfl := Option.some.inj (Prod.mk.inj h).1
      apply Nat.le_refl
  | case2 c cs tokens n hcast =>
      rw [splitLoop, hcast] at h
      cases (Prod.mk.inj h).1
  | case3 c cs tokens n uid hcast ih =>
      rw [splitLoop, hcast] at h
      apply Nat.le_of_succ_le (ih h)

/-- A turn for each character is enough, if the count stays below 2^31. -/
theorem splitNumbersLoop_of_splitLoop {n' : ℕ} {tokens' : List τ}
    (h : splitLoop cast delims begin tokens n = (some n', tokens')) (hlt : n' < 2 ^ 31)
    (hfuel : begin.length < fuel) :
  splitNumbersLoop (lexicalCast cast) delims fuel begin tokens n = some (.ok n', tokens')
  := by
  induction fuel generalizing begin tokens n with
  | zero => cases hfuel
  | succ fuel ih =>
      rcases begin with _ | ⟨c, cs⟩
      · rw [splitLoop] at h
        obtain ⟨hn, rfl⟩ := Prod.mk.inj h
        obtain rfl := Option.some.inj hn
        rfl
      · have hshorter := findFirstNotOf_length_lt delims c cs
        rw [splitLoop] at h
        rw [splitNumbersLoop, lexicalCast]
        rcases hcast : cast (token delims (c :: cs)) with _ | uid
        · rw [hcast] at h
          cases (Prod.mk.inj h).1
        · rw [hcast] at h
          have hcount := Nat.lt_of_le_of_lt (splitLoop_le h) hlt
          simp only [if_pos hcount]
          apply ih h
          omega

/-- What the loop returns is below 2^31. -/
theorem splitNumbersLoop_lt {cast : Text → Except Thrown τ} {n' : ℕ} {tokens' : List τ}
    (h : splitNumbersLoop cast delims fuel begin tokens n = some (.ok n', tokens'))
    (hn : n < 2 ^ 31) :
  n' < 2 ^ 31
  := by
  induction fuel generalizing begin tokens n with
  | zero => cases h
  | succ fuel ih =>
      rcases begin with _ | ⟨c, cs⟩
      · rw [splitNumbersLoop] at h
        obtain ⟨heq, -⟩ := Prod.mk.inj (Option.some.inj h)
        obtain rfl := Except.ok.inj heq
        apply hn
      · rw [splitNumbersLoop] at h
        split at h
        · apply ih h hn
        · cases h
        · obtain ⟨hcount, h⟩ := Option.ite_none_right_eq_some.mp h
          apply ih h hcount

/-- If the tokens can be cast, they are cast to the numbers. -/
theorem mapM_eq_filterMap {items : List Text} {values : List τ}
    (h : items.mapM cast = some values) :
  items.filterMap cast = values ∧ ∀ item, item ∈ items → cast item ≠ none
  := by
  induction items generalizing values with
  | nil =>
      obtain rfl := Option.some.inj h
      use rfl
      nofun
  | cons item items ih =>
      rw [List.mapM_cons] at h
      obtain ⟨value, hvalue, h⟩ := Option.bind_eq_some_iff.mp h
      obtain ⟨rest, hrest, h⟩ := Option.bind_eq_some_iff.mp h
      obtain rfl := Option.some.inj h
      obtain ⟨hnumbers, hnone⟩ := ih hrest
      constructor
      · rw [List.filterMap_cons, hvalue, hnumbers]
      · intro other hother
        rcases List.mem_cons.mp hother with rfl | hother
        · rw [hvalue]
          nofun
        · apply hnone other hother

theorem mapM_of_forall {items : List Text} (h : ∀ item, item ∈ items → cast item ≠ none) :
  items.mapM cast = some (items.filterMap cast)
  := by
  induction items with
  | nil => rfl
  | cons item items ih =>
      obtain ⟨hitem, hitems⟩ := List.forall_mem_cons.mp h
      obtain ⟨value, hvalue⟩ := Option.ne_none_iff_exists'.mp hitem
      rw [List.mapM_cons, ih hitems, hvalue, List.filterMap_cons, hvalue]
      rfl

/-- When all tokens can be cast there is a number for each. -/
theorem length_numbers {line : Text}
    (h : ∀ item, item ∈ pieces delims line → cast item ≠ none) :
  (numbers cast delims line).length = (pieces delims line).length
  := by
  apply List.filterMap_length_eq_length.mpr
  intro item hitem
  apply Option.isSome_iff_ne_none.mpr (h item hitem)

/-- `split_new_v1` skips the tokens that are not numbers, and counts the others, exactly if all are
numbers and an `int` can hold how many there are. -/
theorem splitNumbers_skips_iff (cast : Text → Option τ) (line delims : Text) (tokens : List τ) :
  SkipsMalformed cast line delims tokens ↔
    (∀ item, item ∈ pieces delims line → cast item ≠ none) ∧
      (pieces delims line).length < 2 ^ 31
  := by
  constructor
  · rintro ⟨fuel, hfuel⟩
    have heq := splitNumbersLoop_eq hfuel
    have hlt := splitNumbersLoop_lt hfuel (Nat.two_pow_pos 31)
    rw [← splitNewV1] at heq
    rcases hsplit : splitNewV1 cast line delims tokens with ⟨_ | n, tokens'⟩
    · rw [hsplit] at heq
      cases heq
    · obtain ⟨values, hvalues, -, -⟩ := splitNewV1_eq_some_iff.mp hsplit
      have hcast := (mapM_eq_filterMap hvalues).2
      use hcast
      rw [← length_numbers hcast]
      apply hlt
  · rintro ⟨hcast, hlt⟩
    have hsplit : splitNewV1 cast line delims tokens =
        (some (numbers cast delims line).length, tokens ++ numbers cast delims line) := by
      apply splitNewV1_eq_some_iff.mpr
      exact ⟨_, mapM_of_forall hcast, rfl, rfl⟩
    rw [← length_numbers hcast] at hlt
    use (findFirstNotOf delims line).length + 1
    apply splitNumbersLoop_of_splitLoop hsplit hlt (Nat.lt_succ_self _)

/-- The number with these decimal digits. -/
def ofDigits (item : Text) : Option ℕ :=
  if item.all Char.isDigit then some (item.foldl (fun n c => 10 * n + (c.toNat - 48)) 0) else none

/-- On a line with the tokens `1`, `x` and `2` the second one is not a number. -/
theorem splitNumbers_not_skips :
  ¬ SkipsMalformed ofDigits ['1', '\t', 'x', '\t', '2'] ['\t'] []
  := by
  rintro ⟨fuel, hfuel⟩
  have hloop := splitNumbersLoop_eq hfuel
  have hthrows : splitLoop ofDigits ['\t']
      (findFirstNotOf ['\t'] ['1', '\t', 'x', '\t', '2']) [] 0 = (none, [1]) := by
    decide +kernel
  rw [hthrows] at hloop
  cases hloop

end Text
