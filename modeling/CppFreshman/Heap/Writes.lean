import Mathlib.Data.List.Induction

/-!
# Writes to a memory

A `Write` gives the bytes of an interval new values, which it computes from the old ones.  A byte
that none of the writes of a list covers keeps its value (`writeAll_of_untouched`), one that is
covered only by writes of a constant has that (`writeAll_const`), and an interval that is covered
by one write alone has the values that this computes from the values before all of them
(`writeAll_alone`).
-/

universe u

structure Write (β : Type u) where
  start : ℕ
  size : ℕ
  value : List β → ℕ → β

variable {β : Type u}

/-- The byte at `x` is written. -/
def Write.Covers (w : Write β) (x : ℕ) : Prop :=
  w.start ≤ x ∧ x < w.start + w.size

instance (w : Write β) (x : ℕ) : Decidable (w.Covers x) := by
  unfold Write.Covers
  infer_instance

/-- The bytes of an interval. -/
def bytesAt (memory : ℕ → β) (start size : ℕ) : List β :=
  (List.range size).map fun i => memory (start + i)

def Write.apply (w : Write β) (memory : ℕ → β) : ℕ → β :=
  fun x => if w.Covers x then w.value (bytesAt memory w.start w.size) (x - w.start) else memory x

/-- The memory after the writes, one after the other. -/
def writeAll (ws : List (Write β)) (memory : ℕ → β) : ℕ → β :=
  ws.foldl (fun memory w => w.apply memory) memory

variable {w : Write β} {ws ws' : List (Write β)} {memory : ℕ → β} {x : ℕ}

theorem writeAll_append :
  writeAll (ws ++ ws') memory = writeAll ws' (writeAll ws memory)
  := by
  rw [writeAll, List.foldl_append]
  rfl

theorem Write.apply_of_not_covers (h : ¬ w.Covers x) :
  w.apply memory x = memory x
  := by
  rw [apply, if_neg h]

theorem Write.apply_of_covers (h : w.Covers x) :
  w.apply memory x = w.value (bytesAt memory w.start w.size) (x - w.start)
  := by
  rw [apply, if_pos h]

theorem writeAll_of_untouched (h : ∀ w, w ∈ ws → ¬ w.Covers x) :
  writeAll ws memory x = memory x
  := by
  induction ws generalizing memory with
  | nil => rfl
  | cons w ws ih =>
      rw [writeAll, List.foldl_cons]
      have hrest := @ih (w.apply memory) fun w' hw' => h w' (List.mem_cons_of_mem w hw')
      rw [writeAll] at hrest
      rw [hrest, Write.apply_of_not_covers (h w List.mem_cons_self)]

theorem writeAll_const {v : β} (hcovers : ∃ w, w ∈ ws ∧ w.Covers x)
    (hconst : ∀ w, w ∈ ws → w.Covers x → ∀ bytes i, w.value bytes i = v) :
  writeAll ws memory x = v
  := by
  induction ws using List.reverseRecOn with
  | nil =>
      obtain ⟨w, hw, -⟩ := hcovers
      cases hw
  | append_singleton ws w ih =>
      rw [writeAll_append]
      change w.apply _ x = v
      rcases Decidable.em (w.Covers x) with h | h
      · rw [Write.apply_of_covers h]
        apply hconst w List.mem_concat_self h
      · rw [Write.apply_of_not_covers h]
        apply ih
        · obtain ⟨w', hw', hx⟩ := hcovers
          obtain hw' | hw' := List.mem_append.mp hw'
          · exact ⟨w', hw', hx⟩
          · obtain rfl := List.mem_singleton.mp hw'
            exact absurd hx h
        · intro w' hw'
          apply hconst w' (List.mem_append_left _ hw')

theorem bytesAt_congr {memory' : ℕ → β} {start size : ℕ}
    (h : ∀ x, start ≤ x → x < start + size → memory' x = memory x) :
  bytesAt memory' start size = bytesAt memory start size
  := by
  apply List.map_congr_left
  intro i hi
  rw [List.mem_range] at hi
  apply h <;> omega

theorem writeAll_alone (h : w.Covers x)
    (hbefore : ∀ w', w' ∈ ws → ∀ y, w.Covers y → ¬ w'.Covers y)
    (hafter : ∀ w', w' ∈ ws' → ∀ y, w.Covers y → ¬ w'.Covers y) :
  writeAll (ws ++ w :: ws') memory x =
    w.value (bytesAt memory w.start w.size) (x - w.start)
  := by
  have hsplit : ws ++ w :: ws' = (ws ++ [w]) ++ ws' := by simp
  rw [hsplit, writeAll_append, writeAll_of_untouched fun w' hw' => hafter w' hw' x h,
    writeAll_append]
  change w.apply _ x = _
  rw [Write.apply_of_covers h]
  congr 1
  apply bytesAt_congr
  intro y hle hlt
  apply writeAll_of_untouched
  intro w' hw'
  apply hbefore w' hw' y ⟨hle, hlt⟩
