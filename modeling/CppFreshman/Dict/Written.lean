import CppFreshman.Dict.LastValue

/-!
# Dictionaries that have been written

A table is written as a file with a line for each row: the key, a tab and the value.  Either
dictionary loads the file, however the keys and values are printed as long as they are read back,
and then has the rows of the table (`load_written`): `OfferBidRatio` the first one with a key and
`CommonFileDict` the last one.
-/

universe u v

namespace Text

variable {delims token rest : Text}

/-- The text is not empty and has none of the delimiters. -/
structure IsToken (delims text : Text) : Prop where
  nonempty : text ≠ []
  clean : ∀ c, c ∈ text → c ∉ delims

instance (delims text : Text) : Decidable (∀ c, c ∈ text → c ∉ delims) :=
  List.decidableBAll (· ∉ delims) text

instance (delims text : Text) : Decidable (IsToken delims text) :=
  decidable_of_iff (text ≠ [] ∧ ∀ c, c ∈ text → c ∉ delims)
    ⟨fun h => ⟨h.1, h.2⟩, fun h => ⟨h.nonempty, h.clean⟩⟩

/-- A token before a delimiter, or at the end of the line, is the first piece of it. -/
theorem pieces_token_append (h : IsToken delims token) (hrest : ∀ c, c ∈ rest.head? → c ∈ delims) :
  pieces delims (token ++ rest) = token :: pieces delims rest
  := by
  have htoken : ∀ c, c ∈ token → decide (c ∉ delims) = true := by
    intro c hc
    rw [decide_eq_true_eq]
    apply h.clean c hc
  have hend : rest.takeWhile (· ∉ delims) = [] ∧ rest.dropWhile (· ∉ delims) = rest := by
    cases rest with
    | nil => exact ⟨rfl, rfl⟩
    | cons c rest =>
        have hc := hrest c rfl
        constructor
        · rw [List.takeWhile_cons_of_neg (by simpa using hc)]
        · rw [List.dropWhile_cons_of_neg (by simpa using hc)]
  obtain ⟨c, cs, rfl⟩ := List.exists_cons_of_ne_nil h.nonempty
  rw [List.cons_append, pieces_cons_of_not_mem (h.clean c List.mem_cons_self), Text.token,
    findFirstOf, ← List.cons_append, List.takeWhile_append_of_pos htoken,
    List.dropWhile_append_of_pos htoken, hend.1, hend.2, List.append_nil]

/-- A line without a newline is the first of the lines. -/
theorem splitOn_line {line rest : Text} (h : '\n' ∉ line) :
  (line ++ '\n' :: rest).splitOn '\n' = line :: rest.splitOn '\n'
  := by
  have hline : ∀ c, c ∈ line → decide (c ≠ '\n') = true := by
    rintro c hc
    rw [decide_eq_true_eq]
    rintro rfl
    exact h hc
  have hgetline : getline (line ++ '\n' :: rest) = (line, some rest) := by
    rw [getline, List.takeWhile_append_of_pos hline, List.dropWhile_append_of_pos hline]
    simp
  rw [splitOn_getline, hgetline]

end Text

namespace Dict

open Text

variable {K : Type u} {V δ : Type v}

/-- A line with a key and a value. -/
def writeLine (tokens : Text × Text) : Text :=
  tokens.1 ++ '\t' :: tokens.2

/-- A file with these keys and values. -/
def write (table : List (Text × Text)) : Text :=
  table.flatMap fun tokens => writeLine tokens ++ ['\n']

/-- The key and the value can stand on a line of a file. -/
def Writable (tokens : Text × Text) : Prop :=
  IsToken ['\t', '\n'] tokens.1 ∧ IsToken ['\t', '\n'] tokens.2

variable {tokens : Text × Text} {table : List (Text × Text)}

/-- The pieces of a line are the key and the value. -/
theorem pieces_writeLine (h : Writable tokens) :
  pieces ['\t'] (writeLine tokens) = [tokens.1, tokens.2]
  := by
  have hclean : ∀ {text : Text}, IsToken ['\t', '\n'] text → IsToken ['\t'] text := by
    intro text htext
    use htext.nonempty
    intro c hc hmem
    obtain rfl := List.mem_singleton.mp hmem
    apply htext.clean _ hc List.mem_cons_self
  have hvalue : pieces ['\t'] tokens.2 = [tokens.2] := by
    have hend : ∀ c, c ∈ ([] : Text).head? → c ∈ ['\t'] := nofun
    have hpieces := pieces_token_append (hclean h.2) hend
    rwa [List.append_nil, pieces_nil] at hpieces
  rw [writeLine, pieces_token_append (hclean h.1), pieces_cons_of_mem List.mem_cons_self, hvalue]
  intro c hc
  obtain rfl := Option.some.inj hc
  apply List.mem_cons_self

/-- The lines of a file that has been written are those of the table, and an empty one. -/
theorem splitOn_write (h : ∀ tokens, tokens ∈ table → Writable tokens) :
  (write table).splitOn '\n' = table.map writeLine ++ [[]]
  := by
  induction table with
  | nil => rfl
  | cons tokens table ih =>
      have hline : '\n' ∉ writeLine tokens := by
        obtain ⟨hkey, hvalue⟩ := h tokens List.mem_cons_self
        rw [writeLine, List.mem_append, List.mem_cons]
        rintro (hmem | heq | hmem)
        · apply hkey.clean '\n' hmem (by decide)
        · revert heq
          decide
        · apply hvalue.clean '\n' hmem (by decide)
      rw [write, List.flatMap_cons, List.append_assoc, List.singleton_append,
        splitOn_line hline, ← write, ih fun t ht => h t (List.mem_cons_of_mem tokens ht)]
      rfl

/-! ### `CommonFileDict` -/

/-- The tokens are read as the row. -/
structure Casts.Reads (casts : Casts K V) (tokens : Text × Text) (r : K × V) : Prop where
  writable : Writable tokens
  key : casts.key tokens.1 = some r.1
  value : casts.value tokens.2 = some r.2

theorem Casts.Reads.row {casts : Casts K V} {r : K × V} (h : casts.Reads tokens r) :
  row casts (writeLine tokens) = some r
  := row_of_pieces (pieces_writeLine h.writable) h.key h.value

/-- A file that has been written has the rows of the table. -/
theorem rows_write {casts : Casts K V} {print : K × V → Text × Text} {table : List (K × V)}
    (h : ∀ r, r ∈ table → casts.Reads (print r) r) :
  rows casts (write (table.map print)) = table
  := by
  have hwritable : ∀ tokens, tokens ∈ table.map print → Writable tokens := by
    intro tokens htokens
    obtain ⟨r, hr, rfl⟩ := List.mem_map.mp htokens
    apply (h r hr).writable
  rw [rows, splitOn_write hwritable, List.filterMap_append, List.map_map, List.filterMap_map]
  have hempty : [([] : Text)].filterMap (row casts) = [] := by
    simp [row]
  rw [hempty, List.append_nil]
  clear hwritable hempty
  induction table with
  | nil => rfl
  | cons r table ih =>
      have hr : (row casts ∘ writeLine ∘ print) r = some r := (h r List.mem_cons_self).row
      rw [List.filterMap_cons_some hr, ih fun r' hr' => h r' (List.mem_cons_of_mem r hr')]

theorem Casts.Reads.castable {casts : Casts K V} {r : K × V} (h : casts.Reads tokens r) :
  Castable casts (writeLine tokens)
  := by
  intro item₀ item₁ items hpieces
  rw [pieces_writeLine h.writable] at hpieces
  obtain ⟨rfl, hrest⟩ := List.cons.inj hpieces
  obtain ⟨rfl, -⟩ := List.cons.inj hrest
  exact ⟨r.1, r.2, h.key, h.value⟩

variable [DecidableEq K]

/-- A file that has been written is loaded, and a key has its value in the last row with it. -/
theorem CommonFileDict.load_write {casts : Casts K V} {print : K × V → Text × Text}
    {table : List (K × V)} (h : ∀ r, r ∈ table → casts.Reads (print r) r) :
  ∃ mapping, load casts (some (write (table.map print))) (fun _ => none) = some (true, mapping) ∧
    ∀ key, getKey casts mapping key = (table.reverse.lookup key).getD casts.unset
  := by
  have hwritable : ∀ tokens, tokens ∈ table.map print → Writable tokens := by
    intro tokens htokens
    obtain ⟨r, hr, rfl⟩ := List.mem_map.mp htokens
    apply (h r hr).writable
  have hcast : ∀ line, line ∈ (write (table.map print)).splitOn '\n' → Castable casts line := by
    intro line hline
    rw [splitOn_write hwritable] at hline
    rcases List.mem_append.mp hline with hline | hline
    · obtain ⟨tokens, htokens, rfl⟩ := List.mem_map.mp hline
      obtain ⟨r, hr, rfl⟩ := List.mem_map.mp htokens
      apply (h r hr).castable
    · obtain rfl := List.mem_singleton.mp hline
      intro item₀ item₁ items hpieces
      rw [pieces_nil] at hpieces
      cases hpieces
  obtain ⟨mapping, hfold, -⟩ := foldlM_lastValue hcast
  use mapping
  constructor
  · rw [load, readLines_eq_foldlM, hfold]
    rfl
  · intro key
    have hkey := foldlM_apply hfold key
    rw [← rows, rows_write h, Option.or_none] at hkey
    rw [getKey, hkey]
    cases table.reverse.lookup key <;> rfl

/-! ### `OfferBidRatio` -/

/-- The tokens are read as the row, and a key is one that a double holds exactly. -/
structure Doubles.Reads (doubles : Doubles δ) (tokens : Text × Text) (r : ℤ × δ) : Prop where
  reads : doubles.casts.Reads tokens r
  double : (doubles.castDouble tokens.1).isSome
  exact : r.1.natAbs ≤ 2 ^ 53

/-- A line that has been written is a row, if its key has no value yet. -/
theorem OfferBidRatio.loadLine_writeLine {doubles : Doubles δ} {r : ℤ × δ}
    (h : doubles.Reads tokens r) (ratio : ℤ → Option δ) :
  loadLine doubles ratio (writeLine tokens) = some (emplace ratio r.1 r.2)
  := by
  obtain ⟨d, hd⟩ := Option.isSome_iff_exists.mp h.double
  have hvalue : doubles.castDouble tokens.2 = some r.2 := h.reads.value
  have hkey := doubles.exact h.reads.key h.exact hd
  have hnot : (writeLine tokens).length ≠ 0 := by
    rw [writeLine, List.length_append, List.length_cons]
    omega
  have hsplit : splitNewV1 doubles.castDouble (writeLine tokens) ['\t'] [] =
      (some 2, [d, r.2]) := by
    apply splitNewV1_eq_some_iff.mpr
    refine ⟨[d, r.2], ?_, rfl, rfl⟩
    rw [pieces_writeLine h.reads.writable]
    simp [hd, hvalue]
  rw [loadLine, if_neg hnot, hsplit, ← hkey]

theorem OfferBidRatio.loadLine_nil (doubles : Doubles δ) (ratio : ℤ → Option δ) :
  loadLine doubles ratio [] = some ratio
  := by
  rw [loadLine, if_pos List.length_nil]

/-- The rows of the lines that have been written, of which the first one with a key counts. -/
theorem OfferBidRatio.foldlM_writeLine {doubles : Doubles δ} {print : ℤ × δ → Text × Text}
    {table : List (ℤ × δ)} (h : ∀ r, r ∈ table → doubles.Reads (print r) r)
    (ratio : ℤ → Option δ) :
  ∃ ratio', ((table.map print).map writeLine).foldlM (loadLine doubles) ratio = some ratio' ∧
    ∀ key, ratio' key = (ratio key).or (table.lookup key)
  := by
  induction table generalizing ratio with
  | nil =>
      use ratio, rfl
      intro key
      rw [List.lookup_nil, Option.or_none]
  | cons r table ih =>
      obtain ⟨ratio', hfold, hlookup⟩ :=
        ih (fun r' hr' => h r' (List.mem_cons_of_mem r hr')) (emplace ratio r.1 r.2)
      use ratio'
      constructor
      · rw [List.map_cons, List.map_cons, List.foldlM_cons,
          loadLine_writeLine (h r List.mem_cons_self)]
        exact hfold
      · intro key
        rw [hlookup, emplace_eq_or, Option.or_assoc, lookup_cons_eq_or]

/-- A file that has been written is loaded, and a key has its value in the first row with it. -/
theorem OfferBidRatio.load_write {doubles : Doubles δ} {print : ℤ × δ → Text × Text}
    {table : List (ℤ × δ)} (h : ∀ r, r ∈ table → doubles.Reads (print r) r) :
  ∃ ratio, load doubles (some (write (table.map print))) (fun _ => none) = some (true, ratio) ∧
    ∀ key, getKey doubles ratio key = (table.lookup key).getD doubles.zero
  := by
  have hwritable : ∀ tokens, tokens ∈ table.map print → Writable tokens := by
    intro tokens htokens
    obtain ⟨r, hr, rfl⟩ := List.mem_map.mp htokens
    apply (h r hr).reads.writable
  obtain ⟨ratio, hfold, hlookup⟩ := foldlM_writeLine h fun _ => none
  use ratio
  constructor
  · rw [load, readLines_eq_foldlM, splitOn_write hwritable, List.foldlM_append, hfold,
      Option.bind_eq_bind, Option.bind_some, List.foldlM_cons, loadLine_nil]
    rfl
  · intro key
    rw [getKey, hlookup, Option.none_or]
    cases table.lookup key <;> rfl

/-! ### Both dictionaries -/

/-- The first row with a key is the row itself, if no key is twice in the table. -/
theorem lookup_of_nodup {table : List (K × V)} (h : (table.map Prod.fst).Nodup) {r : K × V}
    (hr : r ∈ table) :
  table.lookup r.1 = some r.2
  := by
  induction table with
  | nil => cases hr
  | cons r' table ih =>
      obtain ⟨hnot, hnodup⟩ := List.nodup_cons.mp h
      rw [lookup_cons_eq_or]
      rcases List.mem_cons.mp hr with rfl | hr
      · rw [if_pos rfl, Option.some_or]
      · have hne : r.1 ≠ r'.1 := by
          intro heq
          apply hnot
          rw [← heq]
          apply List.mem_map_of_mem hr
        rw [if_neg hne, Option.none_or, ih hnodup hr]

/-- A table is written as a file, in whatever way its keys and values are printed that can stand on
a line and are read back.  Both dictionaries load the file.  For a key `OfferBidRatio` then has the
value in the first row with it, and `CommonFileDict` that in the last one, and both have 0 if there
is none; so they have the rows of the table if no key is there twice. -/
theorem load_written {doubles : Doubles δ} {print : ℤ × δ → Text × Text} {table : List (ℤ × δ)}
    (h : ∀ r, r ∈ table → doubles.Reads (print r) r) :
  ∃ ratio mapping,
    OfferBidRatio.load doubles (some (write (table.map print))) (fun _ => none) =
      some (true, ratio) ∧
    CommonFileDict.load doubles.casts (some (write (table.map print))) (fun _ => none) =
      some (true, mapping) ∧
    (∀ key, OfferBidRatio.getKey doubles ratio key = (table.lookup key).getD doubles.zero ∧
      CommonFileDict.getKey doubles.casts mapping key =
        (table.reverse.lookup key).getD doubles.zero) ∧
    ((table.map Prod.fst).Nodup → ∀ r, r ∈ table →
      OfferBidRatio.getKey doubles ratio r.1 = r.2 ∧
        CommonFileDict.getKey doubles.casts mapping r.1 = r.2)
  := by
  obtain ⟨ratio, hratio, hfirst⟩ := OfferBidRatio.load_write h
  obtain ⟨mapping, hmapping, hlast⟩ := CommonFileDict.load_write fun r hr => (h r hr).reads
  refine ⟨ratio, mapping, hratio, hmapping, fun key => ⟨hfirst key, hlast key⟩, ?_⟩
  intro hnodup r hr
  have hreverse : (table.reverse.map Prod.fst).Nodup := by
    rw [List.map_reverse]
    apply (List.reverse_perm _).nodup_iff.mpr hnodup
  rw [hfirst, hlast, lookup_of_nodup hnodup hr, lookup_of_nodup hreverse (List.mem_reverse.mpr hr)]
  exact ⟨rfl, rfl⟩

/-- The digit of a number below 10. -/
def digit (n : ℤ) : Text :=
  [Char.ofNat (48 + n.toNat)]

/-- The file of the rows 1, 2 and 3, 4 and 1, 5. -/
def threeRows : Text :=
  ['1', '\t', '2', '\n', '3', '\t', '4', '\n', '1', '\t', '5', '\n']

theorem load_written_threeRows :
  ∃ ratio mapping,
    OfferBidRatio.load decimal (some threeRows) (fun _ => none) = some (true, ratio) ∧
    CommonFileDict.load decimal.casts (some threeRows) (fun _ => none) = some (true, mapping) ∧
    OfferBidRatio.getKey decimal ratio 1 = 2 ∧
    CommonFileDict.getKey decimal.casts mapping 1 = 5
  := by
  have hreads : ∀ r, r ∈ ([(1, 2), (3, 4), (1, 5)] : List (ℤ × ℤ)) →
      decimal.Reads (digit r.1, digit r.2) r := by
    intro r hr
    simp only [List.mem_cons, List.not_mem_nil, or_false] at hr
    obtain rfl | rfl | rfl := hr
    all_goals
      refine ⟨⟨?_, by decide, by decide⟩, by decide, by simp⟩
      unfold Writable
      decide
  obtain ⟨ratio, mapping, hratio, hmapping, hget, -⟩ := load_written hreads
  obtain ⟨hfirst, hlast⟩ := hget 1
  exact ⟨ratio, mapping, hratio, hmapping, hfirst, hlast⟩

end Dict
