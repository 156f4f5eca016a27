import CppFreshman.Text.Split
import Mathlib.Logic.Function.Basic

/-!
# Dictionaries loaded from files

`OfferBidRatio` and `CommonFileDict` read the lines of a file, split each at its tabs and store
the value in the second token under the key in the first.  Both skip the lines with fewer than
two tokens.  `OfferBidRatio` reads all tokens of a line as doubles and keeps the value a key has
first, and `CommonFileDict` reads only these two and keeps the value a key has last
(`getKey_first_last`).
-/

universe u v

namespace Dict

open Text

variable {K : Type u} {V δ : Type v}

/-- The types of the keys and values of a `CommonFileDict`: the casts of tokens to them and
`V()`. -/
structure Casts (K : Type u) (V : Type v) where
  key : Text → Option K
  value : Text → Option V
  unset : V

/-- The doubles: the casts of tokens to doubles and to 64-bit integers, the conversion of a
double to a 64-bit integer and the double 0.  An integer of at most 53 bits is converted
exactly. -/
structure Doubles (δ : Type v) where
  castDouble : Text → Option δ
  castInt64 : Text → Option ℤ
  toInt64 : δ → ℤ
  zero : δ
  exact : ∀ {s k d}, castInt64 s = some k → k.natAbs ≤ 2 ^ 53 → castDouble s = some d →
    toInt64 d = k

/-- The types of the keys and values of `CommonFileDict<int64_t, double, std::map>`. -/
def Doubles.casts (doubles : Doubles δ) : Casts ℤ δ where
  key := doubles.castInt64
  value := doubles.castDouble
  unset := doubles.zero

/-- The key and the value on a line, if it has at least two tokens that can be cast. -/
def row (casts : Casts K V) (line : Text) : Option (K × V) :=
  match pieces ['\t'] line with
  | item₀ :: item₁ :: _ =>
      (casts.key item₀).bind fun key => (casts.value item₁).map fun value => (key, value)
  | _ => none

/-- The keys and the values on the lines of a file. -/
def rows (casts : Casts K V) (content : Text) : List (K × V) :=
  (content.splitOn '\n').filterMap (row casts)

/-- The first two tokens of a line can be cast to a key and a value. -/
def Castable (casts : Casts K V) (line : Text) : Prop :=
  ∀ item₀ item₁ items, pieces ['\t'] line = item₀ :: item₁ :: items →
    ∃ key value, casts.key item₀ = some key ∧ casts.value item₁ = some value

theorem row_of_pieces {casts : Casts K V} {line item₀ item₁ : Text} {items : List Text}
    {key : K} {value : V} (h : pieces ['\t'] line = item₀ :: item₁ :: items)
    (hkey : casts.key item₀ = some key) (hvalue : casts.value item₁ = some value) :
  row casts line = some (key, value)
  := by
  simp [row, h, hkey, hvalue]

variable [DecidableEq K]

/-- The body of the loop of `CommonFileDict::load`. -/
def CommonFileDict.loadLine (casts : Casts K V) (mapping : K → Option V) (line : Text) :
    Option (K → Option V) :=
  if line.length = 0 then some mapping
  else
    match splitNewV1 some line ['\t'] [] with
    | (none, _) => none
    | (some _, item₀ :: item₁ :: _) =>
        (casts.key item₀).bind fun key =>
          (casts.value item₁).map fun value => Function.update mapping key (some value)
    | (some _, _) => some mapping

/-- `CommonFileDict::load`: what it returns and the mapping, `none` if an exception leaves it.
The file is `none` if it is not a regular file that can be read. -/
def CommonFileDict.load (casts : Casts K V) (file : Option Text) (mapping : K → Option V) :
    Option (Bool × (K → Option V)) :=
  match file with
  | none => some (false, mapping)
  | some content => (readLines (loadLine casts) mapping content).map fun mapping =>
      (true, mapping)

/-- `CommonFileDict::get_key`. -/
def CommonFileDict.getKey (casts : Casts K V) (mapping : K → Option V) (key : K) : V :=
  match mapping key with
  | some value => value
  | none => casts.unset

/-- `std::map::emplace`, which leaves the value of a key that is present. -/
def emplace (mapping : K → Option V) (key : K) (value : V) : K → Option V :=
  match mapping key with
  | some _ => mapping
  | none => Function.update mapping key (some value)

/-- The body of the loop of `OfferBidRatio::load`. -/
def OfferBidRatio.loadLine (doubles : Doubles δ) (ratio : ℤ → Option δ) (line : Text) :
    Option (ℤ → Option δ) :=
  if line.length = 0 then some ratio
  else
    match splitNewV1 doubles.castDouble line ['\t'] [] with
    | (none, _) => none
    | (some _, item₀ :: item₁ :: _) => some (emplace ratio (doubles.toInt64 item₀) item₁)
    | (some _, _) => some ratio

/-- `OfferBidRatio::load`: what it returns and the ratios, `none` if an exception leaves it. -/
def OfferBidRatio.load (doubles : Doubles δ) (file : Option Text) (ratio : ℤ → Option δ) :
    Option (Bool × (ℤ → Option δ)) :=
  match file with
  | none => some (false, ratio)
  | some content => (readLines (loadLine doubles) ratio content).map fun ratio => (true, ratio)

/-- `OfferBidRatio::get_key`. -/
def OfferBidRatio.getKey (doubles : Doubles δ) (ratio : ℤ → Option δ) (key : ℤ) : δ :=
  match ratio key with
  | some value => value
  | none => doubles.zero

/-- The keys of a file are integers of at most 53 bits. -/
def KeysExact (doubles : Doubles δ) (content : Text) : Prop :=
  ∀ line ∈ content.splitOn '\n', ∀ item₀ item₁ items,
    pieces ['\t'] line = item₀ :: item₁ :: items →
      ∀ key, doubles.castInt64 item₀ = some key → key.natAbs ≤ 2 ^ 53

theorem CommonFileDict.loadLine_eq (casts : Casts K V) (mapping : K → Option V) (line : Text) :
  loadLine casts mapping line =
    match pieces ['\t'] line with
    | item₀ :: item₁ :: _ =>
        (casts.key item₀).bind fun key =>
          (casts.value item₁).map fun value => Function.update mapping key (some value)
    | _ => some mapping
  := by
  rw [loadLine]
  split
  · rename_i hnil
    rw [List.length_eq_zero_iff.mp hnil, pieces_nil]
  · rw [splitNewV1_string, List.nil_append]
    rcases pieces ['\t'] line with _ | ⟨item₀, _ | ⟨item₁, items⟩⟩ <;> rfl

theorem OfferBidRatio.loadLine_eq_some {doubles : Doubles δ} {ratio ratio' : ℤ → Option δ}
    {line : Text} (h : loadLine doubles ratio line = some ratio') :
  ∃ items, (pieces ['\t'] line).mapM doubles.castDouble = some items ∧
    ratio' = match items with
      | item₀ :: item₁ :: _ => emplace ratio (doubles.toInt64 item₀) item₁
      | _ => ratio
  := by
  rw [loadLine] at h
  split at h
  · rename_i hnil
    rw [List.length_eq_zero_iff.mp hnil, pieces_nil]
    use []
    simpa [eq_comm] using h
  · rcases hsplit : splitNewV1 doubles.castDouble line ['\t'] [] with ⟨_ | n, items⟩
    · rw [hsplit] at h
      cases h
    · obtain ⟨values, hvalues, rfl, -⟩ := splitNewV1_eq_some_iff.mp hsplit
      rw [hsplit] at h
      use items, hvalues
      rcases items with _ | ⟨item₀, _ | ⟨item₁, items⟩⟩ <;> apply (Option.some.inj h).symm

/-- A line that `CommonFileDict` completes overwrites the value of its key. -/
theorem CommonFileDict.loadLine_eq_some {casts : Casts K V} {mapping mapping' : K → Option V}
    {line : Text} (h : loadLine casts mapping line = some mapping') :
  Castable casts line ∧
    mapping' = (row casts line).elim mapping fun r => Function.update mapping r.1 (some r.2)
  := by
  rw [loadLine_eq] at h
  rcases hpieces : pieces ['\t'] line with _ | ⟨item₀, _ | ⟨item₁, items⟩⟩
  · rw [hpieces] at h
    simpa [Castable, row, hpieces, eq_comm] using h
  · rw [hpieces] at h
    simpa [Castable, row, hpieces, eq_comm] using h
  · rw [hpieces] at h
    obtain ⟨key, hkey, h⟩ := Option.bind_eq_some_iff.mp h
    obtain ⟨value, hvalue, rfl⟩ := Option.map_eq_some_iff.mp h
    constructor
    · intro _ _ _ hpieces'
      rw [hpieces] at hpieces'
      obtain ⟨rfl, rfl, -⟩ := by simpa using hpieces'
      use key, value
    · rw [row_of_pieces hpieces hkey hvalue]
      rfl

/-- A line that both dictionaries complete gives its key a value if it has none. -/
theorem OfferBidRatio.loadLine_of_castable {doubles : Doubles δ} {ratio ratio' : ℤ → Option δ}
    {line : Text} (h : loadLine doubles ratio line = some ratio')
    (hcast : Castable doubles.casts line)
    (hexact : ∀ item₀ item₁ items, pieces ['\t'] line = item₀ :: item₁ :: items →
      ∀ key, doubles.castInt64 item₀ = some key → key.natAbs ≤ 2 ^ 53) :
  ratio' = (row doubles.casts line).elim ratio fun r => emplace ratio r.1 r.2
  := by
  obtain ⟨values, hvalues, rfl⟩ := loadLine_eq_some h
  rcases hpieces : pieces ['\t'] line with _ | ⟨item₀, _ | ⟨item₁, items⟩⟩
  · rw [hpieces] at hvalues
    obtain rfl := Option.some.inj hvalues
    simp [row, hpieces]
  · rw [hpieces] at hvalues
    obtain ⟨value, -, hvalues⟩ := Option.bind_eq_some_iff.mp (List.mapM_cons.symm.trans hvalues)
    obtain rfl := Option.some.inj hvalues
    simp [row, hpieces]
  · obtain ⟨key, value, hkey, hvalue⟩ := hcast _ _ _ hpieces
    rw [hpieces, List.mapM_cons] at hvalues
    obtain ⟨d, hd, hvalues⟩ := Option.bind_eq_some_iff.mp hvalues
    obtain ⟨ds, hds, hcons⟩ := Option.bind_eq_some_iff.mp hvalues
    obtain rfl := Option.some.inj hcons
    rw [List.mapM_cons] at hds
    obtain ⟨e, he, hvalues⟩ := Option.bind_eq_some_iff.mp hds
    obtain ⟨es, -, hcons⟩ := Option.bind_eq_some_iff.mp hvalues
    obtain rfl := Option.some.inj hcons
    obtain rfl := Option.some.inj (hvalue.symm.trans he)
    have hint := doubles.exact hkey (hexact _ _ _ hpieces key hkey) hd
    simp only [row_of_pieces hpieces hkey hvalue, Option.elim_some, hint]

theorem lookup_cons_eq_or (r : K × V) (l : List (K × V)) (key : K) :
  (r :: l).lookup key = (if key = r.1 then some r.2 else none).or (l.lookup key)
  := by
  obtain ⟨key', value⟩ := r
  rw [List.lookup_cons]
  rcases Classical.em (key = key') with rfl | h
  · simp
  · have hne : (key == key') = false := by simpa using h
    simp [h, hne]

theorem update_eq_or (mapping : K → Option V) (r : K × V) (key : K) :
  Function.update mapping r.1 (some r.2) key =
    (if key = r.1 then some r.2 else none).or (mapping key)
  := by
  rcases Classical.em (key = r.1) with rfl | h
  · simp
  · simp [h]

/-- A key that is present keeps its value. -/
theorem emplace_eq_or (mapping : K → Option V) (r : K × V) (key : K) :
  emplace mapping r.1 r.2 key = (mapping key).or (if key = r.1 then some r.2 else none)
  := by
  rw [emplace]
  cases hr : mapping r.1 with
  | none =>
      rcases Classical.em (key = r.1) with rfl | h
      · simp [hr]
      · simp [h]
  | some value =>
      rcases Classical.em (key = r.1) with rfl | h
      · simp [hr]
      · simp [h]

/-- The value `CommonFileDict` has for a key after some lines. -/
theorem CommonFileDict.foldlM_apply {casts : Casts K V} {mapping mapping' : K → Option V}
    {lines : List Text} (h : lines.foldlM (loadLine casts) mapping = some mapping') (key : K) :
  mapping' key = ((lines.filterMap (row casts)).reverse.lookup key).or (mapping key)
  := by
  induction lines generalizing mapping with
  | nil =>
      obtain rfl := Option.some.inj h
      rfl
  | cons line lines ih =>
      rw [List.foldlM_cons] at h
      obtain ⟨mapping₁, hline, h⟩ := Option.bind_eq_some_iff.mp h
      obtain ⟨-, rfl⟩ := loadLine_eq_some hline
      rw [ih h, List.filterMap_cons]
      cases row casts line with
      | none => rfl
      | some r =>
          rw [List.reverse_cons, List.lookup_append, Option.or_assoc, lookup_cons_eq_or,
            Option.elim_some, update_eq_or]
          simp

theorem CommonFileDict.castable_of_foldlM {casts : Casts K V} {mapping mapping' : K → Option V}
    {lines : List Text} (h : lines.foldlM (loadLine casts) mapping = some mapping') :
  ∀ line ∈ lines, Castable casts line
  := by
  induction lines generalizing mapping with
  | nil => simp
  | cons line lines ih =>
      rw [List.foldlM_cons] at h
      obtain ⟨mapping₁, hline, h⟩ := Option.bind_eq_some_iff.mp h
      rw [List.forall_mem_cons]
      use (loadLine_eq_some hline).1, ih h

/-- The value `OfferBidRatio` has for a key after some lines that `CommonFileDict` completes. -/
theorem OfferBidRatio.foldlM_apply {doubles : Doubles δ} {ratio ratio' : ℤ → Option δ}
    {lines : List Text} (h : lines.foldlM (loadLine doubles) ratio = some ratio')
    (hcast : ∀ line ∈ lines, Castable doubles.casts line)
    (hexact : ∀ line ∈ lines, ∀ item₀ item₁ items,
      pieces ['\t'] line = item₀ :: item₁ :: items →
        ∀ key, doubles.castInt64 item₀ = some key → key.natAbs ≤ 2 ^ 53) (key : ℤ) :
  ratio' key = (ratio key).or ((lines.filterMap (row doubles.casts)).lookup key)
  := by
  induction lines generalizing ratio with
  | nil =>
      obtain rfl := Option.some.inj h
      simp
  | cons line lines ih =>
      rw [List.foldlM_cons] at h
      rw [List.forall_mem_cons] at hcast hexact
      obtain ⟨ratio₁, hline, h⟩ := Option.bind_eq_some_iff.mp h
      obtain rfl := loadLine_of_castable hline hcast.1 hexact.1
      rw [ih h hcast.2 hexact.2, List.filterMap_cons]
      cases row doubles.casts line with
      | none => rfl
      | some r =>
          rw [Option.elim_some, emplace_eq_or, lookup_cons_eq_or, Option.or_assoc]

/-- A key is on a line of a file from its beginning exactly if it is on one from its end. -/
theorem lookup_eq_none_iff_reverse (l : List (K × V)) (key : K) :
  l.lookup key = none ↔ l.reverse.lookup key = none
  := by
  simp

/-- Take any file that both dictionaries load and whose keys are integers of at most 53 bits.
`OfferBidRatio` has for every key the value on the first line with that key and
`CommonFileDict` the value on the last one, and both have 0 for a key on no line.  So they have
the same for a key exactly if the first and the last line with it have. -/
theorem getKey_first_last {doubles : Doubles δ} {content : Text} {ratio mapping : ℤ → Option δ}
    (hkeys : KeysExact doubles content)
    (hratio : OfferBidRatio.load doubles (some content) (fun _ => none) = some (true, ratio))
    (hmapping : CommonFileDict.load doubles.casts (some content) (fun _ => none) =
      some (true, mapping)) (key : ℤ) :
  OfferBidRatio.getKey doubles ratio key =
      ((rows doubles.casts content).lookup key).getD doubles.zero ∧
    CommonFileDict.getKey doubles.casts mapping key =
      ((rows doubles.casts content).reverse.lookup key).getD doubles.zero ∧
    (OfferBidRatio.getKey doubles ratio key = CommonFileDict.getKey doubles.casts mapping key ↔
      (rows doubles.casts content).lookup key = (rows doubles.casts content).reverse.lookup key)
  := by
  have hfoldRatio : (content.splitOn '\n').foldlM (OfferBidRatio.loadLine doubles)
      (fun _ => none) = some ratio := by
    simpa [OfferBidRatio.load, readLines_eq_foldlM] using hratio
  have hfoldMapping : (content.splitOn '\n').foldlM (CommonFileDict.loadLine doubles.casts)
      (fun _ => none) = some mapping := by
    simpa [CommonFileDict.load, readLines_eq_foldlM] using hmapping
  have hfirst := OfferBidRatio.foldlM_apply hfoldRatio
    (CommonFileDict.castable_of_foldlM hfoldMapping) hkeys key
  have hlast := CommonFileDict.foldlM_apply hfoldMapping key
  rw [Option.none_or, ← rows] at hfirst
  rw [Option.or_none, ← rows] at hlast
  have hgetRatio : OfferBidRatio.getKey doubles ratio key =
      ((rows doubles.casts content).lookup key).getD doubles.zero := by
    rw [OfferBidRatio.getKey, hfirst]
    cases (rows doubles.casts content).lookup key <;> rfl
  have hgetMapping : CommonFileDict.getKey doubles.casts mapping key =
      ((rows doubles.casts content).reverse.lookup key).getD doubles.zero := by
    rw [CommonFileDict.getKey, hlast]
    cases (rows doubles.casts content).reverse.lookup key <;> rfl
  use hgetRatio, hgetMapping
  rw [hgetRatio, hgetMapping]
  have hnone := lookup_eq_none_iff_reverse (rows doubles.casts content) key
  cases hf : (rows doubles.casts content).lookup key with
  | none => simp [hnone.mp hf]
  | some value =>
      cases hl : (rows doubles.casts content).reverse.lookup key with
      | none =>
          rw [hnone.mpr hl] at hf
          cases hf
      | some value' => simp

/-- The number with these decimal digits. -/
def digits (s : Text) : Option ℤ :=
  if s ≠ [] ∧ s.all Char.isDigit then some (s.foldl (fun n c => 10 * n + (c.toNat - 48)) 0)
  else none

/-- Casts of decimal numbers. -/
def decimal : Doubles ℤ where
  castDouble := digits
  castInt64 := digits
  toInt64 d := d
  zero := 0
  exact := by
    intro s k d hk _ hd
    apply Option.some.inj (hd.symm.trans hk)

/-- A file with two lines for the key 1. -/
def keyTwice : Text := ['1', '\t', '2', '\n', '1', '\t', '3']

theorem keysExact_keyTwice :
  KeysExact decimal keyTwice
  := by
  have hlines : keyTwice.splitOn '\n' = [['1', '\t', '2'], ['1', '\t', '3']] := by decide +kernel
  have hfirst : pieces ['\t'] ['1', '\t', '2'] = [['1'], ['2']] := by decide +kernel
  have hsecond : pieces ['\t'] ['1', '\t', '3'] = [['1'], ['3']] := by decide +kernel
  have hone : digits ['1'] = some 1 := by decide +kernel
  intro line hline item₀ item₁ items hpieces key hkey
  have hitem : item₀ = ['1'] := by
    rw [hlines] at hline
    obtain rfl | rfl := by simpa using hline
    · apply (List.cons.inj (hpieces.symm.trans hfirst)).1
    · apply (List.cons.inj (hpieces.symm.trans hsecond)).1
  rw [hitem] at hkey
  obtain rfl := Option.some.inj (hkey.symm.trans hone)
  decide

theorem load_keyTwice :
  ∃ ratio mapping,
    OfferBidRatio.load decimal (some keyTwice) (fun _ => none) = some (true, ratio) ∧
    CommonFileDict.load decimal.casts (some keyTwice) (fun _ => none) = some (true, mapping) ∧
    OfferBidRatio.getKey decimal ratio 1 = 2 ∧
    CommonFileDict.getKey decimal.casts mapping 1 = 3
  := by
  have hratio : (OfferBidRatio.load decimal (some keyTwice) (fun _ => none)).any
      (fun r => r.1 && OfferBidRatio.getKey decimal r.2 1 = 2) = true := by decide +kernel
  have hmapping : (CommonFileDict.load decimal.casts (some keyTwice) (fun _ => none)).any
      (fun r => r.1 && CommonFileDict.getKey decimal.casts r.2 1 = 3) = true := by decide +kernel
  obtain ⟨⟨_, ratio⟩, hload, hkey⟩ := (Option.any_eq_true _ _).mp hratio
  obtain ⟨⟨_, mapping⟩, hload', hkey'⟩ := (Option.any_eq_true _ _).mp hmapping
  obtain ⟨rfl, hget⟩ := by simpa using hkey
  obtain ⟨rfl, hget'⟩ := by simpa using hkey'
  use ratio, mapping

/-- The file with two lines for the key 1 is one both dictionaries load. -/
theorem getKey_first_last_keyTwice :
  ∃ ratio mapping,
    OfferBidRatio.load decimal (some keyTwice) (fun _ => none) = some (true, ratio) ∧
    CommonFileDict.load decimal.casts (some keyTwice) (fun _ => none) = some (true, mapping) ∧
    OfferBidRatio.getKey decimal ratio 1 = ((rows decimal.casts keyTwice).lookup 1).getD 0 ∧
    CommonFileDict.getKey decimal.casts mapping 1 =
      ((rows decimal.casts keyTwice).reverse.lookup 1).getD 0
  := by
  obtain ⟨ratio, mapping, hratio, hmapping, -, -⟩ := load_keyTwice
  obtain ⟨hfirst, hlast, -⟩ := getKey_first_last keysExact_keyTwice hratio hmapping 1
  use ratio, mapping, hratio, hmapping, hfirst, hlast

/-- The two dictionaries do not agree on its key. -/
theorem keyTwice_not_agree :
  KeysExact decimal keyTwice ∧
    ∃ ratio mapping,
      OfferBidRatio.load decimal (some keyTwice) (fun _ => none) = some (true, ratio) ∧
      CommonFileDict.load decimal.casts (some keyTwice) (fun _ => none) = some (true, mapping) ∧
      OfferBidRatio.getKey decimal ratio 1 ≠ CommonFileDict.getKey decimal.casts mapping 1
  := by
  obtain ⟨ratio, mapping, hratio, hmapping, hfirst, hlast⟩ := load_keyTwice
  use keysExact_keyTwice, ratio, mapping, hratio, hmapping
  rw [hfirst, hlast]
  decide

end Dict
