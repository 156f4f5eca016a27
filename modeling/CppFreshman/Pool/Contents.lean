import CppFreshman.Pool.Owned

/-!
# What is copied into the pools

`create_buffer` with a buffer and `create_cstring_buffer` allocate bytes from a pool and copy bytes
into them, the latter with a null byte behind, on which `create_cstring_view` and
`create_string_piece` rest.  An empty string is not copied: its address is that of a static null
byte, or null.

A `Storage` is the pools of a program with the bytes of the memory.  An event keeps the bytes of
the data of the blocks that are there before and after it, except in a region that it hands out, in
which an object is constructed; all others, the headers of blocks, new blocks and what is in no
block, may be anything afterwards.  A text stays recorded with its pool, and with the one that that
is moved into, as long as its region is.

The regions of all pools have no byte in common (`pools_apart`), and a text reads as it was copied
as long as it is recorded, whatever is done with its pool or any other (`texts_intact`).
-/

namespace StaticMemoryPool

/-- What was copied, and where to. -/
structure Text where
  start : ℕ
  content : List UInt8
  deriving DecidableEq

/-- The region that the text was copied to. -/
def Text.region (t : Text) : Region :=
  ⟨t.start, t.content.length, 1⟩

/-- The pools, the bytes of the memory, and the texts of each pool. -/
structure Storage (κ : Type) where
  world : World κ
  bytes : ℕ → UInt8
  texts : κ → List Text

/-- An event of the pools, or a copy of bytes into one. -/
inductive Command (κ : Type) where
  | event (e : Event κ)
  | createBuffer (k : κ) (buffer : List UInt8)
  | createCstringBuffer (k : κ) (cStr : List UInt8)

/-- The byte is in the data of a block that is there in both memories. -/
def Memory.Kept (m m' : Memory) (x : ℕ) : Prop :=
  ∃ y, y ∈ m.blocks.keys ∧ ∃ b, b ∈ m.blocks.lookup y ∧ ∃ b', b' ∈ m'.blocks.lookup y ∧
    b.serial = b'.serial ∧ y + sizeofBlock ≤ x ∧ x < y + sizeofBlock + b.capacity

instance (m m' : Memory) (x : ℕ) : Decidable (m.Kept m' x) := by
  unfold Memory.Kept
  infer_instance

/-- `memcpy`. -/
def copyBytes (bytes : ℕ → UInt8) (start : ℕ) (content : List UInt8) (x : ℕ) : UInt8 :=
  if start ≤ x then (content[x - start]?).getD (bytes x) else bytes x

/-! ### The regions of the pools -/

variable {κ : Type} {grow : ℕ → ℕ} {w w' : World κ} {L L' : Ledgers κ} {l l' : Ledger} {i j : κ}
  {r r' : Region} {d : Cell} {x : ℕ} {es : List Effect}

/-- The regions of a pool. -/
def World.regions (w : World κ) (k : κ) : List Region :=
  ((w.members k).map Member.regions).getD []

/-- The regions that the event from `w` to `w'` has handed out. -/
def World.handedOut (w w' : World κ) : Event κ → List Region
  | .construct _ _ => []
  | .run k _ => (w'.regions k).filter (· ∉ w.regions k)
  | .moveConstruct _ _ => []
  | .moveAssign _ _ => []
  | .destroy _ => []

/-- The bytes after an event that leads from `m` to `m'` and has handed out the regions `out`;
`noise` are those that are not kept. -/
def keepBytes (m m' : Memory) (out : List Region) (noise bytes : ℕ → UInt8) (x : ℕ) : UInt8 :=
  if m.Kept m' x ∧ ∀ r, r ∈ out → ¬ r.Contains x then bytes x else noise x

/-- The regions of a pool are those of its ledger. -/
theorem Tracks.regions_eq (h : Tracks w L) (hl : L i = some l) :
  w.regions i = l.regions
  := by
  obtain ⟨s, hs, hrep⟩ := h.member hl
  rw [World.regions, hs, ← hrep.regions]
  rfl

/-- A pool that has regions has a ledger. -/
theorem Tracks.of_mem_regions (h : Tracks w L) (hr : r ∈ w.regions i) :
  ∃ l, L i = some l ∧ r ∈ l.regions
  := by
  rcases hl : L i with _ | l
  · rw [World.regions, h.ledger_none.mpr hl] at hr
    cases hr
  · rw [h.regions_eq hl] at hr
    use l

instance : Std.Symm Region.Apart where
  symm _ _ h x hx := h x hx.symm

/-- A region with a byte in it lies in a cell that is in use. -/
theorem Ledger.Sound.within (h : l.Sound) (hr : r ∈ l.regions) :
  ∃ d, d ∈ l.arena.used ∧ r.Within d
  := by
  obtain ⟨c, hc, hplaced⟩ := h.placed r hr
  obtain ⟨d, hd, hwithin⟩ := hplaced.within
  use d
  rw [Arena.used_of_chain hc]
  exact ⟨hd, hwithin⟩

/-- The cell of a ledger is a block of its size. -/
theorem Tracks.lookup (h : Tracks w L) (hl : L i = some l) (hd : d ∈ l.arena.cells) :
  ∃ next, w.memory.blocks.lookup d.addr = some (d.block next)
  := by
  obtain ⟨s, -, hrep⟩ := h.member hl
  apply hrep.shows.holds.held d hd

/-- The regions of different pools have no byte in common. -/
theorem Tracks.regions_apart (h : Tracks w L) (hgood : Good L) (hl : L i = some l)
    (hl' : L j = some l') (hne : i ≠ j) (hr : r ∈ l.regions) (hr' : r' ∈ l'.regions) :
  r.Apart r'
  := by
  obtain ⟨d, hd, hwithin⟩ := (hgood i l hl).2.within hr
  obtain ⟨d', hd', hwithin'⟩ := (hgood j l' hl').2.within hr'
  have hmem := l.arena.used_subset hd
  have hmem' := l'.arena.used_subset hd'
  obtain ⟨next, hlookup⟩ := h.lookup hl hmem
  obtain ⟨next', hlookup'⟩ := h.lookup hl' hmem'
  have haddr : d.addr ≠ d'.addr := by
    intro heq
    apply h.apart i j l l' hl hl' hne d.addr (List.mem_map_of_mem hmem)
    rw [heq]
    apply List.mem_map_of_mem hmem'
  have hapart := h.sane.apart _ _ _ _ hlookup hlookup' haddr
  rw [h.size_eq hgood hlookup, h.size_eq hgood hlookup'] at hapart
  have hcapacity : (d.block next).capacity = d.capacity := rfl
  have hcapacity' : (d'.block next').capacity = d'.capacity := rfl
  rw [hcapacity, hcapacity'] at hapart
  rintro x ⟨⟨hlo, hhi⟩, hlo', hhi'⟩
  simp only [Region.Within, Cell.data, Cell.limit] at hwithin hwithin'
  omega

/-- Two regions that the pools have have no byte in common, unless they are the same. -/
theorem Tracks.apart_of_ne (h : Tracks w L) (hgood : Good L) (hl : L i = some l)
    (hl' : L j = some l') (hr : r ∈ l.regions) (hr' : r' ∈ l'.regions) (hne : r ≠ r') :
  r.Apart r'
  := by
  rcases Classical.em (i = j) with rfl | hij
  · obtain rfl := Option.some.inj (hl.symm.trans hl')
    have hapart := (List.pairwise_append.mp (hgood i l hl).2.apart).2.1
    apply hapart.forall hr hr' hne
  · apply h.regions_apart hgood hl hl' hij hr hr'

/-- The data of a cell that is there before and after an event is kept. -/
theorem Tracks.kept (h : Tracks w L) (h' : Tracks w' L') (hl : L i = some l)
    (hl' : L' j = some l') (hd : d ∈ l.arena.cells) (hd' : d ∈ l'.arena.cells) (hlo : d.data ≤ x)
    (hhi : x < d.limit) :
  w.memory.Kept w'.memory x
  := by
  obtain ⟨next, hlookup⟩ := h.lookup hl hd
  obtain ⟨next', hlookup'⟩ := h'.lookup hl' hd'
  refine ⟨d.addr, ?_, d.block next, hlookup, d.block next', hlookup', rfl, hlo, hhi⟩
  apply Finmap.mem_keys.mpr
  apply Finmap.lookup_isSome.mp
  rw [hlookup]
  rfl

theorem Arena.resize_used (a : Arena) (blockSize : ℕ) :
  (a.resize blockSize).used = a.used
  := rfl

/-- An operation that does not take back all regions keeps the cells in use. -/
theorem Ledger.Step.used_subset {op : Op} (hstep : l.Step grow op l' es) :
  l'.regions = [] ∨ l.arena.used ⊆ l'.arena.used
  := by
  cases hstep with
  | createBuffer hgrants => exact Or.inr hgrants.used_subset
  | createAligned hgrants => exact Or.inr hgrants.used_subset
  | createTrivial hgrants => exact Or.inr hgrants.used_subset
  | createObject hgrants => exact Or.inr hgrants.used_subset
  | registerDestructor => exact Or.inr (List.Subset.refl _)
  | setBlockSize blockSize =>
      right
      rw [Arena.resize_used]
      apply List.Subset.refl
  | shrinkNothing hnone => exact Or.inl rfl
  | shrinkFrees hc hbefore hpos => exact Or.inl rfl
  | shrinkTrims hc hused =>
      right
      rw [Arena.used_of_chain hc]
      apply List.Subset.refl
  | minNothing hnone => exact Or.inr (List.Subset.refl _)
  | minFrees hsome hclear => exact Or.inl rfl
  | minTrims hc hmin hafter =>
      right
      rw [Arena.used_of_chain hc]
      apply List.Subset.refl
  | clear hclears => exact Or.inl rfl

/-- The operation takes back what the pool has handed out. -/
def Op.Releases : Op → Prop
  | .clear => True
  | .shrinkToFitMin minCapacity => minCapacity = 0
  | _ => False

/-- A region with a byte in it is only taken back by `clear` and `shrink_to_fit(0)`. -/
theorem Ledger.Step.keeps_region {op : Op} (hstep : l.Step grow op l' es) (hs : l.Sound)
    (hr : r ∈ l.regions) (hsize : r.size ≠ 0) (hkeeps : ¬ op.Releases) :
  r ∈ l'.regions
  := by
  cases hstep with
  | createBuffer hgrants => apply List.mem_append_left _ hr
  | createAligned hgrants => apply List.mem_append_left _ hr
  | createTrivial hgrants => apply List.mem_append_left _ hr
  | createObject hgrants => apply List.mem_append_left _ hr
  | registerDestructor => exact hr
  | setBlockSize blockSize => exact hr
  | shrinkNothing hnone =>
      obtain ⟨c, hc, -⟩ := hs.placed r hr
      rw [hnone] at hc
      cases hc
  | shrinkFrees hc hbefore hpos =>
      have hempty := (hs.frees hc hbefore hpos).empty r (List.mem_append_right _ hr)
      apply absurd hempty hsize
  | shrinkTrims hc hused => exact hr
  | minNothing hnone => exact hr
  | minFrees hsome hclears => apply absurd rfl hkeeps
  | minTrims hc hmin hafter => exact hr
  | clear hclears => apply absurd trivial hkeeps

/-! ### The texts -/

variable {s s' : Storage κ} {k : κ} {t : Text} {news : List ℕ} {noise : ℕ → UInt8} {e : Event κ}

/-- The bytes from an address up to a null byte, of which there are at most so many. -/
def cString (bytes : ℕ → UInt8) (start : ℕ) : ℕ → List UInt8
  | 0 => []
  | most + 1 => if bytes start = 0 then [] else bytes start :: cString bytes (start + 1) most

/-- The text reads as it was copied, and as the string that it was copied from if that is what it
ends with a null byte for. -/
def Storage.Reads (s : Storage κ) (t : Text) : Prop :=
  (∀ (n : ℕ) (b : UInt8), t.content[n]? = some b → s.bytes (t.start + n) = b) ∧
    ∀ cStr : List UInt8, t.content = cStr ++ [0] → 0 ∉ cStr → ∀ most, cStr.length < most →
      cString s.bytes t.start most = cStr

theorem keepBytes_of_kept {m m' : Memory} {out : List Region} {bytes : ℕ → UInt8}
    (h : m.Kept m' x) (hout : ∀ r, r ∈ out → ¬ r.Contains x) :
  keepBytes m m' out noise bytes x = bytes x
  := by
  rw [keepBytes, if_pos ⟨h, hout⟩]

/-- What an event hands out has no byte in common with a region that a pool has afterwards, and had
before if the event is an operation on it. -/
theorem Tracks.apart_handedOut (h' : Tracks w' L') (hgood' : Good L') (hl' : L' k = some l')
    (hr : r ∈ l'.regions) (hold : ∀ op, e = .run k op → r ∈ w.regions k)
    (hout : r' ∈ w.handedOut w' e) :
  r.Apart r'
  := by
  cases e with
  | construct => cases hout
  | run k₁ op =>
      obtain ⟨hmem, hnot⟩ := List.mem_filter.mp hout
      obtain ⟨l₁, hl₁, hr'⟩ := h'.of_mem_regions hmem
      rcases Classical.em (k = k₁) with rfl | hne
      · apply h'.apart_of_ne hgood' hl' hl₁ hr hr'
        rintro rfl
        apply of_decide_eq_true hnot (hold op rfl)
      · apply h'.regions_apart hgood' hl' hl₁ hne hr hr'
  | moveConstruct => cases hout
  | moveAssign => cases hout
  | destroy => cases hout

/-- The bytes of a region that one pool has before an event and one afterwards are kept. -/
theorem Tracks.keepBytes_eq {bytes : ℕ → UInt8} (h : Tracks w L) (hgood : Good L)
    (h' : Tracks w' L') (hgood' : Good L') (hl : L i = some l) (hl' : L' k = some l')
    (hused : l.arena.used ⊆ l'.arena.used) (hr : r ∈ l.regions) (hr' : r ∈ l'.regions)
    (hold : ∀ op, e = .run k op → r ∈ w.regions k) (hx : r.Contains x) :
  keepBytes w.memory w'.memory (w.handedOut w' e) noise bytes x = bytes x
  := by
  obtain ⟨d, hd, hlo, hhi⟩ := (hgood i l hl).2.within hr
  apply keepBytes_of_kept
  · apply h.kept h' hl hl' (l.arena.used_subset hd) (l'.arena.used_subset (hused hd))
    · exact hlo.trans hx.1
    · exact Nat.lt_of_lt_of_le hx.2 hhi
  · intro r₁ hout hcontains
    apply h'.apart_handedOut hgood' hl' hr' hold hout x ⟨hx, hcontains⟩

/-- What was copied is there. -/
theorem copyBytes_getElem {bytes : ℕ → UInt8} {start n : ℕ} {content : List UInt8} {b : UInt8}
    (h : content[n]? = some b) :
  copyBytes bytes start content (start + n) = b
  := by
  rw [copyBytes, if_pos (Nat.le_add_right start n), Nat.add_sub_cancel_left, h]
  rfl

/-- Nothing else is changed by a copy. -/
theorem copyBytes_of_not_contains {bytes : ℕ → UInt8} {start : ℕ} {content : List UInt8}
    (h : ¬ (Text.mk start content).region.Contains x) :
  copyBytes bytes start content x = bytes x
  := by
  rw [copyBytes]
  split
  · next hle =>
      have hlen : content.length ≤ x - start := by
        by_contra hlt
        apply h
        use hle
        change x < start + content.length
        omega
      rw [List.getElem?_eq_none hlen]
      rfl
  · rfl

/-- The regions of the texts are those of their pools, and the texts are there. -/
structure Storage.Intact (s : Storage κ) (L : Ledgers κ) : Prop where
  placed : ∀ k t, t ∈ s.texts k → ∃ l, L k = some l ∧ t.region ∈ l.regions
  reads : ∀ k t, t ∈ s.texts k → ∀ (n : ℕ) (b : UInt8), t.content[n]? = some b →
    s.bytes (t.start + n) = b

/-- Reading up to a null byte gives the bytes before it. -/
theorem cString_eq {bytes : ℕ → UInt8} {cStr : List UInt8} {start most : ℕ}
    (h : ∀ (n : ℕ) (b : UInt8), (cStr ++ [0])[n]? = some b → bytes (start + n) = b)
    (hnull : 0 ∉ cStr) (hmost : cStr.length < most) :
  cString bytes start most = cStr
  := by
  induction cStr generalizing start most with
  | nil =>
      obtain ⟨n, rfl⟩ := Nat.exists_eq_succ_of_ne_zero (Nat.ne_of_gt hmost)
      have hend : bytes start = 0 := h 0 0 rfl
      rw [cString, if_pos hend]
  | cons b cStr ih =>
      obtain ⟨n, rfl⟩ := Nat.exists_eq_succ_of_ne_zero (Nat.ne_of_gt (Nat.zero_lt_of_lt hmost))
      have hb : bytes start = b := h 0 b rfl
      have hne : b ≠ 0 := fun heq => hnull (heq ▸ List.mem_cons_self)
      rw [cString, hb, if_neg hne, ih]
      · intro n b hb
        rw [Nat.add_right_comm, Nat.add_assoc]
        apply h (n + 1) b hb
      · intro hmem
        apply hnull (List.mem_cons_of_mem _ hmem)
      · apply Nat.lt_of_succ_lt_succ hmost

theorem Storage.Intact.text_reads (hi : s.Intact L) (ht : t ∈ s.texts k) :
  s.Reads t
  := by
  constructor
  · apply hi.reads k t ht
  · intro cStr hcontent hnull most hmost
    apply cString_eq _ hnull hmost
    rw [← hcontent]
    apply hi.reads k t ht

/-- Texts whose bytes are not written are there. -/
theorem Storage.Intact.congr {bytes : ℕ → UInt8} (hi : s.Intact L)
    (hsame : ∀ k t, t ∈ s.texts k → ∀ x, t.region.Contains x → bytes x = s.bytes x) :
  Storage.Intact { s with bytes := bytes } L
  := by
  use hi.placed
  intro k t ht n b hb
  have hlt := (List.getElem?_eq_some_iff.mp hb).1
  rw [← hi.reads k t ht n b hb]
  apply hsame k t ht
  use Nat.le_add_right t.start n
  apply Nat.add_lt_add_left hlt

/-- The regions with a byte in them go where they are carried to, with what is in them. -/
def Storage.Carries (s s' : Storage κ) (L L' : Ledgers κ) (carry : κ → Option κ) : Prop :=
  ∀ k k' l r, L k = some l → r ∈ l.regions → r.size ≠ 0 → carry k = some k' →
    (∃ l', L' k' = some l' ∧ r ∈ l'.regions) ∧ ∀ x, r.Contains x → s'.bytes x = s.bytes x

theorem Storage.carries_refl :
  s.Carries s L L some
  := by
  intro k k' l r hl hr _ hcarry
  obtain rfl := Option.some.inj hcarry
  exact ⟨⟨l, hl, hr⟩, fun _ _ => rfl⟩

/-! ### What the programs do -/

variable [DecidableEq κ]

/-- The texts whose regions a pool still has. -/
def keptTexts (regions : List Region) (texts : List Text) : List Text :=
  texts.filter fun t => t.region ∈ regions

/-- The texts after an event that leads to `w`. -/
def textsAfter (w : World κ) (texts : κ → List Text) : Event κ → κ → List Text
  | .construct k _ => Function.update texts k []
  | .run k _ => Function.update texts k (keptTexts (w.regions k) (texts k))
  | .moveConstruct k other => Function.update (Function.update texts k (texts other)) other []
  | .moveAssign k other => Function.update (Function.update texts k (texts other)) other []
  | .destroy k => Function.update texts k []

/-- The event takes back what the pool has handed out, or gives it to another one. -/
def Event.Releases (k : κ) : Event κ → Prop
  | .construct _ _ => False
  | .run k' op => k' = k ∧ op.Releases
  | .moveConstruct _ other => other = k
  | .moveAssign k' other => k' = k ∨ other = k
  | .destroy k' => k' = k

/-- The command takes back what the pool has handed out, or gives it to another one. -/
def Command.Releases (k : κ) : Command κ → Prop
  | .event e => e.Releases k
  | .createBuffer _ _ => False
  | .createCstringBuffer _ _ => False

instance : ∀ op, Decidable (Op.Releases op)
  | .createBuffer _ => isFalse id
  | .createAligned _ _ => isFalse id
  | .createObject _ _ _ _ => isFalse id
  | .registerDestructor _ _ _ => isFalse id
  | .setBlockSize _ => isFalse id
  | .shrinkToFit => isFalse id
  | .shrinkToFitMin minCapacity => inferInstanceAs (Decidable (minCapacity = 0))
  | .clear => isTrue trivial

instance {k : κ} : ∀ e, Decidable (Event.Releases k e)
  | .construct _ _ => isFalse id
  | .run k' op => inferInstanceAs (Decidable (k' = k ∧ op.Releases))
  | .moveConstruct _ other => inferInstanceAs (Decidable (other = k))
  | .moveAssign k' other => inferInstanceAs (Decidable (k' = k ∨ other = k))
  | .destroy k' => inferInstanceAs (Decidable (k' = k))

instance {k : κ} : ∀ q, Decidable (Command.Releases k q)
  | .event e => inferInstanceAs (Decidable (e.Releases k))
  | .createBuffer _ _ => isFalse id
  | .createCstringBuffer _ _ => isFalse id

/-- The pool that has what the pool `k` has handed out after an event, if any has. -/
def Event.carry (e : Event κ) (k : κ) : Option κ :=
  match e with
  | .construct _ _ => some k
  | .run k' op => if k' = k ∧ op.Releases then none else some k
  | .moveConstruct k' other => if k = other then some k' else some k
  | .moveAssign k' other =>
      if k = other then (if k' = other then none else some k')
      else if k = k' then none
      else some k
  | .destroy k' => if k = k' then none else some k

/-- Copies of texts take nothing back. -/
def Command.carry (q : Command κ) (k : κ) : Option κ :=
  match q with
  | .event e => e.carry k
  | .createBuffer _ _ => some k
  | .createCstringBuffer _ _ => some k

namespace Storage

variable (grow : ℕ → ℕ) (s : Storage κ) (news : List ℕ) (noise : ℕ → UInt8)

/-- An event of the pools. -/
def step (e : Event κ) : Option (Storage κ) :=
  ((World.machine grow).step s.world (e, news)).map fun w =>
    ⟨w, keepBytes s.world.memory w.memory (s.world.handedOut w e) noise s.bytes,
      textsAfter w s.texts e⟩

/-- A text is copied to the region that was handed out last. -/
def copy (k : κ) (content : List UInt8) : Option (Storage κ) :=
  ((s.world.regions k).getLast?).map fun r =>
    ⟨s.world, copyBytes s.bytes r.start content,
      Function.update s.texts k (s.texts k ++ [⟨r.start, content⟩])⟩

/-- `create_buffer` with a buffer, and the part of `create_cstring_buffer` behind the test for the
empty string. -/
def createText (k : κ) (content : List UInt8) : Option (Storage κ) :=
  (s.step grow news noise (.run k (.createBuffer content.length))).bind fun s => s.copy k content

/-- What a command does. -/
def serve : Command κ → Option (Storage κ)
  | .event e => s.step grow news noise e
  | .createBuffer k buffer => s.createText grow news noise k buffer
  | .createCstringBuffer k cStr =>
      if cStr = [] then some s else s.createText grow news noise k (cStr ++ [0])

/-- No pools, and no texts. -/
def start (bytes : ℕ → UInt8) : Storage κ :=
  ⟨.empty, bytes, fun _ => []⟩

/-- The programs that have bytes copied. -/
def machine (κ : Type) [DecidableEq κ] (grow : ℕ → ℕ) :
    Machine (Storage κ) (Command κ × List ℕ × (ℕ → UInt8)) where
  step s e := s.serve grow e.2.1 e.2.2 e.1

/-- No sum that the command computes wraps around. -/
def CommandFits (grow : ℕ → ℕ) (s : Storage κ) : Command κ × List ℕ × (ℕ → UInt8) → Prop
  | (.event e, news, _) => World.EventFits grow s.world (e, news)
  | (.createBuffer k buffer, news, _) =>
      World.EventFits grow s.world (.run k (.createBuffer buffer.length), news)
  | (.createCstringBuffer k cStr, news, _) => cStr ≠ [] →
      World.EventFits grow s.world (.run k (.createBuffer (cStr.length + 1)), news)

end Storage

instance {grow : ℕ → ℕ} {s : Storage κ} : ∀ e, Decidable (s.CommandFits grow e)
  | (.event e, news, _) => inferInstanceAs (Decidable (World.EventFits grow s.world (e, news)))
  | (.createBuffer k buffer, news, _) => inferInstanceAs
      (Decidable (World.EventFits grow s.world (.run k (.createBuffer buffer.length), news)))
  | (.createCstringBuffer k cStr, news, _) => inferInstanceAs
      (Decidable (cStr ≠ [] →
        World.EventFits grow s.world (.run k (.createBuffer (cStr.length + 1)), news)))

/-! ### What is kept -/

/-- What a pool on which no operation runs has is what the pool has that it is carried to. -/
theorem Turn.carry_eq (hturn : Turn grow L e L' es) (hl : L k = some l)
    (hcarry : e.carry k = some k') (hrun : ∀ op, e ≠ .run k op) :
  L' k' = some l
  := by
  cases hturn with
  | @construct k₁ _ hk =>
      obtain rfl := Option.some.inj hcarry
      have hne : k ≠ k₁ := by
        rintro rfl
        rw [hk] at hl
        cases hl
      rw [Function.update_of_ne hne]
      exact hl
  | @run k₁ op l₁ l' _ hk hstep =>
      rw [Event.carry] at hcarry
      split at hcarry
      · cases hcarry
      · obtain rfl := Option.some.inj hcarry
        have hne : k ≠ k₁ := by
          rintro rfl
          apply hrun op rfl
        rw [Function.update_of_ne hne]
        exact hl
  | @moveConstruct k₁ other l₁ hk hother =>
      rw [Event.carry] at hcarry
      have hne₁ : k ≠ k₁ := by
        rintro rfl
        rw [hk] at hl
        cases hl
      have hother₁ : k₁ ≠ other := by
        rintro rfl
        rw [hk] at hother
        cases hother
      split at hcarry
      · next heq =>
          obtain rfl := Option.some.inj hcarry
          rw [heq] at hl
          rw [Function.update_of_ne hother₁, Function.update_self, ← hother]
          exact hl
      · next hne =>
          obtain rfl := Option.some.inj hcarry
          rw [Function.update_of_ne hne, Function.update_of_ne hne₁]
          exact hl
  | @moveAssign k₁ other l₁ o a _ hk hclears hne' hother =>
      rw [Event.carry] at hcarry
      split at hcarry
      · next heq =>
          obtain rfl := Option.some.inj hcarry
          rw [heq] at hl
          rw [Function.update_of_ne hne', Function.update_self, ← hother]
          exact hl
      · next hne =>
          split at hcarry
          · cases hcarry
          · next hne₁ =>
              obtain rfl := Option.some.inj hcarry
              rw [Function.update_of_ne hne, Function.update_of_ne hne₁]
              exact hl
  | @moveSelf k₁ l₁ a _ hk hclears =>
      rw [Event.carry] at hcarry
      split at hcarry
      · rw [if_pos rfl] at hcarry
        cases hcarry
      · next hne =>
          obtain rfl := Option.some.inj hcarry
          rw [Function.update_of_ne hne]
          exact hl
  | @destroy k₁ l₁ hk =>
      rw [Event.carry] at hcarry
      split at hcarry
      · cases hcarry
      · next hne =>
          obtain rfl := Option.some.inj hcarry
          rw [Function.update_of_ne hne]
          exact hl

/-- A region with a byte in it is afterwards in the pool that it is carried to, and so are the cells
that were in use. -/
theorem Turn.carries (hturn : Turn grow L e L' es) (hgood : Good L) (hl : L k = some l)
    (hr : r ∈ l.regions) (hsize : r.size ≠ 0) (hcarry : e.carry k = some k') :
  ∃ l', L' k' = some l' ∧ r ∈ l'.regions ∧ l.arena.used ⊆ l'.arena.used ∧
    ∀ op, e = .run k' op → k' = k
  := by
  rcases Classical.em (∃ op, e = .run k op) with ⟨op, rfl⟩ | hother
  · rw [Event.carry] at hcarry
    split at hcarry
    · cases hcarry
    · next hkeeps =>
        obtain rfl := Option.some.inj hcarry
        cases hturn with
        | @run _ _ l₁ l' _ hk hstep =>
            obtain rfl := Option.some.inj (hk.symm.trans hl)
            have hregion := hstep.keeps_region (hgood k l₁ hl).2 hr hsize
              fun hreleases => hkeeps ⟨rfl, hreleases⟩
            refine ⟨l', Function.update_self _ _ _, hregion, ?_, fun _ _ => rfl⟩
            rcases hstep.used_subset with hnil | hused
            · rw [hnil] at hregion
              cases hregion
            · exact hused
  · have hl' := hturn.carry_eq hl hcarry fun op heq => hother ⟨op, heq⟩
    refine ⟨l, hl', hr, List.Subset.refl _, ?_⟩
    rintro op rfl
    rw [Event.carry] at hcarry
    split at hcarry
    · cases hcarry
    · apply (Option.some.inj hcarry).symm

/-- A text that is still recorded after an event was so before it, with a pool whose cells in use
are now those of the pool that it is recorded with. -/
theorem Turn.origin {texts : κ → List Text} (hturn : Turn grow L e L' es) (h' : Tracks w' L')
    (hplaced : ∀ k t, t ∈ texts k → ∃ l, L k = some l ∧ t.region ∈ l.regions)
    (ht : t ∈ textsAfter w' texts e k) :
  ∃ i l l', t ∈ texts i ∧ L i = some l ∧ L' k = some l' ∧ t.region ∈ l.regions ∧
    t.region ∈ l'.regions ∧ l.arena.used ⊆ l'.arena.used
  := by
  have hsame : t ∈ texts k → L' k = L k → ∃ i l l', t ∈ texts i ∧ L i = some l ∧
      L' k = some l' ∧ t.region ∈ l.regions ∧ t.region ∈ l'.regions ∧
      l.arena.used ⊆ l'.arena.used := by
    intro ht heq
    obtain ⟨l, hl, hr⟩ := hplaced k t ht
    exact ⟨k, l, l, ht, hl, heq.trans hl, hr, hr, List.Subset.refl _⟩
  have hmoved : ∀ i l, t ∈ texts i → L i = some l → L' k = some l → ∃ i l l', t ∈ texts i ∧
      L i = some l ∧ L' k = some l' ∧ t.region ∈ l.regions ∧ t.region ∈ l'.regions ∧
      l.arena.used ⊆ l'.arena.used := by
    intro i l ht hl hl'
    obtain ⟨l₁, hl₁, hr⟩ := hplaced i t ht
    obtain rfl := Option.some.inj (hl.symm.trans hl₁)
    exact ⟨i, l, l, ht, hl, hl', hr, hr, List.Subset.refl _⟩
  cases hturn with
  | @construct k₁ _ hk =>
      rcases Classical.em (k = k₁) with rfl | hne
      · rw [textsAfter, Function.update_self] at ht
        cases ht
      · rw [textsAfter, Function.update_of_ne hne] at ht
        apply hsame ht (Function.update_of_ne hne _ _)
  | @run k₁ op l l' es hk hstep =>
      rcases Classical.em (k = k₁) with rfl | hne
      · have hl' : Function.update L k (some l') k = some l' := Function.update_self _ _ _
        rw [textsAfter, Function.update_self, keptTexts, List.mem_filter, decide_eq_true_eq,
          h'.regions_eq hl'] at ht
        obtain ⟨ht, hr'⟩ := ht
        obtain ⟨l₁, hl₁, hr⟩ := hplaced k t ht
        obtain rfl := Option.some.inj (hk.symm.trans hl₁)
        refine ⟨k, l, l', ht, hk, hl', hr, hr', ?_⟩
        rcases hstep.used_subset with hnil | hused
        · rw [hnil] at hr'
          cases hr'
        · exact hused
      · rw [textsAfter, Function.update_of_ne hne] at ht
        apply hsame ht (Function.update_of_ne hne _ _)
  | @moveConstruct k₁ other l hk hother =>
      rcases Classical.em (k = other) with rfl | hne
      · rw [textsAfter, Function.update_self] at ht
        cases ht
      · rw [textsAfter, Function.update_of_ne hne] at ht
        rcases Classical.em (k = k₁) with rfl | hne₁
        · rw [Function.update_self] at ht
          apply hmoved other l ht hother
          rw [Function.update_of_ne hne, Function.update_self]
        · rw [Function.update_of_ne hne₁] at ht
          apply hsame ht
          rw [Function.update_of_ne hne, Function.update_of_ne hne₁]
  | @moveAssign k₁ other l o a es hk hclears hne' hother =>
      rcases Classical.em (k = other) with rfl | hne
      · rw [textsAfter, Function.update_self] at ht
        cases ht
      · rw [textsAfter, Function.update_of_ne hne] at ht
        rcases Classical.em (k = k₁) with rfl | hne₁
        · rw [Function.update_self] at ht
          apply hmoved other o ht hother
          rw [Function.update_of_ne hne, Function.update_self]
        · rw [Function.update_of_ne hne₁] at ht
          apply hsame ht
          rw [Function.update_of_ne hne, Function.update_of_ne hne₁]
  | @moveSelf k₁ l a es hk hclears =>
      rcases Classical.em (k = k₁) with rfl | hne
      · rw [textsAfter, Function.update_self] at ht
        cases ht
      · rw [textsAfter, Function.update_of_ne hne, Function.update_of_ne hne] at ht
        apply hsame ht (Function.update_of_ne hne _ _)
  | @destroy k₁ l hk =>
      rcases Classical.em (k = k₁) with rfl | hne
      · rw [textsAfter, Function.update_self] at ht
        cases ht
      · rw [textsAfter, Function.update_of_ne hne] at ht
        apply hsame ht (Function.update_of_ne hne _ _)

/-- An event carries on what is in the regions. -/
theorem Turn.carries_bytes {texts : κ → List Text} (hturn : Turn grow L e L' es)
    (h : Tracks s.world L) (hgood : Good L) (h' : Tracks w' L') (hgood' : Good L') :
  s.Carries ⟨w', keepBytes s.world.memory w'.memory (s.world.handedOut w' e) noise s.bytes, texts⟩
    L L' e.carry
  := by
  intro k k' l r hl hr hsize hcarry
  obtain ⟨l', hl', hr', hused, hsame⟩ := hturn.carries hgood hl hr hsize hcarry
  use ⟨l', hl', hr'⟩
  intro x hx
  apply h.keepBytes_eq hgood h' hgood' hl hl' hused hr hr' _ hx
  intro op heq
  rw [hsame op heq, h.regions_eq hl]
  exact hr

/-- An event keeps the texts. -/
theorem Storage.Intact.step (hi : s.Intact L) (h : Tracks s.world L) (hgood : Good L)
    (hfits : World.EventFits grow s.world (e, news)) (hstep : s.step grow news noise e = some s') :
  ∃ L' es, Turn grow L e L' es ∧ Tracks s'.world L' ∧ Good L' ∧ s'.Intact L' ∧
    s'.texts = textsAfter s'.world s.texts e ∧ s.Carries s' L L' e.carry
  := by
  obtain ⟨w, hw, rfl⟩ := Option.map_eq_some_iff.mp hstep
  obtain ⟨L', es, hturn, h', -⟩ := step_tracks h hw
  have hgood' := hturn.good h h' hgood hfits
  refine ⟨L', es, hturn, h', hgood', ?_, rfl, hturn.carries_bytes h hgood h' hgood'⟩
  constructor
  · intro k t ht
    obtain ⟨i, l, l', -, -, hl', -, hr', -⟩ := hturn.origin h' hi.placed ht
    exact ⟨l', hl', hr'⟩
  · intro k t ht n b hb
    obtain ⟨i, l, l', hti, hl, hl', hr, hr', hused⟩ := hturn.origin h' hi.placed ht
    have hlt := (List.getElem?_eq_some_iff.mp hb).1
    have hcontains : t.region.Contains (t.start + n) :=
      ⟨Nat.le_add_right t.start n, Nat.add_lt_add_left hlt t.start⟩
    have hold : ∀ op, e = .run k op → t.region ∈ s.world.regions k := by
      rintro op rfl
      change t ∈ textsAfter w s.texts (.run k op) k at ht
      rw [textsAfter, Function.update_self] at ht
      obtain ⟨l₁, hl₁, hr₁⟩ := hi.placed k t (List.mem_of_mem_filter ht)
      rw [h.regions_eq hl₁]
      exact hr₁
    apply (h.keepBytes_eq hgood h' hgood' hl hl' hused hr hr' hold hcontains).trans
    apply hi.reads i t hti n b hb

/-- The region that was handed out last has no byte in common with the others of the pool. -/
theorem Ledger.Sound.apart_last {a : Arena} (h : (l.handOut a r).Sound) (hr : r' ∈ l.regions) :
  r'.Apart r
  := by
  have hapart := h.apart
  rw [Ledger.handOut, ← List.append_assoc, List.pairwise_append] at hapart
  apply hapart.2.2 r' (List.mem_append_right _ hr) r List.mem_cons_self

/-- The operation allocates so many bytes with this alignment. -/
inductive Op.Asks : Op → ℕ → ℕ → Prop
  | createBuffer (n : ℕ) : Asks (.createBuffer n) n 1
  | createAligned (n : ℕ) (align : Pool.Alignment) : Asks (.createAligned n align) n align.value

/-- An allocation hands out a region behind the others of the pool, which has no byte in common with
any region of any pool. -/
theorem Turn.handsOut {op : Op} {n align : ℕ} (hturn : Turn grow L (.run k op) L' es)
    (hasks : op.Asks n align) (h' : Tracks w' L') (hgood' : Good L') :
  ∃ l l' r, L k = some l ∧ L' = Function.update L k (some l') ∧ l'.regions = l.regions ++ [r] ∧
    r.size = n ∧ r.align = align ∧ (w'.regions k).getLast? = some r ∧
    ∀ j l₁ r', L j = some l₁ → r' ∈ l₁.regions → r'.Apart r
  := by
  cases hturn with
  | @run _ _ l l' _ hl hrun =>
      have hgrants : ∃ a start, l' = l.handOut a ⟨start, n, align⟩ := by
        cases hasks with
        | createBuffer n =>
            cases hrun with
            | createBuffer hgrants => exact ⟨_, _, rfl⟩
        | createAligned n align =>
            cases hrun with
            | createAligned hgrants => exact ⟨_, _, rfl⟩
      obtain ⟨a, start, rfl⟩ := hgrants
      have hl' := Function.update_self k (some (l.handOut a ⟨start, n, align⟩)) L
      refine ⟨l, _, ⟨start, n, align⟩, hl, rfl, rfl, rfl, rfl, ?_, ?_⟩
      · rw [h'.regions_eq hl']
        apply List.getLast?_concat
      · intro j l₁ r' hl₁ hr'
        rcases Classical.em (j = k) with rfl | hne
        · obtain rfl := Option.some.inj (hl.symm.trans hl₁)
          apply (hgood' j _ hl').2.apart_last hr'
        · have hl₁' := (Function.update_of_ne hne (some (l.handOut a ⟨start, n, align⟩)) L).trans hl₁
          apply h'.regions_apart hgood' hl₁' hl' hne hr'
          apply List.mem_append_right _ List.mem_cons_self

theorem Op.Asks.not_releases {op : Op} {n align : ℕ} (h : op.Asks n align) :
  ¬ op.Releases
  := by
  cases h <;> exact id

/-- A pool keeps what an operation does not take back. -/
theorem Event.carry_run {op : Op} (h : ¬ op.Releases) :
  (Event.run k op).carry = some
  := by
  funext j
  rw [Event.carry, if_neg fun hreleases => h hreleases.2]

/-- What an allocation from the pool `k` does: it keeps the texts, carries on what is in the
regions, and hands out one that has no byte in common with those of before, nor with a text. -/
structure Storage.HandsOut (s s' : Storage κ) (L L' : Ledgers κ) (k : κ) (r : Region) : Prop where
  tracks : Tracks s'.world L'
  good : Good L'
  intact : s'.Intact L'
  carries : s.Carries s' L L' some
  placed : ∃ l, L' k = some l ∧ r ∈ l.regions
  last : (s'.world.regions k).getLast? = some r
  apart : ∀ j l r', L j = some l → r' ∈ l.regions → r'.Apart r
  texts : ∀ j t, t ∈ s'.texts j → t.region.Apart r

theorem Storage.Intact.handsOut {op : Op} {n align : ℕ} (hi : s.Intact L) (h : Tracks s.world L)
    (hgood : Good L) (hasks : op.Asks n align)
    (hfits : World.EventFits grow s.world (.run k op, news))
    (hstep : s.step grow news noise (.run k op) = some s') :
  ∃ L' r, s.HandsOut s' L L' k r ∧ r.size = n ∧ r.align = align
  := by
  obtain ⟨L', es, hturn, h', hgood', hi', htexts, hcarries⟩ := hi.step h hgood hfits hstep
  obtain ⟨l, l', r, hl, rfl, hregions, hsize, halign, hlast, hapart⟩ :=
    hturn.handsOut hasks h' hgood'
  rw [Event.carry_run hasks.not_releases] at hcarries
  refine ⟨_, r, ⟨h', hgood', hi', hcarries, ?_, hlast, hapart, ?_⟩, hsize, halign⟩
  · use l', Function.update_self k (some l') L
    rw [hregions]
    apply List.mem_append_right _ List.mem_cons_self
  · intro j t ht
    rw [htexts] at ht
    obtain ⟨i, l₁, -, -, hl₁, -, hmem, -⟩ := hturn.origin h' hi.placed ht
    apply hapart i l₁ _ hl₁ hmem

/-- A text that is copied to a region with no byte of another text leaves those as they are. -/
theorem Storage.Intact.copy {start : ℕ} {content : List UInt8} (hi : s.Intact L) (hl : L k = some l)
    (hr : (Text.mk start content).region ∈ l.regions)
    (hapart : ∀ j t, t ∈ s.texts j → t.region.Apart (Text.mk start content).region) :
  Storage.Intact ⟨s.world, copyBytes s.bytes start content,
    Function.update s.texts k (s.texts k ++ [⟨start, content⟩])⟩ L
  := by
  have hold : Storage.Intact { s with bytes := copyBytes s.bytes start content } L := by
    apply hi.congr
    intro j t ht x hx
    apply copyBytes_of_not_contains
    intro hcontains
    apply hapart j t ht x ⟨hx, hcontains⟩
  have hmem : ∀ j t, t ∈ Function.update s.texts k (s.texts k ++ [⟨start, content⟩]) j →
      t ∈ s.texts j ∨ j = k ∧ t = ⟨start, content⟩ := by
    intro j t ht
    rcases Classical.em (j = k) with rfl | hne
    · rw [Function.update_self] at ht
      rcases List.mem_append.mp ht with ht | ht
      · exact Or.inl ht
      · exact Or.inr ⟨rfl, List.mem_singleton.mp ht⟩
    · rw [Function.update_of_ne hne] at ht
      exact Or.inl ht
  constructor
  · intro j t ht
    rcases hmem j t ht with ht | ⟨rfl, rfl⟩
    · apply hold.placed j t ht
    · exact ⟨l, hl, hr⟩
  · intro j t ht n b hb
    rcases hmem j t ht with ht | ⟨rfl, rfl⟩
    · apply hold.reads j t ht n b hb
    · apply copyBytes_getElem hb

/-- The bytes that are copied into a new region are in no region of before. -/
theorem Storage.Intact.createText {content : List UInt8} (hi : s.Intact L)
    (h : Tracks s.world L) (hgood : Good L)
    (hfits : World.EventFits grow s.world (.run k (.createBuffer content.length), news))
    (hserve : s.createText grow news noise k content = some s') :
  ∃ L', Tracks s'.world L' ∧ Good L' ∧ s'.Intact L' ∧ s.Carries s' L L' some
  := by
  obtain ⟨s₁, hstep, hcopy⟩ := Option.bind_eq_some_iff.mp hserve
  obtain ⟨L', r, hout, hsize, halign⟩ :=
    hi.handsOut h hgood (.createBuffer content.length) hfits hstep
  obtain ⟨r₁, hr₁, rfl⟩ := Option.map_eq_some_iff.mp hcopy
  obtain rfl := Option.some.inj (hout.last.symm.trans hr₁)
  obtain ⟨l', hl', hr⟩ := hout.placed
  have heq : (Text.mk r.start content).region = r := by
    rw [Text.region, ← hsize, ← halign]
  refine ⟨_, hout.tracks, hout.good, hout.intact.copy hl' ?_ ?_, ?_⟩
  · rw [heq]
    exact hr
  · intro j t ht
    rw [heq]
    apply hout.texts j t ht
  · intro j j' l₁ r' hl₁ hr' hsize' hcarry
    obtain ⟨hregion, hsame⟩ := hout.carries j j' l₁ r' hl₁ hr' hsize' hcarry
    use hregion
    intro x hx
    rw [← hsame x hx]
    apply copyBytes_of_not_contains
    rw [heq]
    intro hcontains
    apply hout.apart j l₁ r' hl₁ hr' x ⟨hx, hcontains⟩

/-- A command keeps the texts, and carries on what is in the regions. -/
theorem Storage.Intact.serve {q : Command κ} (hi : s.Intact L) (h : Tracks s.world L)
    (hgood : Good L) (hfits : s.CommandFits grow (q, news, noise))
    (hserve : s.serve grow news noise q = some s') :
  ∃ L', Tracks s'.world L' ∧ Good L' ∧ s'.Intact L' ∧ s.Carries s' L L' q.carry
  := by
  cases q with
  | event e =>
      obtain ⟨L', -, -, h', hgood', hi', -, hcarries⟩ := hi.step h hgood hfits hserve
      exact ⟨L', h', hgood', hi', hcarries⟩
  | createBuffer k buffer => apply hi.createText h hgood hfits hserve
  | createCstringBuffer k cStr =>
      rw [Storage.serve] at hserve
      split at hserve
      · obtain rfl := Option.some.inj hserve
        exact ⟨L, h, hgood, hi, Storage.carries_refl⟩
      · next hne =>
          have hlen : (cStr ++ [0]).length = cStr.length + 1 := List.length_append
          have hfits' := hfits hne
          rw [← hlen] at hfits'
          apply hi.createText h hgood hfits' hserve

/-- An event that does not take back what the pool has handed out leaves its texts recorded. -/
theorem Turn.keeps {texts : κ → List Text} (hturn : Turn grow L e L' es) (h' : Tracks w' L')
    (hgood : Good L) (hplaced : ∀ k t, t ∈ texts k → ∃ l, L k = some l ∧ t.region ∈ l.regions)
    (ht : t ∈ texts k) (hcontent : t.content ≠ []) (hkeeps : ¬ e.Releases k) :
  t ∈ textsAfter w' texts e k
  := by
  obtain ⟨l₁, hl₁, hr⟩ := hplaced k t ht
  cases hturn with
  | @construct k₁ _ hk =>
      rcases Classical.em (k = k₁) with rfl | hne
      · rw [hk] at hl₁
        cases hl₁
      · rw [textsAfter, Function.update_of_ne hne]
        exact ht
  | @run k₁ op l l' es hk hstep =>
      rcases Classical.em (k = k₁) with rfl | hne
      · obtain rfl := Option.some.inj (hk.symm.trans hl₁)
        have hl' : Function.update L k (some l') k = some l' := Function.update_self _ _ _
        rw [textsAfter, Function.update_self, keptTexts, List.mem_filter, decide_eq_true_eq,
          h'.regions_eq hl']
        use ht
        apply hstep.keeps_region (hgood k l hl₁).2 hr
        · intro hsize
          apply hcontent (List.length_eq_zero_iff.mp hsize)
        · intro hreleases
          apply hkeeps ⟨rfl, hreleases⟩
      · rw [textsAfter, Function.update_of_ne hne]
        exact ht
  | @moveConstruct k₁ other l hk hother =>
      have hne : k ≠ other := fun heq => hkeeps heq.symm
      have hne₁ : k ≠ k₁ := by
        rintro rfl
        rw [hk] at hl₁
        cases hl₁
      rw [textsAfter, Function.update_of_ne hne, Function.update_of_ne hne₁]
      exact ht
  | @moveAssign k₁ other l o a es hk hclears hne' hother =>
      have hne : k ≠ other := fun heq => hkeeps (Or.inr heq.symm)
      have hne₁ : k ≠ k₁ := fun heq => hkeeps (Or.inl heq.symm)
      rw [textsAfter, Function.update_of_ne hne, Function.update_of_ne hne₁]
      exact ht
  | @moveSelf k₁ l a es hk hclears =>
      have hne : k ≠ k₁ := fun heq => hkeeps (Or.inl heq.symm)
      rw [textsAfter, Function.update_of_ne hne, Function.update_of_ne hne]
      exact ht
  | @destroy k₁ l hk =>
      have hne : k ≠ k₁ := fun heq => hkeeps heq.symm
      rw [textsAfter, Function.update_of_ne hne]
      exact ht

/-- A command that does not take back what the pool has handed out leaves its texts recorded. -/
theorem Storage.Intact.keeps {q : Command κ} (hi : s.Intact L) (h : Tracks s.world L)
    (hgood : Good L) (hfits : s.CommandFits grow (q, news, noise))
    (hserve : s.serve grow news noise q = some s') (ht : t ∈ s.texts k) (hcontent : t.content ≠ [])
    (hkeeps : ¬ q.Releases k) :
  t ∈ s'.texts k
  := by
  have hevent : ∀ {e s'}, World.EventFits grow s.world (e, news) →
      s.step grow news noise e = some s' → ¬ e.Releases k → t ∈ s'.texts k := by
    intro e s' hfits hstep hkeeps
    obtain ⟨L', es, hturn, h', -, -, htexts, -⟩ := hi.step h hgood hfits hstep
    rw [htexts]
    apply hturn.keeps h' hgood hi.placed ht hcontent hkeeps
  have htext : ∀ {k' content}, s.createText grow news noise k' content = some s' →
      World.EventFits grow s.world (.run k' (.createBuffer content.length), news) →
      t ∈ s'.texts k := by
    intro k' content hserve hfits
    obtain ⟨s₁, hstep, hcopy⟩ := Option.bind_eq_some_iff.mp hserve
    have ht₁ := hevent hfits hstep And.right
    obtain ⟨r, -, rfl⟩ := Option.map_eq_some_iff.mp hcopy
    change t ∈ Function.update s₁.texts k' _ k
    rcases Classical.em (k = k') with rfl | hne
    · rw [Function.update_self]
      apply List.mem_append_left _ ht₁
    · rw [Function.update_of_ne hne]
      exact ht₁
  cases q with
  | event e => apply hevent hfits hserve hkeeps
  | createBuffer k' buffer => apply htext hserve hfits
  | createCstringBuffer k' cStr =>
      rw [Storage.serve] at hserve
      split at hserve
      · obtain rfl := Option.some.inj hserve
        exact ht
      · next hne =>
          have hlen : (cStr ++ [0]).length = cStr.length + 1 := List.length_append
          apply htext hserve
          rw [hlen]
          apply hfits hne

/-! ### Programs -/

/-- The pools are in order in every state that a program reaches. -/
theorem run_good {es : List (Event κ × List ℕ)}
    (hfits : (World.machine grow).Steps (World.EventFits grow) World.empty es)
    (hrun : (World.machine grow).run World.empty es = some w) :
  ∃ L, Tracks w L ∧ Good L
  := by
  have hinv := Machine.run_invariant_of_steps (I := fun w => ∃ L, Tracks w L ∧ Good L) ?_ hfits ?_
  · apply hinv.last hrun
  · rintro t ⟨e, news⟩ u ⟨L, h, hgood⟩ hfits hstep
    obtain ⟨L', es, hturn, h', -⟩ := step_tracks h hstep
    exact ⟨L', h', hturn.good h h' hgood hfits⟩
  · exact ⟨_, empty_tracks, nofun⟩

/-- The pools are in order and the texts are there in every state that a program reaches. -/
theorem run_intact {bytes : ℕ → UInt8} {es : List (Command κ × List ℕ × (ℕ → UInt8))}
    (hfits : (Storage.machine κ grow).Steps (Storage.CommandFits grow) (.start bytes) es)
    (hrun : (Storage.machine κ grow).run (.start bytes) es = some s) :
  ∃ L, Tracks s.world L ∧ Good L ∧ s.Intact L
  := by
  have hinv := Machine.run_invariant_of_steps
    (I := fun s : Storage κ => ∃ L, Tracks s.world L ∧ Good L ∧ s.Intact L) ?_ hfits ?_
  · apply hinv.last hrun
  · rintro t ⟨q, news, noise⟩ u ⟨L, h, hgood, hi⟩ hfits hstep
    obtain ⟨L', h', hgood', hi', -⟩ := hi.serve h hgood hfits hstep
    exact ⟨L', h', hgood', hi'⟩
  · refine ⟨_, empty_tracks, nofun, ?_, ?_⟩
    · intro k t ht
      cases ht
    · intro k t ht
      cases ht

/-- A text that was copied to a pool reads as it was copied as long as the pool has its region,
which it loses only when the pool is cleared, shrunk to nothing, moved from, or destroyed: none
of the commands that do nothing of that to the pool changes a byte of it. -/
theorem texts_intact {bytes : ℕ → UInt8} {es : List (Command κ × List ℕ × (ℕ → UInt8))}
    (hfits : (Storage.machine κ grow).Steps (Storage.CommandFits grow) (.start bytes) es)
    (hrun : (Storage.machine κ grow).run (.start bytes) es = some s) (ht : t ∈ s.texts k) :
  t.region ∈ s.world.regions k ∧ s.Reads t ∧ ∀ es' s', (Storage.machine κ grow).Steps
    (fun s q => s.CommandFits grow q ∧ ¬ q.1.Releases k) s es' →
    (Storage.machine κ grow).run s es' = some s' → s'.Reads t
  := by
  obtain ⟨L, h, hgood, hi⟩ := run_intact hfits hrun
  obtain ⟨l, hl, hr⟩ := hi.placed k t ht
  refine ⟨(h.regions_eq hl).symm ▸ hr, hi.text_reads ht, ?_⟩
  intro es' s' hsteps hrun'
  rcases Classical.em (t.content = []) with hnil | hcontent
  · constructor
    · rw [hnil]
      intro n b hb
      cases hb
    · rw [hnil]
      intro cStr hcontent
      simp at hcontent
  · have hinv := Machine.run_invariant_of_steps
      (I := fun s : Storage κ => (∃ L, Tracks s.world L ∧ Good L ∧ s.Intact L) ∧ t ∈ s.texts k) ?_
      hsteps ?_
    · obtain ⟨⟨L', -, -, hi'⟩, ht'⟩ := hinv.last hrun'
      apply hi'.text_reads ht'
    · rintro u ⟨q, news, noise⟩ v ⟨⟨L, h, hgood, hi⟩, ht⟩ ⟨hfits, hkeeps⟩ hstep
      obtain ⟨L', h', hgood', hi', -⟩ := hi.serve h hgood hfits hstep
      use ⟨L', h', hgood', hi'⟩
      apply hi.keeps h hgood hfits hstep ht hcontent hkeeps
    · exact ⟨⟨L, h, hgood, hi⟩, ht⟩

/-- A string is copied to a pool, and one to another pool in the same way. -/
def twoStrings : List (Command Bool × List ℕ × (ℕ → UInt8)) :=
  [(.event (.construct false 64), [], fun _ => 7), (.event (.construct true 100), [], fun _ => 7),
    (.createCstringBuffer false [104, 105], [4096], fun _ => 7),
    (.createCstringBuffer true [33], [8192], fun _ => 7)]

/-- What is done then: both pools go on allocating, and one is cleared. -/
def goingOn : List (Command Bool × List ℕ × (ℕ → UInt8)) :=
  [(.createBuffer false [1, 2, 3], [], fun _ => 9), (.event (.run true .clear), [], fun _ => 9),
    (.createBuffer true [4, 5], [], fun _ => 9),
    (.event (.run false (.createBuffer 200)), [16384], fun _ => 9),
    (.event (.run false .shrinkToFit), [], fun _ => 9)]

theorem texts_intact_goingOn :
  ∃ s s' t, (Storage.machine Bool (· * 11 / 10)).run (.start fun _ => 0) twoStrings = some s ∧
    (Storage.machine Bool (· * 11 / 10)).run s goingOn = some s' ∧ t ∈ s.texts false ∧
    s'.Reads t ∧ cString s'.bytes t.start 64 = [104, 105]
  := by
  have hrun : ((Storage.machine Bool (· * 11 / 10)).run (.start fun _ => 0) twoStrings).any
      fun s => decide (s.texts false = [⟨4112, [104, 105, 0]⟩] ∧
        (Storage.machine Bool (· * 11 / 10)).Steps
          (fun s q => s.CommandFits (· * 11 / 10) q ∧ ¬ q.1.Releases false) s goingOn) &&
        ((Storage.machine Bool (· * 11 / 10)).run s goingOn).isSome := by
    decide +kernel
  obtain ⟨s, hs, h⟩ := Option.any_eq_true _ _ |>.mp hrun
  obtain ⟨hdecide, hsome⟩ := Bool.and_eq_true_iff.mp h
  obtain ⟨htexts, hsteps⟩ := of_decide_eq_true hdecide
  obtain ⟨s', hs'⟩ := Option.isSome_iff_exists.mp hsome
  have ht : ⟨4112, [104, 105, 0]⟩ ∈ s.texts false := by
    rw [htexts]
    apply List.mem_cons_self
  obtain ⟨-, -, hafter⟩ := texts_intact (by decide +kernel) hs ht
  have hreads := hafter goingOn s' hsteps hs'
  exact ⟨s, s', _, hs, hs', ht, hreads, hreads.2 [104, 105] rfl (by decide) 64 (by decide)⟩

/-- In a program in which no sum wraps around, no byte is in two of the regions that the pools
have handed out and not taken back, be they of one pool or of two, whatever blocks have been
reused, destroyed and moved from pool to pool. -/
theorem pools_apart {es : List (Event κ × List ℕ)}
    (hfits : (World.machine grow).Steps (World.EventFits grow) World.empty es)
    (hrun : (World.machine grow).run World.empty es = some w) :
  (∀ k, (w.regions k).Pairwise Region.Apart) ∧
    ∀ i j, i ≠ j → ∀ r, r ∈ w.regions i → ∀ r', r' ∈ w.regions j → r.Apart r'
  := by
  obtain ⟨L, h, hgood⟩ := run_good hfits hrun
  constructor
  · intro k
    rcases hl : L k with _ | l
    · rw [World.regions, h.ledger_none.mpr hl]
      apply List.Pairwise.nil
    · rw [h.regions_eq hl]
      apply (List.pairwise_append.mp (hgood k l hl).2.apart).2.1
  · intro i j hne r hr r' hr'
    obtain ⟨l, hl, hmem⟩ := h.of_mem_regions hr
    obtain ⟨l', hl', hmem'⟩ := h.of_mem_regions hr'
    apply h.regions_apart hgood hl hl' hne hmem hmem'

/-- Two pools that hand out regions, of which the second one takes over the blocks of the first. -/
def twoOwners : List (Event Bool × List ℕ) :=
  [(.construct false 64, []), (.construct true 100, []), (.run false (.createBuffer 30), [4096]),
    (.run true (.createBuffer 200), [8192, 12288]), (.moveAssign true false, [16384]),
    (.run false (.createBuffer 20), [20480]), (.run true (.createAligned 8 (.small 3)), [])]

theorem pools_apart_twoOwners :
  ∃ w, (World.machine (· * 11 / 10)).run World.empty twoOwners = some w ∧
    w.regions false = [⟨20496, 20, 1⟩] ∧ w.regions true = [⟨4112, 30, 1⟩, ⟨4144, 8, 8⟩] ∧
    ∀ r, r ∈ w.regions false → ∀ r', r' ∈ w.regions true → r.Apart r'
  := by
  have hrun : ((World.machine (· * 11 / 10)).run World.empty twoOwners).any fun w =>
      decide (w.regions false = [⟨20496, 20, 1⟩] ∧
        w.regions true = [⟨4112, 30, 1⟩, ⟨4144, 8, 8⟩]) := by
    decide +kernel
  obtain ⟨w, hw, h⟩ := Option.any_eq_true _ _ |>.mp hrun
  obtain ⟨hfalse, htrue⟩ := of_decide_eq_true h
  obtain ⟨-, hapart⟩ := pools_apart (by decide +kernel) hw
  exact ⟨w, hw, hfalse, htrue, hapart false true Bool.false_ne_true⟩

end StaticMemoryPool
