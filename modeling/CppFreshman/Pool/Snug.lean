import CppFreshman.Pool.BlockSize
import CppFreshman.Pool.Release
import CppFreshman.Pool.Replay

/-!
# Blocks no larger than the block size

The block size grows with the blocks that are made for single requests, so no block is larger than
the block size (`Arena.Snug`), unless `set_block_size` makes it smaller.  A request is then granted
by the current block only if it needs no more than the block size; so after a request the block size
is at least what it needs (`Grants.snug`).

A pool that takes over the blocks of another one takes over its block size as well; `resized` says of
which pools the block size may have been made smaller.
-/

namespace StaticMemoryPool

variable {grow : ℕ → ℕ} {a a' : Arena} {c : Chain} {es : List Effect} {l l' : Ledger} {n start : ℕ}
  {align : Pool.Alignment} {op : Op}

/-- No cell is larger than the block size. -/
def Arena.Snug (a : Arena) : Prop :=
  ∀ d, d ∈ a.cells → d.capacity ≤ a.blockSize

theorem Arena.snug_none (blockSize pos : ℕ) :
  Arena.Snug ⟨blockSize, pos, none⟩
  := by
  intro d hd
  cases hd

theorem Arena.snug_some {blockSize pos : ℕ} (h : ∀ d, d ∈ c.cells → d.capacity ≤ blockSize) :
  Arena.Snug ⟨blockSize, pos, some c⟩
  := h

/-- Without some of the cells behind the current one. -/
theorem Arena.Snug.cut {kept gone : List Cell} (h : a.Snug) (hc : a.chain = some c)
    (hafter : c.after = kept ++ gone) :
  Arena.Snug { a with chain := some { c with after := kept } }
  := by
  apply Arena.snug_some
  intro d hd
  apply h
  rw [Arena.cells_of_chain hc, Chain.mem_cells, hafter]
  obtain hd | hd := Chain.mem_cells.mp hd
  · left
    apply hd
  · right
    apply List.mem_append_left _ hd

/-- The cells after an allocation that has gone on to the cell `next`. -/
theorem Arena.snug_advance {blockSize pos : ℕ} {next : Cell} {rest : List Cell}
    (h : ∀ d, d ∈ c.cells → d.capacity ≤ blockSize)
    (hnext : ∀ d, d ∈ next :: rest → d.capacity ≤ blockSize) :
  Arena.Snug ⟨blockSize, pos, some ⟨c.before ++ [c.current], next, rest⟩⟩
  := by
  apply snug_some
  intro d hd
  obtain hd | hd := List.mem_append.mp hd
  · apply h
    apply Chain.mem_cells.mpr (Or.inl hd)
  · apply hnext d hd

theorem Opens.snug (hopen : Opens a c es) (h : a.Snug) :
  ∀ d, d ∈ c.cells → d.capacity ≤ a.blockSize
  := by
  intro d hd
  cases hopen with
  | has hc =>
      apply h
      rw [Arena.cells_of_chain hc]
      apply hd
  | first e hnone he =>
      obtain rfl := List.mem_singleton.mp hd
      apply Nat.le_of_eq he

/-- An allocation makes the block size no smaller, and at least as large as what it needs. -/
theorem Allocates.snug {align : ℕ} (h : Allocates grow align n a c a' start es)
    (hgrow : ∀ n, n ≤ grow n) (hsums : SumsFit grow a.blockSize a.pos c.current.capacity align n)
    (hsnug : ∀ d, d ∈ c.cells → d.capacity ≤ a.blockSize) :
  a'.Snug ∧ a.blockSize ≤ a'.blockSize ∧ n ≤ a'.blockSize
  := by
  obtain ⟨hsum, hown⟩ := hsums
  cases h with
  | bump h =>
      have hcurrent := hsnug _ c.current_mem
      rw [Nat.mod_eq_of_lt hsum] at h
      constructor
      · apply Arena.snug_some hsnug
      constructor
      · apply Nat.le_refl
      · apply (Nat.le_add_right _ _).trans (h.trans hcurrent)
  | @reuse next next' rest rest' es h hn hafter hnext =>
      constructor
      · apply Arena.snug_advance hsnug
        intro d hd
        obtain hd | hd := hnext.mem hd
        · apply hsnug
          apply Chain.mem_cells.mpr
          right
          rw [hafter]
          apply hd
        · apply Nat.le_of_eq hd
      · exact ⟨Nat.le_refl _, hn⟩
  | fresh e h hn hafter he =>
      constructor
      · apply Arena.snug_advance hsnug
        intro d hd
        obtain rfl := List.mem_singleton.mp hd
        apply Nat.le_of_eq he
      · exact ⟨Nat.le_refl _, hn⟩
  | own e h hn he =>
      rw [Nat.mod_eq_of_lt hsum] at h
      obtain ⟨-, hsize⟩ := hown h hn
      have hle : n ≤ getBlockSize (grow n) := (hgrow n).trans (le_getBlockSize hsize)
      have hless : a.blockSize ≤ getBlockSize (grow n) := (Nat.le_of_lt hn).trans hle
      constructor
      · apply Arena.snug_some
        intro d hd
        obtain rfl | hd := List.mem_cons.mp hd
        · rw [he]
          apply hle
        · apply (hsnug d hd).trans hless
      · exact ⟨hless, hle⟩

/-- A request makes the block size no smaller, and at least as large as what it needs. -/
theorem Grants.snug (h : Grants grow a n align a' start es) (hgrow : ∀ n, n ≤ grow n)
    (hsums : AlignedFit grow a.blockSize a.pos a.currentCapacity n align) (hsnug : a.Snug) :
  a'.Snug ∧ a.blockSize ≤ a'.blockSize ∧ needed n align ≤ a'.blockSize
  := by
  cases h with
  | small hopen h =>
      rw [hopen.currentCapacity] at hsums
      apply h.snug hgrow hsums (hopen.snug hsnug)
  | @large k c a' start es es' hopen h =>
      obtain ⟨hsum, hsums⟩ := hsums
      rw [hopen.currentCapacity] at hsums
      rw [needed, Nat.mod_eq_of_lt hsum]
      rw [Nat.mod_eq_of_lt hsum] at h
      obtain ⟨hsnug', hsize⟩ := h.snug hgrow hsums (hopen.snug hsnug)
      rw [Arena.Snug, Arena.giveBack_cells, Arena.giveBack_blockSize]
      exact ⟨hsnug', hsize⟩

theorem Clears.blockSize (h : Clears a a' es) :
  a'.blockSize = a.blockSize
  := by
  cases h <;> rfl

theorem Clears.snug (h : Clears a a' es) (hsnug : a.Snug) :
  a'.Snug
  := by
  cases h with
  | nothing hc => apply Arena.snug_none
  | first hc hcells hb =>
      apply Arena.snug_some
      intro d hd
      obtain hd | hd := hb.mem hd
      · apply hsnug
        rw [Arena.cells_of_chain hc, hcells]
        apply hd
      · apply Nat.le_of_eq hd

/-- Of the operations only `set_block_size` can make the block size smaller. -/
theorem Ledger.Step.snug (hstep : l.Step grow op l' es) (hgrow : ∀ n, n ≤ grow n)
    (hfits : l.arena.OpFits grow op) (hop : ∀ blockSize, op ≠ .setBlockSize blockSize)
    (h : l.arena.Snug) :
  l'.arena.Snug
  := by
  cases hstep with
  | createBuffer hg => exact (hg.snug hgrow hfits h).1
  | createAligned hg => exact (hg.snug hgrow hfits h).1
  | createTrivial hg => exact (hg.snug hgrow hfits h).1
  | createObject hg => exact (hg.snug hgrow hfits h).1
  | registerDestructor => exact h
  | setBlockSize blockSize => exact absurd rfl (hop blockSize)
  | shrinkNothing hnone => exact h
  | shrinkFrees hc hbefore hpos => apply Arena.snug_none
  | shrinkTrims hc hused => exact h.cut hc (List.nil_append _).symm
  | minNothing hnone => exact h
  | minFrees hnone hclear => apply Arena.snug_none
  | minTrims hc hmin hafter => exact h.cut hc hafter
  | clear hclear => exact hclear.snug h

/-! ### Programs -/

section

variable {κ : Type}

variable [DecidableEq κ]

/-- The pools of which the block size has been set since they or the pool that their blocks are from
were constructed, after an event. -/
def Event.resize (resized : κ → Bool) : Event κ → κ → Bool
  | .construct k _ => Function.update resized k false
  | .run k (.setBlockSize _) => Function.update resized k true
  | .run _ _ => resized
  | .moveConstruct k other => Function.update resized k (resized other)
  | .moveAssign k other => Function.update resized k (resized other)
  | .destroy _ => resized

/-- The pools of which the block size has been set in a run. -/
def resized (events : List (Event κ × List ℕ)) : κ → Bool :=
  events.foldl (fun resized e => e.1.resize resized) fun _ => false

theorem resized_concat (events : List (Event κ × List ℕ)) (e : Event κ × List ℕ) :
  resized (events ++ [e]) = e.1.resize (resized events)
  := List.foldl_concat _ _ _ _

/-- The pools of which the block size has not been set have no block that is larger. -/
def Snugs (resized : κ → Bool) (L : Ledgers κ) : Prop :=
  ∀ k l, L k = some l → resized k = false → l.arena.Snug

variable {w w' : World κ} {L L' : Ledgers κ} {k : κ} {set : κ → Bool} {b : Bool} {e : Event κ}
  {news : List ℕ} {s : Member}

theorem Snugs.update (h : Snugs set L) (hl : b = false → l.arena.Snug) :
  Snugs (Function.update set k b) (Function.update L k (some l))
  := by
  intro i l' hl' hset
  by_cases hi : i = k
  · rw [hi, Function.update_self] at hl' hset
    obtain rfl := Option.some.inj hl'
    apply hl hset
  · rw [Function.update_of_ne hi] at hl' hset
    apply h i l' hl' hset

/-- A pool whose blocks have been taken over has none. -/
theorem Snugs.movedFrom (h : Snugs set L) (l : Ledger) :
  Snugs set (Function.update L k (some l.movedFrom))
  := by
  rw [← Function.update_eq_self k set]
  apply h.update
  intro _
  apply Arena.snug_none

theorem Snugs.remove (h : Snugs set L) :
  Snugs set (Function.update L k none)
  := by
  intro i l hl hset
  by_cases hi : i = k
  · rw [hi, Function.update_self] at hl
    cases hl
  · rw [Function.update_of_ne hi] at hl
    apply h i l hl hset

/-- Every event keeps the blocks of the pools no larger than their block sizes. -/
theorem Turn.snugs (hturn : Turn grow L e L' es) (h : Tracks w L) (hgrow : ∀ n, n ≤ grow n)
    (hfits : World.EventFits grow w (e, news)) (hsnugs : Snugs set L) :
  Snugs (e.resize set) L'
  := by
  cases hturn with
  | construct hk =>
      apply hsnugs.update
      intro _
      apply Arena.snug_none
  | @run k op l l' es hl hstep =>
      obtain ⟨s, hs, hrep⟩ := h.member hl
      rw [World.EventFits, hs] at hfits
      have hkeeps : (∀ blockSize, op ≠ .setBlockSize blockSize) →
          Snugs set (Function.update L k (some l')) := by
        intro hop
        rw [← Function.update_eq_self k set]
        apply hsnugs.update
        intro hset
        apply hstep.snug hgrow (hrep.fits.mp hfits) hop (hsnugs k l hl hset)
      cases op with
      | setBlockSize blockSize =>
          apply hsnugs.update
          nofun
      | createBuffer n => exact hkeeps nofun
      | createAligned n align => exact hkeeps nofun
      | createObject size align destructor grows => exact hkeeps nofun
      | registerDestructor destructor pointer grows => exact hkeeps nofun
      | shrinkToFit => exact hkeeps nofun
      | shrinkToFitMin minCapacity => exact hkeeps nofun
      | clear => exact hkeeps nofun
  | moveConstruct hk hother =>
      apply (hsnugs.update (hsnugs _ _ hother)).movedFrom
  | moveAssign hk hclears hne hother =>
      apply (hsnugs.update (hsnugs _ _ hother)).movedFrom
  | @moveSelf k l a es hk hclears =>
      rw [Event.resize, Function.update_eq_self]
      apply hsnugs.movedFrom
  | destroy hk => exact hsnugs.remove

/-- A pool that a program reaches has no block that is larger than its block size, unless that has
been set. -/
theorem run_snugs {events : List (Event κ × List ℕ)} (hgrow : ∀ n, n ≤ grow n)
    (hrun : (World.machine grow).run World.empty events = some w)
    (hfits : (World.machine grow).Steps (World.EventFits grow) World.empty events) :
  ∃ L, Tracks w L ∧ Snugs (resized events) L
  := by
  revert hfits
  apply (World.machine grow).run_induction
    (P := fun events w => (World.machine grow).Steps (World.EventFits grow) World.empty events →
      ∃ L, Tracks w L ∧ Snugs (resized events) L) _ _ hrun
  · intro _
    use fun _ => none, empty_tracks
    intro k l hl
    cases hl
  · rintro events t ⟨e, news⟩ u ht ih hstep hfits
    obtain ⟨hold, hfit⟩ := (Machine.steps_concat_iff ht).mp hfits
    obtain ⟨L, htracks, hsnugs⟩ := ih hold
    obtain ⟨L', es, hturn, htracks', -⟩ := step_tracks htracks hstep
    use L', htracks'
    rw [resized_concat]
    apply hturn.snugs htracks hgrow hfit hsnugs

/-- A pool of which the block size has not been set is a chain of cells no larger than it. -/
theorem run_snug {events : List (Event κ × List ℕ)} (hgrow : ∀ n, n ≤ grow n)
    (hrun : (World.machine grow).run World.empty events = some w)
    (hfits : (World.machine grow).Steps (World.EventFits grow) World.empty events)
    (hs : w.members k = some s) (hset : resized events k = false) :
  w.memory.Sane ∧ ∃ l, Represents w.memory s l ∧ l.arena.Snug
  := by
  obtain ⟨L, htracks, hsnugs⟩ := run_snugs hgrow hrun hfits
  obtain ⟨l, hl, hrep⟩ := htracks.ledger hs
  exact ⟨htracks.sane, l, hrep, hsnugs k l hl hset⟩

end

end StaticMemoryPool
