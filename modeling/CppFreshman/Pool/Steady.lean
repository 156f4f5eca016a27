import CppFreshman.Pool.Snug

/-!
# The steady state of a repeated workload

A workload is a list of requests followed by `clear`.  When it is run again and again, the block size
is large enough after the first time (`settled`); the second time leaves the cells that it needs in
the order in which it needs them, so that it can be run again without a new one (`Clears.fixed`), and
from the third time on nothing changes (`steady`).
-/

namespace StaticMemoryPool

/-- The operations of a workload. -/
def workload (rs : List Request) : List Op :=
  rs.map Request.op ++ [.clear]

/-- The events run the workload, with any results of `operator new`. -/
def Repeats (rs : List Request) (es : List (Op × List ℕ)) : Prop :=
  es.map Prod.fst = workload rs

/-- The last branch of `create_buffer_internal` is taken, which makes a block for the request. -/
def Oversize (blockSize pos capacity n : ℕ) : Pool.Alignment → Prop
  | .small k => capacity < (n + alignPos (2 ^ k.val) pos) % 2 ^ 64 ∧ blockSize < n
  | .large k =>
      capacity < ((n + 2 ^ k.val) % 2 ^ 64 + alignPos 1 pos) % 2 ^ 64 ∧
        blockSize < (n + 2 ^ k.val) % 2 ^ 64

instance {blockSize pos capacity n : ℕ} : ∀ align, Decidable (Oversize blockSize pos capacity n align)
  | .small k => inferInstanceAs
      (Decidable (capacity < (n + alignPos (2 ^ k.val) pos) % 2 ^ 64 ∧ blockSize < n))
  | .large k => inferInstanceAs
      (Decidable (capacity < ((n + 2 ^ k.val) % 2 ^ 64 + alignPos 1 pos) % 2 ^ 64 ∧
        blockSize < (n + 2 ^ k.val) % 2 ^ 64))

/-- The operation makes a block for itself. -/
def Op.Oversize (blockSize pos capacity : ℕ) : Op → Prop
  | .createBuffer n => StaticMemoryPool.Oversize blockSize pos capacity n (.small 0)
  | .createAligned n align => StaticMemoryPool.Oversize blockSize pos capacity n align
  | .createObject n align _ _ => StaticMemoryPool.Oversize blockSize pos capacity n.val align
  | _ => False

instance {blockSize pos capacity : ℕ} : ∀ op, Decidable (Op.Oversize blockSize pos capacity op)
  | .createBuffer n =>
      inferInstanceAs (Decidable (StaticMemoryPool.Oversize blockSize pos capacity n (.small 0)))
  | .createAligned n align =>
      inferInstanceAs (Decidable (StaticMemoryPool.Oversize blockSize pos capacity n align))
  | .createObject n align _ _ =>
      inferInstanceAs (Decidable (StaticMemoryPool.Oversize blockSize pos capacity n.val align))
  | .registerDestructor _ _ _ => isFalse id
  | .setBlockSize _ => isFalse id
  | .shrinkToFit => isFalse id
  | .shrinkToFitMin _ => isFalse id
  | .clear => isFalse id

/-- The event makes a block for a single request. -/
def TakesOwn (s : Member × Memory) (e : Op × List ℕ) : Prop :=
  e.1.Oversize s.1.pool.blockSize s.1.pool.pos (s.1.pool.currentCapacity s.2)

instance {s : Member × Memory} {e : Op × List ℕ} : Decidable (TakesOwn s e) := by
  unfold TakesOwn
  infer_instance

/-- No event makes a block for a single request, and the block size stays as it is. -/
structure Settled (grow : ℕ → ℕ) (s : Member × Memory) (es : List (Op × List ℕ)) : Prop where
  takesOwn : (machine grow).Steps (fun t e => ¬ TakesOwn t e) s es
  blockSize : (machine grow).Along (fun t => t.1.pool.blockSize = s.1.pool.blockSize) s es

/-- No block has been created or destroyed since the state `s`, and `capacity` returns the same. -/
structure Unchanged (s t : Member × Memory) : Prop where
  trace : t.2.trace = s.2.trace
  capacity : t.1.pool.capacity t.2 = s.1.pool.capacity s.2

/-- No event creates or destroys a block or changes the capacity. -/
def Idle (grow : ℕ → ℕ) (s : Member × Memory) (es : List (Op × List ℕ)) : Prop :=
  (machine grow).Along (Unchanged s) s es

/-- What is handed out for the requests of a workload, before its `clear`. -/
def handed (grow : ℕ → ℕ) (s : Member × Memory) (es : List (Op × List ℕ)) : Option (List Region) :=
  ((machine grow).run s es.dropLast).map fun t => t.1.regions

variable {grow : ℕ → ℕ} {a a' a₀ a₁ : Arena} {c : Chain} {effects effects' : List Effect} {l : Ledger}
  {r : Request} {rs : List Request} {regions : List Region} {s t : Member × Memory}
  {es : List (Op × List ℕ)} {news : List ℕ} {start : ℕ}

/-! ### One request -/

theorem Request.oversize_lt {blockSize pos capacity : ℕ}
    (h : r.op.Oversize blockSize pos capacity) :
  blockSize < needed r.size r.align
  := by
  cases r with
  | createBuffer n => exact h.2
  | createAligned n align =>
      cases align with
      | small k => exact h.2
      | large k => exact h.2

theorem Request.opFits_iff :
  a.OpFits grow r.op ↔ AlignedFit grow a.blockSize a.pos a.currentCapacity r.size r.align
  := by
  cases r <;> rfl

/-- What a request does to the ledger. -/
theorem Request.step_cases {l' : Ledger} (h : l.Step grow r.op l' effects) :
  ∃ a start, Grants grow l.arena r.size r.align a start effects ∧
    l' = l.handOut a ⟨start, r.size, r.align.value⟩
  := by
  cases r with
  | createBuffer n =>
      cases h with
      | createBuffer h => exact ⟨_, _, h, rfl⟩
  | createAligned n align =>
      cases h with
      | createAligned h => exact ⟨_, _, h, rfl⟩

theorem step_request (hsane : s.2.Sane) (hrep : Represents s.2 s.1 l)
    (hstep : (machine grow).step s (r.op, news) = some t) :
  ∃ a start effects, Grants grow l.arena r.size r.align a start effects ∧ t.2.Sane ∧
    Represents t.2 t.1 (l.handOut a ⟨start, r.size, r.align.value⟩)
  := by
  obtain ⟨l', effects, hstep', hrep', hperforms⟩ := step_represents hsane hrep hstep
  obtain ⟨a, start, hgrants, rfl⟩ := Request.step_cases hstep'
  exact ⟨a, start, effects, hgrants, hperforms.sane, hrep'⟩

theorem step_clear (hsane : s.2.Sane) (hrep : Represents s.2 s.1 l)
    (hstep : (machine grow).step s (.clear, news) = some t) :
  ∃ a effects, Clears l.arena a effects ∧ t.2.Sane ∧ Represents t.2 t.1 ⟨a, [], [], []⟩
  := by
  obtain ⟨l', effects, hstep', hrep', hperforms⟩ := step_represents hsane hrep hstep
  cases hstep' with
  | clear hclears => exact ⟨_, _, hclears, hperforms.sane, hrep'⟩

/-- The events of requests begin with that of the first one. -/
theorem requests_cons (h : es.map Prod.fst = (r :: rs).map Request.op) :
  ∃ news fs, es = (r.op, news) :: fs ∧ fs.map Prod.fst = rs.map Request.op
  := by
  obtain ⟨⟨op, news⟩, fs, rfl, hop, hfs⟩ := List.map_eq_cons_iff.mp h
  obtain rfl : op = r.op := hop
  exact ⟨news, fs, rfl, hfs⟩

/-! ### The first time -/

/-- After requests the block size is at least what each of them needs. -/
theorem run_needed (hgrow : ∀ n, n ≤ grow n) (hsane : s.2.Sane) (hrep : Represents s.2 s.1 l)
    (hsnug : l.arena.Snug) (hes : es.map Prod.fst = rs.map Request.op)
    (hfits : (machine grow).Steps (OpFits grow) s es) (hrun : (machine grow).run s es = some t) :
  t.2.Sane ∧ ∃ l', Represents t.2 t.1 l' ∧ l'.arena.Snug ∧
    l.arena.blockSize ≤ l'.arena.blockSize ∧
    ∀ r, r ∈ rs → needed r.size r.align ≤ l'.arena.blockSize
  := by
  induction rs generalizing s l es with
  | nil =>
      obtain rfl := List.map_eq_nil_iff.mp hes
      obtain rfl := Option.some.inj hrun
      refine ⟨hsane, l, hrep, hsnug, Nat.le_refl _, ?_⟩
      intro r hr
      cases hr
  | cons r rs ih =>
      obtain ⟨news, es, rfl, htail⟩ := requests_cons hes
      obtain ⟨s', hstep, hrun⟩ := Option.bind_eq_some_iff.mp hrun
      obtain ⟨hfit, hfits⟩ := Machine.steps_cons.mp hfits
      obtain ⟨a, start, effects, hgrants, hsane', hrep'⟩ := step_request hsane hrep hstep
      obtain ⟨hsnug', hle, hneeded⟩ :=
        hgrants.snug hgrow (Request.opFits_iff.mp (hrep.fits.mp hfit)) hsnug
      obtain ⟨hsane'', l', hrep'', hsnug'', hle', hneeded'⟩ :=
        ih hsane' hrep' hsnug' htail (hfits s' hstep) hrun
      refine ⟨hsane'', l', hrep'', hsnug'', hle.trans hle', ?_⟩
      intro r' hr'
      obtain rfl | hr' := List.mem_cons.mp hr'
      · apply hneeded.trans hle'
      · apply hneeded' r' hr'

/-- The requests are granted one after the other. -/
theorem run_grantings (hsane : s.2.Sane) (hrep : Represents s.2 s.1 l)
    (hes : es.map Prod.fst = rs.map Request.op) (hrun : (machine grow).run s es = some t) :
  ∃ a regions effects, Grantings grow l.arena rs a regions effects ∧ t.2.Sane ∧
    Represents t.2 t.1 ⟨a, l.regions ++ regions, l.lost, l.cleaners⟩
  := by
  induction rs generalizing s l es with
  | nil =>
      obtain rfl := List.map_eq_nil_iff.mp hes
      obtain rfl := Option.some.inj hrun
      refine ⟨l.arena, [], [], Grantings.nil _, hsane, ?_⟩
      rw [List.append_nil]
      apply hrep
  | cons r rs ih =>
      obtain ⟨news, es, rfl, htail⟩ := requests_cons hes
      obtain ⟨s', hstep, hrun⟩ := Option.bind_eq_some_iff.mp hrun
      obtain ⟨a, start, effects, hgrants, hsane', hrep'⟩ := step_request hsane hrep hstep
      obtain ⟨a', regions, effects', hrest, hsane'', hrep''⟩ := ih hsane' hrep' htail hrun
      refine ⟨a', ⟨start, r.size, r.align.value⟩ :: regions, effects ++ effects',
        Grantings.cons hgrants hrest, hsane'', ?_⟩
      rw [Ledger.handOut, List.append_assoc] at hrep''
      apply hrep''

/-- After a request there is a cell. -/
theorem Grants.chain {n : ℕ} {align : Pool.Alignment} (h : Grants grow a n align a' start effects) :
  a'.chain ≠ none
  := by
  cases h with
  | small hopen h =>
      obtain ⟨c, hc⟩ := h.chain
      rw [hc]
      apply Option.some_ne_none
  | large hopen h =>
      obtain ⟨c, hc⟩ := h.chain
      rw [Arena.giveBack_chain, hc]
      apply Option.some_ne_none

/-- An arena without cells after requests has granted none. -/
theorem Grantings.nil_of_none (h : Grantings grow a rs a' regions effects) (hnone : a'.chain = none) :
  a.chain = none ∧ rs = []
  := by
  induction h with
  | nil a => exact ⟨hnone, rfl⟩
  | cons h _ ih => exact absurd (ih hnone).1 h.chain

/-- A repetition is the requests and a `clear`. -/
theorem Repeats.split (h : Repeats rs es) :
  ∃ fs news, es = fs ++ [(.clear, news)] ∧ fs.map Prod.fst = rs.map Request.op
  := by
  rw [Repeats, workload] at h
  obtain ⟨fs, gs, rfl, hfs, hgs⟩ := List.map_eq_append_iff.mp h
  obtain ⟨⟨op, news⟩, gs, rfl, hop, htail⟩ := List.map_eq_cons_iff.mp hgs
  obtain rfl : op = .clear := hop
  obtain rfl := List.map_eq_nil_iff.mp htail
  exact ⟨fs, news, rfl, hfs⟩

/-! ### The block size stays -/

/-- A request that needs no more than the block size does not change it. -/
theorem Allocates.blockSize {align n : ℕ} (h : Allocates grow align n a c a' start effects)
    (hn : n ≤ a.blockSize) :
  a'.blockSize = a.blockSize
  := by
  cases h with
  | bump h => rfl
  | reuse h hn' hafter hnext => rfl
  | fresh d h hn' hafter hd => rfl
  | own d h hlt hd => exact absurd hn (Nat.not_le.mpr hlt)

theorem Grants.blockSize {n : ℕ} {align : Pool.Alignment}
    (h : Grants grow a n align a' start effects) (hn : needed n align ≤ a.blockSize) :
  a'.blockSize = a.blockSize
  := by
  cases h with
  | small hopen h => exact h.blockSize hn
  | large hopen h =>
      rw [Arena.giveBack_blockSize]
      apply h.blockSize hn

/-- With a block size that is large enough no request needs a block of its own. -/
theorem settled (hsane : s.2.Sane) (hrep : Represents s.2 s.1 l)
    (hneeded : ∀ r, r ∈ rs → needed r.size r.align ≤ l.arena.blockSize)
    (hes : ∀ op, op ∈ es.map Prod.fst → op ∈ workload rs) :
  Settled grow s es
  := by
  have hops : (machine grow).Steps (fun _ e => e.1 ∈ workload rs) s es := by
    intro fs e t hfs _
    apply hes
    apply List.mem_map_of_mem
    apply hfs.subset
    apply List.mem_append_right _ List.mem_cons_self
  have halong : (machine grow).Along (fun t => t.2.Sane ∧ ∃ l', Represents t.2 t.1 l' ∧
      l'.arena.blockSize = l.arena.blockSize) s es := by
    apply Machine.run_invariant_of_steps (I := fun t => t.2.Sane ∧ ∃ l', Represents t.2 t.1 l' ∧
      l'.arena.blockSize = l.arena.blockSize) _ hops ⟨hsane, l, hrep, rfl⟩
    rintro t ⟨op, news⟩ u ⟨hsane, l', hrep, hsize⟩ hop hstep
    obtain hop | hop := List.mem_append.mp hop
    · obtain ⟨r, hr, rfl⟩ := List.mem_map.mp hop
      obtain ⟨a, start, effects, hgrants, hsane', hrep'⟩ := step_request hsane hrep hstep
      refine ⟨hsane', _, hrep', ?_⟩
      rw [← hsize] at hneeded ⊢
      apply hgrants.blockSize (hneeded r hr)
    · obtain rfl : op = .clear := List.mem_singleton.mp hop
      obtain ⟨a, effects, hclears, hsane', hrep'⟩ := step_clear hsane hrep hstep
      exact ⟨hsane', _, hrep', hclears.blockSize.trans hsize⟩
  constructor
  · intro fs e t hfs ht htakes
    obtain ⟨-, l', hrep', hsize⟩ :=
      halong fs t ((List.prefix_append fs [e]).trans hfs) ht
    obtain hop | hop := List.mem_append.mp (hops fs e t hfs ht)
    · obtain ⟨r, hr, hop⟩ := List.mem_map.mp hop
      rw [TakesOwn, ← hop] at htakes
      have hlt := Request.oversize_lt htakes
      rw [hrep'.shows.blockSize, hsize] at hlt
      apply absurd (hneeded r hr) (Nat.not_le.mpr hlt)
    · rw [TakesOwn, List.mem_singleton.mp hop] at htakes
      apply htakes
  · intro fs t hfs ht
    obtain ⟨-, l', hrep', hsize⟩ := halong fs t hfs ht
    rw [hrep'.shows.blockSize, hsize, hrep.shows.blockSize]

/-! ### The second time -/

/-- After a `clear` the current cell is the first one, and as large as the block size. -/
theorem Clears.first_current (h : Clears a a' effects) (hc : a'.chain = some c) :
  c.before = [] ∧ a'.pos = 0 ∧ a'.blockSize ≤ c.current.capacity
  := by
  cases h with
  | nothing hnone => cases hc
  | first hchain hcells hb =>
      obtain rfl := Option.some.inj hc
      exact ⟨rfl, rfl, hb.le_capacity⟩

/-- A first cell as large as the block size is kept by `clear`. -/
theorem Clears.keeps {rest : List Cell} (h : Clears a a' effects) (hc : a.chain = some c) {b : Cell}
    (hcells : c.cells = b :: rest) (hle : a.blockSize ≤ b.capacity) :
  a' = ⟨a.blockSize, 0, some ⟨[], b, rest⟩⟩ ∧ effects = []
  := by
  cases h with
  | nothing hnone =>
      rw [hc] at hnone
      cases hnone
  | @first c' b' b'' rest' rest'' effects hc' hcells' hb =>
      obtain rfl := Option.some.inj (hc.symm.trans hc')
      obtain ⟨rfl, rfl⟩ := List.cons_eq_cons.mp (hcells.symm.trans hcells')
      cases hb with
      | keeps h => exact ⟨rfl, rfl⟩
      | merges d hlt hd => exact absurd hle (Nat.not_le.mpr hlt)

/-- What a workload leaves when the block size is large enough is a fixed point: the workload can be
run from there as before, makes no cell, and leads back. -/
theorem Clears.fixed (hfirst : Clears a₀ a effects) (hnone : a.chain = none → rs = [])
    (hneeded : ∀ r, r ∈ rs → needed r.size r.align ≤ a.blockSize)
    (hgrantings : Grantings grow a rs a' regions effects') {effects'' : List Effect}
    (hclears : Clears a' a₁ effects'') :
  Grantings grow a₁ rs a' regions [] ∧ Clears a' a₁ []
  := by
  rcases hc : a.chain with _ | c
  · obtain rfl := hnone hc
    cases hgrantings
    cases hclears with
    | nothing h =>
        cases hfirst with
        | nothing h' => exact ⟨Grantings.nil _, Clears.nothing h⟩
        | first h' hcells hb => cases hc
    | first h hcells hb =>
        rw [hc] at h
        cases h
  · obtain ⟨hbefore, hpos, hcurrent⟩ := hfirst.first_current hc
    have hused : c.used = [c.current] := by
      rw [Chain.used, hbefore]
      rfl
    have hfull : c.Full a.blockSize := by
      intro d hd
      rw [hused] at hd
      obtain rfl := List.mem_singleton.mp hd
      apply hcurrent
    obtain ⟨c', more, hc', hsize, -, hused', hagain⟩ := hgrantings.replay hc hneeded hfull
    have hcells : c'.cells = c.current :: (more ++ c'.after) := by
      rw [Chain.cells_eq, hused', hused]
      rfl
    rw [← hsize] at hcurrent
    obtain ⟨rfl, rfl⟩ := hclears.keeps hc' hcells hcurrent
    have hstart : a.setAfter (more ++ c'.after) =
        ⟨a'.blockSize, 0, some ⟨[], c.current, more ++ c'.after⟩⟩ := by
      rw [Arena.setAfter, hc, hsize, hpos, ← hbefore]
      rfl
    have hgrantings' := hagain c'.after
    rw [hstart, Arena.setAfter_self hc'] at hgrantings'
    exact ⟨hgrantings', hclears⟩

/-! ### Later -/

theorem Unchanged.refl (s : Member × Memory) :
  Unchanged s s
  := ⟨rfl, rfl⟩

theorem Unchanged.trans {u : Member × Memory} (h : Unchanged s t) (h' : Unchanged t u) :
  Unchanged s u
  := ⟨h'.trace.trans h.trace, h'.capacity.trans h.capacity⟩

theorem idle_nil (grow : ℕ → ℕ) (s : Member × Memory) :
  Idle grow s []
  := by
  intro fs t hfs ht
  obtain rfl := List.prefix_nil.mp hfs
  obtain rfl := Option.some.inj ht
  apply Unchanged.refl

theorem Idle.cons {e : Op × List ℕ} (hstep : (machine grow).step s e = some t) (h : Unchanged s t)
    (h' : Idle grow t es) :
  Idle grow s (e :: es)
  := by
  apply Machine.Along.cons (Unchanged.refl s) hstep
  intro fs u hfs hu
  apply h.trans (h' fs u hfs hu)

theorem Idle.append {fs : List (Op × List ℕ)} (h : Idle grow s es)
    (ht : (machine grow).run s es = some t) (h' : Idle grow t fs) :
  Idle grow s (es ++ fs)
  := by
  have hunchanged := h.last ht
  apply Machine.Along.append h ht
  intro gs u hgs hu
  apply hunchanged.trans (h' gs u hgs hu)

/-- Pools of the same cells have the same capacity. -/
theorem unchanged_of_cells {l' : Ledger} (hrep : Represents s.2 s.1 l) (hrep' : Represents t.2 t.1 l')
    (hcells : l'.arena.cells = l.arena.cells) (htrace : t.2.trace = s.2.trace) :
  Unchanged s t
  := by
  constructor
  · apply htrace
  · rw [capacity_eq hrep'.shows, capacity_eq hrep.shows, hcells]

theorem perform_request (s : Member) (m : Memory) (r : Request) :
  perform grow s m r.op = (do
    let x ← s.pool.createAligned grow m r.size r.align
    pure (s.handOut r.size r.align.value x))
  := by
  cases r <;> rfl

/-- A request that makes no cell succeeds, whatever `operator new` would return. -/
theorem step_request_still (hrep : Represents s.2 s.1 l)
    (hstill : Grants grow l.arena r.size r.align a start []) (news : List ℕ) :
  ∃ t, (machine grow).step s (r.op, news) = some t ∧
    Represents t.2 t.1 (l.handOut a ⟨start, r.size, r.align.value⟩) ∧ Unchanged s t
  := by
  obtain ⟨hshows, hcleaners, hregions, hlost⟩ := hrep.setNews news
  obtain ⟨p, heq, hshows', hcleaners'⟩ := createAligned_still hshows hstill
  use s.1.handOut r.size r.align.value (start, p, { s.2 with news := news })
  have hrep' : Represents { s.2 with news := news }
      (s.1.handOut r.size r.align.value (start, p, { s.2 with news := news })).1
      (l.handOut a ⟨start, r.size, r.align.value⟩) := by
    constructor
    · apply hshows'
    · apply hcleaners'.trans hcleaners
    · rw [Ledger.handOut, ← hregions]
      rfl
    · apply hlost
  refine ⟨?_, hrep', unchanged_of_cells hrep hrep' hstill.still_cells rfl⟩
  rw [machine]
  simp only
  rw [perform_request, heq]
  rfl

theorem Clears.still_cells (h : Clears a a' []) :
  a'.cells = a.cells
  := by
  generalize heffects : ([] : List Effect) = effects at h
  cases h with
  | nothing hc =>
      rw [Arena.cells_of_none hc]
      rfl
  | first hc hcells hb =>
      cases hb with
      | keeps hle =>
          rw [Arena.cells_of_chain hc, hcells]
          rfl
      | merges d hlt hd => exact absurd heffects.symm (Cell.made_ne _ _)

variable (grow) in
theorem step_clear_still (hrep : Represents s.2 s.1 l) (hstill : Clears l.arena a [])
    (hcleaners : l.cleaners = []) (news : List ℕ) :
  ∃ t, (machine grow).step s (.clear, news) = some t ∧ Represents t.2 t.1 ⟨a, [], [], []⟩ ∧
    Unchanged s t
  := by
  have hrep' := hrep.setNews news
  obtain ⟨p, heq, hshows, hnil⟩ :=
    clear_still hrep'.shows hstill (hrep'.cleaners.trans hcleaners)
  have hcleared : Represents { s.2 with news := news } ⟨p, [], []⟩ ⟨a, [], [], []⟩ :=
    ⟨hshows, hnil, rfl, rfl⟩
  use (⟨p, [], []⟩, { s.2 with news := news })
  refine ⟨?_, hcleared, unchanged_of_cells hrep hcleared hstill.still_cells rfl⟩
  rw [machine]
  simp only [perform]
  rw [heq]
  rfl

/-- Requests that make no cell succeed one after the other. -/
theorem run_requests_still (h : Grantings grow a rs a' regions effects) (hstill : effects = [])
    (hrep : Represents s.2 s.1 l) (ha : l.arena = a) (hes : es.map Prod.fst = rs.map Request.op) :
  ∃ t, (machine grow).run s es = some t ∧
    Represents t.2 t.1 ⟨a', l.regions ++ regions, l.lost, l.cleaners⟩ ∧ Idle grow s es
  := by
  induction h generalizing s l es with
  | nil a =>
      obtain rfl := List.map_eq_nil_iff.mp hes
      use s, rfl
      rw [List.append_nil, ← ha]
      exact ⟨hrep, idle_nil grow s⟩
  | cons h _ ih =>
      obtain ⟨rfl, hrest⟩ := List.append_eq_nil_iff.mp hstill
      obtain ⟨news, es, rfl, htail⟩ := requests_cons hes
      rw [← ha] at h
      obtain ⟨s', hstep, hrep', hunchanged⟩ := step_request_still hrep h news
      obtain ⟨t, hrun, hrep'', hidle⟩ := ih hrest hrep' rfl htail
      rw [Ledger.handOut, List.append_assoc] at hrep''
      use t
      refine ⟨?_, hrep'', hidle.cons hstep hunchanged⟩
      rw [Machine.run_cons, hstep]
      apply hrun

/-- From the fixed point a workload is run as before. -/
theorem run_repeat_still (h : Grantings grow a rs a' regions []) (hclears : Clears a' a [])
    (hrep : Represents s.2 s.1 ⟨a, [], [], []⟩) (hes : Repeats rs es) :
  ∃ t, (machine grow).run s es = some t ∧ Represents t.2 t.1 ⟨a, [], [], []⟩ ∧ Idle grow s es ∧
    handed grow s es = some regions
  := by
  obtain ⟨fs, news, rfl, hfs⟩ := hes.split
  obtain ⟨u, hrun, hrep', hidle⟩ := run_requests_still h rfl hrep rfl hfs
  obtain ⟨t, hstep, hrep'', hunchanged⟩ := step_clear_still grow hrep' hclears rfl news
  refine ⟨t, ?_, hrep'', ?_, ?_⟩
  · apply (machine grow).run_concat_eq_some.mpr ⟨u, hrun, hstep⟩
  · apply hidle.append hrun
    apply Idle.cons hstep hunchanged (idle_nil grow t)
  · rw [handed, List.dropLast_concat, hrun, Option.map_some, hrep'.regions]
    rfl

/-- So it is run any number of times. -/
theorem run_repeats_still {reps : List (List (Op × List ℕ))}
    (h : Grantings grow a rs a' regions []) (hclears : Clears a' a [])
    (hrep : Represents s.2 s.1 ⟨a, [], [], []⟩) (hreps : ∀ rep, rep ∈ reps → Repeats rs rep) :
  ∃ t, (machine grow).run s reps.flatten = some t ∧ Represents t.2 t.1 ⟨a, [], [], []⟩ ∧
    Idle grow s reps.flatten
  := by
  induction reps generalizing s with
  | nil => exact ⟨s, rfl, hrep, idle_nil grow s⟩
  | cons rep reps ih =>
      obtain ⟨u, hu, hrep', hidle, -⟩ :=
        run_repeat_still h hclears hrep (hreps rep List.mem_cons_self)
      obtain ⟨t, ht, hrep'', hidle'⟩ := ih hrep' (by
        intro rep' hrep'
        apply hreps rep' (List.mem_cons_of_mem rep hrep'))
      refine ⟨t, ?_, hrep'', hidle.append hu hidle'⟩
      rw [List.flatten_cons, Machine.run_append, hu]
      apply ht

/-! ### The steady state -/

/-- What a workload leaves is its fixed point from the second time on. -/
theorem run_second {second : List (Op × List ℕ)} (hsane : t.2.Sane)
    (hrep : Represents t.2 t.1 ⟨a, [], [], []⟩) (hfirst : Clears a₀ a effects)
    (hnone : a.chain = none → rs = [])
    (hneeded : ∀ r, r ∈ rs → needed r.size r.align ≤ a.blockSize) (hsecond : Repeats rs second)
    {u : Member × Memory} (hu : (machine grow).run t second = some u) :
  ∃ a' a₁ regions, Represents u.2 u.1 ⟨a₁, [], [], []⟩ ∧ Grantings grow a₁ rs a' regions [] ∧
    Clears a' a₁ [] ∧ handed grow t second = some regions
  := by
  obtain ⟨fs, news, rfl, hfs⟩ := hsecond.split
  obtain ⟨v, hv, hstep⟩ := (machine grow).run_concat_eq_some.mp hu
  obtain ⟨a', regions, effects', hgrantings, hsane', hrep'⟩ := run_grantings hsane hrep hfs hv
  obtain ⟨a₁, effects'', hclears, -, hrep''⟩ := step_clear hsane' hrep' hstep
  obtain ⟨hgrantings', hclears'⟩ := hfirst.fixed hnone hneeded hgrantings hclears
  refine ⟨a', a₁, regions, hrep'', hgrantings', hclears', ?_⟩
  rw [handed, List.dropLast_concat, hv, Option.map_some, hrep'.regions]
  rfl

/-- After the first time there is a cell if there was a request, and the block size is large enough
for all of them. -/
theorem run_first {first : List (Op × List ℕ)} (hgrow : ∀ n, n ≤ grow n) (hsane : s.2.Sane)
    (hrep : Represents s.2 s.1 l) (hsnug : l.arena.Snug) (hfirst : Repeats rs first)
    (hfits : (machine grow).Steps (OpFits grow) s first)
    (ht : (machine grow).run s first = some t) :
  ∃ a₀ a effects, t.2.Sane ∧ Represents t.2 t.1 ⟨a, [], [], []⟩ ∧ Clears a₀ a effects ∧
    (a.chain = none → rs = []) ∧ ∀ r, r ∈ rs → needed r.size r.align ≤ a.blockSize
  := by
  obtain ⟨fs, news, rfl, hfs⟩ := hfirst.split
  obtain ⟨v, hv, hstep⟩ := (machine grow).run_concat_eq_some.mp ht
  obtain ⟨a₀, regions, effects, hgrantings, hsane', hrep'⟩ := run_grantings hsane hrep hfs hv
  obtain ⟨-, l', hrep'', -, -, hneeded⟩ := run_needed hgrow hsane hrep hsnug hfs
    (hfits.of_isPrefix (List.prefix_append fs _)) hv
  obtain ⟨a, effects', hclears, hsane'', hrep⟩ := step_clear hsane' hrep' hstep
  refine ⟨a₀, a, effects', hsane'', hrep, hclears, ?_, ?_⟩
  · intro hnone
    cases hclears with
    | nothing hc => exact (hgrantings.nil_of_none hc).2
    | first hc hcells hb => cases hnone
  · intro r hr
    rw [hclears.blockSize]
    have hle := hneeded r hr
    rw [← hrep''.shows.blockSize, hrep'.shows.blockSize] at hle
    apply hle

section

variable {κ : Type} [DecidableEq κ] {w : World κ} {k : κ} {events : List (Event κ × List ℕ)}

/-- A workload that is repeated reaches a steady state: from the second time on no request needs a
block of its own and the block size stays; from the third time on no block is created or destroyed,
the capacity stays, and the requests are handed out what they were the second time.  This holds of a
pool in any state, unless `set_block_size` was called on it or on a pool that its blocks are from. -/
theorem steady {member : Member} {first : List (Op × List ℕ)} (hgrow : ∀ n, n ≤ grow n)
    (hrun : (World.machine grow).run World.empty events = some w)
    (hfits : (World.machine grow).Steps (World.EventFits grow) World.empty events)
    (hmember : w.members k = some member) (hset : resized events k = false)
    (hfirst : Repeats rs first)
    (hfirstFits : (machine grow).Steps (OpFits grow) (member, w.memory) first)
    (ht : (machine grow).run (member, w.memory) first = some t) :
  (∀ reps : List (List (Op × List ℕ)), (∀ rep, rep ∈ reps → Repeats rs rep) →
      Settled grow t reps.flatten) ∧
    ∀ second u, Repeats rs second → (machine grow).run t second = some u →
      ∃ regions, handed grow t second = some regions ∧
        ∀ (reps : List (List (Op × List ℕ))) (last : List (Op × List ℕ)),
          (∀ rep, rep ∈ reps → Repeats rs rep) → Repeats rs last →
          ∃ v, (machine grow).run u reps.flatten = some v ∧ ((machine grow).run v last).isSome ∧
            Idle grow u (reps.flatten ++ last) ∧ handed grow v last = some regions
  := by
  obtain ⟨hsane, l, hrep, hsnug⟩ := run_snug hgrow hrun hfits hmember hset
  obtain ⟨a₀, a, effects, hsane', hrep', hclears, hnone, hneeded⟩ :=
    run_first hgrow hsane hrep hsnug hfirst hfirstFits ht
  constructor
  · intro reps hreps
    apply settled hsane' hrep' hneeded
    intro op hop
    obtain ⟨e, he, rfl⟩ := List.mem_map.mp hop
    obtain ⟨rep, hrep, he⟩ := List.mem_flatten.mp he
    rw [← hreps rep hrep]
    apply List.mem_map_of_mem he
  · intro second u hsecond hu
    obtain ⟨a', a₁, regions, hrep'', hgrantings, hclears', hhanded⟩ :=
      run_second hsane' hrep' hclears hnone hneeded hsecond hu
    use regions, hhanded
    intro reps last hreps hlast
    obtain ⟨v, hv, hrepv, hidle⟩ := run_repeats_still hgrantings hclears' hrep'' hreps
    obtain ⟨x, hx, -, hidle', hhanded'⟩ := run_repeat_still hgrantings hclears' hrepv hlast
    refine ⟨v, hv, ?_, hidle.append hv hidle', hhanded'⟩
    rw [hx]
    rfl

end

/-- A pool with a block that it has used. -/
def usedPool : List (Event Unit × List ℕ) :=
  [(.construct () 64, []), (.run () (.createBuffer 40), [4096])]

/-- Requests of which one needs a block of its own and one is aligned. -/
def mixedRequests : List Request :=
  [.createBuffer 10, .createBuffer 100, .createAligned 5 (.large 5)]

/-- The first two times the requests of `mixedRequests` are made of the pool. -/
def mixedFirst : List (Op × List ℕ) :=
  [(.createBuffer 10, [8192]), (.createBuffer 100, [12288]), (.createAligned 5 (.large 5), [16384]),
    (.clear, [20480])]

def mixedSecond : List (Op × List ℕ) :=
  [(.createBuffer 10, [24576]), (.createBuffer 100, [28672]),
    (.createAligned 5 (.large 5), [32768]), (.clear, [36864])]

theorem steady_mixedRequests :
  ∃ w s t u, (World.machine (· * 11 / 10)).run World.empty usedPool = some w ∧
    w.members () = some s ∧ (machine (· * 11 / 10)).run (s, w.memory) mixedFirst = some t ∧
    (machine (· * 11 / 10)).run t mixedSecond = some u ∧
    Settled (· * 11 / 10) t mixedSecond ∧ Idle (· * 11 / 10) u mixedSecond
  := by
  have hrun : ((World.machine (· * 11 / 10)).run World.empty usedPool).any fun w =>
      (w.members ()).any fun s =>
        decide ((machine (· * 11 / 10)).Steps (OpFits (· * 11 / 10)) (s, w.memory) mixedFirst) &&
        ((machine (· * 11 / 10)).run (s, w.memory) mixedFirst).any fun t =>
          ((machine (· * 11 / 10)).run t mixedSecond).isSome := by
    decide +kernel
  obtain ⟨w, hw, h⟩ := Option.any_eq_true _ _ |>.mp hrun
  obtain ⟨s, hs, h⟩ := Option.any_eq_true _ _ |>.mp h
  obtain ⟨hfits, h⟩ := Bool.and_eq_true_iff.mp h
  obtain ⟨t, ht, h⟩ := Option.any_eq_true _ _ |>.mp h
  obtain ⟨u, hu⟩ := Option.isSome_iff_exists.mp h
  have hgrow : ∀ n : ℕ, n ≤ n * 11 / 10 := by
    intro n
    omega
  have hfirst : Repeats mixedRequests mixedFirst := rfl
  have hsecond : Repeats mixedRequests mixedSecond := rfl
  obtain ⟨hsettled, hlater⟩ := steady (k := ()) hgrow hw (by decide +kernel) hs rfl hfirst
    (of_decide_eq_true hfits) ht
  refine ⟨w, s, t, u, hw, hs, ht, hu, ?_, ?_⟩
  · apply hsettled [mixedSecond]
    intro rep hrep
    obtain rfl := List.mem_singleton.mp hrep
    apply hsecond
  · obtain ⟨regions, -, hreps⟩ := hlater mixedSecond u hsecond hu
    obtain ⟨v, -, -, hidle, -⟩ := hreps [] mixedSecond (List.forall_mem_nil _) hsecond
    apply hidle

/-- A pool takes over the blocks of another one, of which the block size has been made smaller. -/
def takenOver : List (Event Bool × List ℕ) :=
  [(.construct true 32, []), (.run true (.createBuffer 10), [4096]),
    (.run true (.setBlockSize 256), []), (.run true (.createBuffer 100), [8192]),
    (.run true (.setBlockSize 32), []), (.construct false 32, []), (.moveAssign false true, [])]

/-- The first time the request is granted from the larger block, the second time it needs a block of
its own. -/
theorem takenOver_not_settled :
  ∃ w s t, (World.machine (· * 11 / 10)).run World.empty takenOver = some w ∧
    (World.machine (· * 11 / 10)).Steps (World.EventFits (· * 11 / 10)) World.empty takenOver ∧
    (∀ e, e ∈ takenOver → ∀ blockSize, e.1 ≠ .run false (.setBlockSize blockSize)) ∧
    w.members false = some s ∧
    (machine (· * 11 / 10)).run (s, w.memory) [(.createBuffer 100, []), (.clear, [])] = some t ∧
    (machine (· * 11 / 10)).Steps (OpFits (· * 11 / 10)) (s, w.memory)
      [(.createBuffer 100, []), (.clear, []), (.createBuffer 100, [12288]), (.clear, [16384])] ∧
    ((machine (· * 11 / 10)).run t [(.createBuffer 100, [12288]), (.clear, [16384])]).isSome ∧
    ¬ Settled (· * 11 / 10) t [(.createBuffer 100, [12288]), (.clear, [16384])]
  := by
  have hrun : ((World.machine (· * 11 / 10)).run World.empty takenOver).any fun w =>
      (w.members false).any fun s =>
        decide ((machine (· * 11 / 10)).Steps (OpFits (· * 11 / 10)) (s, w.memory)
          [(.createBuffer 100, []), (.clear, []), (.createBuffer 100, [12288]),
            (.clear, [16384])]) &&
        ((machine (· * 11 / 10)).run (s, w.memory) [(.createBuffer 100, []), (.clear, [])]).any
          fun t =>
            ((machine (· * 11 / 10)).run t
              [(.createBuffer 100, [12288]), (.clear, [16384])]).isSome &&
            decide (¬ (machine (· * 11 / 10)).Steps (fun t e => ¬ TakesOwn t e) t
              [(.createBuffer 100, [12288]), (.clear, [16384])]) := by
    decide +kernel
  obtain ⟨w, hw, h⟩ := Option.any_eq_true _ _ |>.mp hrun
  obtain ⟨s, hs, h⟩ := Option.any_eq_true _ _ |>.mp h
  obtain ⟨hfits, h⟩ := Bool.and_eq_true_iff.mp h
  obtain ⟨t, ht, h⟩ := Option.any_eq_true _ _ |>.mp h
  obtain ⟨hsome, hnot⟩ := Bool.and_eq_true_iff.mp h
  refine ⟨w, s, t, hw, by decide +kernel, ?_, hs, ht, of_decide_eq_true hfits, hsome, ?_⟩
  · simp [takenOver]
  · intro hsettled
    apply of_decide_eq_true hnot hsettled.takesOwn

end StaticMemoryPool
