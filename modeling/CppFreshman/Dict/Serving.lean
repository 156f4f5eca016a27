import CppFreshman.Dict.Check
import CppFreshman.Machine.Threads

/-!
# Readers of a dictionary under reload

One thread runs `DictManager::check` over a handler again and again, and any number of threads
run `GET_DICT`, which reads the index of the current slot and then copies the pointer in that
slot.  The reads and the writes are interleaved in any order.

Throughout, the current slot holds a loaded instance, and a slot whose index a reader holds
holds a loaded instance or is empty (`serving`).  The check empties the slot that was current
on a later pass, so a reader that is still between its two steps then gets a null pointer; a
reader gets a loaded instance when the check does not empty the slot it is about to copy
(`getDict_served`).
-/

namespace Dict

/-- Where a thread stands: in a pass of the check, or in `GET_DICT` before the read of the
index, before the copy of the slot, or with what it copied. -/
inductive Serving where
  | checking (pc : CheckPc)
  | reading
  | indexed (i : Fin 2)
  | got (d : Option ℕ)
  deriving DecidableEq

/-- The thread `none` checks, every other one reads. -/
def serve (ρ : Type*) : Threads (Option ρ) Memory Serving Pass where
  step i p m l :=
    match i, l with
    | none, .checking pc => some ((checkStep p m pc).1, .checking (checkStep p m pc).2)
    | some _, .reading => some (m, .indexed m.hander.curIndex)
    | some _, .indexed i => some (m, .got (m.hander.dicts i))
    | _, _ => none

/-- The check at the head of its loop, and no reader begun. -/
def serveStart (ρ : Type*) (m : Memory) : Threads.Config (Option ρ) Memory Serving where
  shared := m
  locals i := if i.isNone then .checking .top else .reading

namespace Memory

/-- The slot `i` is empty or holds a loaded instance. -/
def SlotLoaded (m : Memory) (i : Fin 2) : Prop :=
  ∀ d, m.hander.dicts i = some d → m.Loaded d

theorem Serves.slotLoaded {m : Memory} (h : m.Serves) :
  m.SlotLoaded m.hander.curIndex
  := by
  obtain ⟨d, hd, hl⟩ := h
  intro d' hd'
  obtain rfl := Option.some.inj (hd.symm.trans hd')
  apply hl

/-- Writing a slot other than the current one keeps the handler serving. -/
theorem Serves.store {m : Memory} (h : m.Serves) {i : Fin 2} (hi : m.hander.curIndex ≠ i)
    (d : Option ℕ) :
  (m.store i d).Serves
  := by
  obtain ⟨c, hc, hl⟩ := h
  use c
  constructor
  · rw [← hc]
    apply store_dicts_of_ne hi
  · apply hl

theorem SlotLoaded.store {m : Memory} {i : Fin 2} (h : m.SlotLoaded i) (j : Fin 2)
    {d : Option ℕ} (hd : ∀ c, d = some c → m.Loaded c) :
  (m.store j d).SlotLoaded i
  := by
  intro c hc
  by_cases hij : i = j
  · subst hij
    rw [store_dicts_self] at hc
    apply hd c hc
  · rw [store_dicts_of_ne hij] at hc
    apply h c hc

end Memory

/-- What a pass may rely on where it stands: the index it read is the current one, the
instance it stores is loaded, and the slot it is about to switch to holds a loaded
instance. -/
def CheckPc.Knows (m : Memory) : CheckPc → Prop
  | .top => True
  | .timed _ => True
  | .ageing _ i _ => i = m.hander.curIndex
  | .reading i _ => i = m.hander.curIndex
  | .comparing i _ => i = m.hander.curIndex
  | .dropping i _ => i = m.hander.curIndex
  | .building i _ => i = m.hander.curIndex
  | .initialising i _ d => i = m.hander.curIndex ∧ d < m.made
  | .loading i _ d => i = m.hander.curIndex ∧ d < m.made
  | .storing i _ d => i = m.hander.curIndex ∧ m.Loaded d
  | .stamping i _ => i = m.hander.curIndex ∧ ∃ d, m.hander.dicts (1 - i) = some d ∧ m.Loaded d
  | .finishing i => i = m.hander.curIndex ∧ ∃ d, m.hander.dicts (1 - i) = some d ∧ m.Loaded d
  | .flipping i => i = m.hander.curIndex ∧ ∃ d, m.hander.dicts (1 - i) = some d ∧ m.Loaded d

/-! ### What one step of a pass does -/

/-- A step of a pass leaves the loaded instances loaded. -/
theorem checkStep_loaded (p : Pass) {m : Memory} {d : ℕ} (h : m.Loaded d) (pc : CheckPc) :
  (checkStep p m pc).1.Loaded d
  := by
  cases pc with
  | timed now =>
      simp only [checkStep]
      split <;> apply h
  | ageing now i c =>
      rcases resetAged_cases m now (1 - i) with heq | heq <;> rw [checkStep, heq] <;> apply h
  | dropping i t =>
      rcases reset_cases m (1 - i) with heq | heq <;> rw [checkStep, heq] <;> apply h
  | building i t => apply h.cfunc
  | loading i t c =>
      simp only [checkStep]
      split
      · apply h.load
      · apply h
  | _ => apply h

/-- A step of a pass keeps a slot empty or loaded. -/
theorem checkStep_slotLoaded (p : Pass) {m : Memory} {i : Fin 2} {pc : CheckPc}
    (hpc : pc.Knows m) (h : m.SlotLoaded i) :
  (checkStep p m pc).1.SlotLoaded i
  := by
  cases pc with
  | timed now =>
      simp only [checkStep]
      split <;> apply h
  | ageing now j c =>
      rcases resetAged_cases m now (1 - j) with heq | heq <;> rw [checkStep, heq]
      · apply h
      · apply h.store
        intro c hc
        cases hc
  | dropping j t =>
      rcases reset_cases m (1 - j) with heq | heq <;> rw [checkStep, heq]
      · apply h
      · apply h.store
        intro c hc
        cases hc
  | building j t =>
      intro d hd
      apply (h d hd).cfunc
  | loading j t c =>
      simp only [checkStep]
      split
      · intro d hd
        apply (h d hd).load
      · apply h
  | storing j t c =>
      apply h.store
      intro d hd
      obtain rfl := Option.some.inj hd
      apply hpc.2
  | _ => apply h

/-- A step of a pass keeps the handler serving and establishes what the pass relies on
next. -/
theorem checkStep_serves (p : Pass) {m : Memory} {pc : CheckPc} (hpc : pc.Knows m)
    (h : m.Serves) :
  (checkStep p m pc).1.Serves ∧ (checkStep p m pc).2.Knows (checkStep p m pc).1
  := by
  cases pc with
  | top => exact ⟨h, trivial⟩
  | timed now =>
      simp only [checkStep]
      split
      · exact ⟨h, trivial⟩
      · exact ⟨h, rfl⟩
  | ageing now i c =>
      obtain rfl := hpc
      rcases resetAged_cases m now (1 - m.hander.curIndex) with heq | heq <;> rw [checkStep, heq]
      · exact ⟨h, rfl⟩
      · exact ⟨h.store (one_sub_ne _).symm none, rfl⟩
  | reading i c => exact ⟨h, hpc⟩
  | comparing i t =>
      simp only [checkStep]
      split
      · exact ⟨h, trivial⟩
      · exact ⟨h, hpc⟩
  | dropping i t =>
      obtain rfl := hpc
      rcases reset_cases m (1 - m.hander.curIndex) with heq | heq <;> rw [checkStep, heq]
      · exact ⟨h, rfl⟩
      · exact ⟨h.store (one_sub_ne _).symm none, rfl⟩
  | building i t =>
      obtain ⟨d, hd, hl⟩ := h
      exact ⟨⟨d, hd, hl.cfunc⟩, hpc, Nat.lt_succ_self _⟩
  | initialising i t c =>
      simp only [checkStep]
      split
      · exact ⟨h, hpc⟩
      · exact ⟨h, trivial⟩
  | loading i t c =>
      simp only [checkStep]
      split
      · obtain ⟨d, hd, hl⟩ := h
        exact ⟨⟨d, hd, hl.load _ _⟩, hpc.1, Memory.loaded_load hpc.2 _⟩
      · exact ⟨h, trivial⟩
  | storing i t c =>
      obtain ⟨rfl, hc⟩ := hpc
      exact ⟨h.store (one_sub_ne _).symm _, rfl, c, Memory.store_dicts_self _ _, hc⟩
  | stamping i t => exact ⟨h, hpc⟩
  | finishing i => exact ⟨h, hpc⟩
  | flipping i =>
      obtain ⟨rfl, d, hd, hl⟩ := hpc
      exact ⟨⟨d, hd, hl⟩, trivial⟩

/-! ### The proof outline -/

/-- What a reader may rely on: the slot whose index it holds is empty or loaded, and so is
what it copied. -/
def ReaderKnows (m : Memory) : Serving → Prop
  | .reading => True
  | .indexed i => m.SlotLoaded i
  | .got r => ∀ d, r = some d → m.Loaded d
  | .checking _ => False

/-- What the check may rely on. -/
def CheckerKnows (m : Memory) : Serving → Prop
  | .checking pc => pc.Knows m
  | _ => False

/-- What any thread may rely on. -/
def Serving.Knows {ρ : Type*} (i : Option ρ) (m : Memory) (l : Serving) : Prop :=
  match i with
  | none => CheckerKnows m l
  | some _ => ReaderKnows m l

/-- A step of the check as a step of its thread. -/
theorem serve_checker {ρ : Type*} {p : Pass} {m m' : Memory} {l l' : Serving}
    (h : (serve ρ).step none p m l = some (m', l')) :
  ∃ pc, l = .checking pc ∧ m' = (checkStep p m pc).1 ∧ l' = .checking (checkStep p m pc).2
  := by
  cases l with
  | checking pc =>
      obtain ⟨rfl, rfl⟩ := Prod.mk.inj (Option.some.inj h)
      use pc
  | _ => cases h

/-- A step of a reader leaves the memory as it is; it reads the index, or copies the slot. -/
theorem serve_reader {ρ : Type*} {r : ρ} {p : Pass} {m m' : Memory} {l l' : Serving}
    (h : (serve ρ).step (some r) p m l = some (m', l')) :
  m' = m ∧ (l = .reading ∧ l' = .indexed m.hander.curIndex ∨
    ∃ i, l = .indexed i ∧ l' = .got (m.hander.dicts i))
  := by
  cases l with
  | reading =>
      obtain ⟨rfl, rfl⟩ := Prod.mk.inj (Option.some.inj h)
      use rfl
      left
      use rfl
  | indexed i =>
      obtain ⟨rfl, rfl⟩ := Prod.mk.inj (Option.some.inj h)
      use rfl
      right
      use i
  | _ => cases h

/-- The outline of the check and its readers. -/
def serving (ρ : Type*) : Threads.Outline (serve ρ) where
  shared := Memory.Serves
  own := Serving.Knows
  apart _ _ := True
  symm _ := trivial
  step := by
    intro i p m l m' l' hm hl h
    cases i with
    | none =>
        obtain ⟨pc, rfl, rfl, rfl⟩ := serve_checker h
        apply checkStep_serves p hl hm
    | some r =>
        obtain ⟨rfl, ⟨rfl, rfl⟩ | ⟨i, rfl, rfl⟩⟩ := serve_reader h
        · use hm, hm.slotLoaded
        · use hm, hl
  free := by
    intro i p m l m' l' j k hm hl h hij hk _
    refine ⟨?_, trivial⟩
    cases i with
    | none =>
        obtain ⟨pc, rfl, rfl, rfl⟩ := serve_checker h
        obtain ⟨r, rfl⟩ := Option.ne_none_iff_exists'.mp (Ne.symm hij)
        cases k with
        | reading => trivial
        | indexed i => apply checkStep_slotLoaded p hl hk
        | got d =>
            intro d hd
            apply checkStep_loaded p (hk d hd)
        | checking pc' => apply hk
    | some r =>
        obtain ⟨rfl, -⟩ := serve_reader h
        apply hk

/-! ### When a reader is served -/

/-- The next step of a pass at `pc` empties the slot `i`. -/
def CheckPc.Empties (m : Memory) (i : Fin 2) : CheckPc → Prop
  | .ageing now j _ => 1 - j = i ∧ now - m.hander.loadFinishTime > 300
  | .dropping j _ => 1 - j = i
  | _ => False

instance (m : Memory) (i : Fin 2) (pc : CheckPc) : Decidable (pc.Empties m i) := by
  unfold CheckPc.Empties
  split <;> infer_instance

/-- A step of a pass that does not empty a slot leaves something in it. -/
theorem checkStep_isSome (p : Pass) {m : Memory} {i : Fin 2} {pc : CheckPc}
    (hpc : ¬ pc.Empties m i) (h : (m.hander.dicts i).isSome) :
  ((checkStep p m pc).1.hander.dicts i).isSome
  := by
  have hne (j : Fin 2) (hj : 1 - j ≠ i) (d : Option ℕ) :
      ((m.store (1 - j) d).hander.dicts i).isSome := by
    rw [Memory.store_dicts_of_ne hj.symm]
    apply h
  cases pc with
  | timed now =>
      simp only [checkStep]
      split <;> apply h
  | ageing now j c =>
      rw [checkStep, Memory.resetAged]
      split
      · next hage =>
          apply hne
          intro hj
          apply hpc ⟨hj, hage.2⟩
      · apply h
  | dropping j t =>
      rcases reset_cases m (1 - j) with heq | heq <;> rw [checkStep, heq]
      · apply h
      · apply hne j hpc
  | loading j t c =>
      simp only [checkStep]
      split <;> apply h
  | storing j t c =>
      by_cases hj : 1 - j = i
      · subst hj
        rw [checkStep, Memory.store_dicts_self]
        rfl
      · apply hne j hj
  | _ => apply h

/-- The step `e` does not empty the slot whose index the reader `r` holds. -/
def Spares {ρ : Type*} (r : ρ) (c : Threads.Config (Option ρ) Memory Serving)
    (e : Option ρ × Pass) : Prop :=
  ∀ i pc, c.locals (some r) = .indexed i → c.locals none = .checking pc → e.1 = none →
    ¬ pc.Empties c.shared i

instance {ρ : Type*} (r : ρ) (c : Threads.Config (Option ρ) Memory Serving)
    (e : Option ρ × Pass) : Decidable (Spares r c e) :=
  match hr : c.locals (some r), hn : c.locals none, he : e.1 with
  | .indexed i, .checking pc, none =>
      decidable_of_iff (¬ pc.Empties c.shared i) (by simp [Spares, hr, hn, he])
  | .checking _, _, _ => isTrue (by simp [Spares, hr])
  | .reading, _, _ => isTrue (by simp [Spares, hr])
  | .got _, _, _ => isTrue (by simp [Spares, hr])
  | .indexed _, .reading, _ => isTrue (by simp [Spares, hn])
  | .indexed _, .indexed _, _ => isTrue (by simp [Spares, hn])
  | .indexed _, .got _, _ => isTrue (by simp [Spares, hn])
  | .indexed _, .checking _, some _ => isTrue (by simp [Spares, he])

/-- The slot whose index the reader holds is not empty, and what it copied is not null. -/
def ReaderServed (m : Memory) : Serving → Prop
  | .indexed i => (m.hander.dicts i).isSome
  | .got r => r.isSome
  | _ => True

theorem serving_start {ρ : Type*} {m : Memory} (hm : m.Serves) :
  (serving ρ).Holds (serveStart ρ m)
  := by
  constructor
  · apply hm
  · intro i
    cases i <;> trivial
  · intros
    trivial

variable {ρ : Type*} [DecidableEq ρ] {m : Memory} {r : ρ} {es : List (Option ρ × Pass)}
  {c : Threads.Config (Option ρ) Memory Serving}

/-- A step that spares the slot of a reader keeps the reader served. -/
theorem ReaderServed.step {c' : Threads.Config (Option ρ) Memory Serving}
    {e : Option ρ × Pass} (hc : (serving ρ).Holds c)
    (h : ReaderServed c.shared (c.locals (some r))) (hspare : Spares r c e)
    (hstep : (serve ρ).machine.step c e = some c') :
  ReaderServed c'.shared (c'.locals (some r))
  := by
  obtain ⟨i, p⟩ := e
  obtain ⟨m', l, hl, rfl⟩ := (serve ρ).machine_step_eq_some.mp hstep
  cases i with
  | none =>
      obtain ⟨pc, hpc, rfl, rfl⟩ := serve_checker hl
      rw [Threads.Config.set_locals_of_ne _ (Option.some_ne_none r)]
      cases hr : c.locals (some r) with
      | indexed i =>
          rw [hr] at h
          apply checkStep_isSome p (hspare i pc hr hpc rfl) h
      | got d =>
          rw [hr] at h
          apply h
      | _ => trivial
  | some r' =>
      obtain ⟨rfl, hcase⟩ := serve_reader hl
      by_cases hrr : r = r'
      · subst hrr
        rw [Threads.Config.set_locals_self]
        rcases hcase with ⟨-, rfl⟩ | ⟨i, hi, rfl⟩
        · obtain ⟨d, hd, -⟩ := hc.shared
          simp [ReaderServed, hd]
        · rw [hi] at h
          apply h
      · rw [Threads.Config.set_locals_of_ne _ (by simpa using hrr)]
        apply h

/-- Start from a handler whose current slot holds a loaded instance.  Whatever the passes of
the check meet and however they are interleaved with the readers, a completed `GET_DICT` has
copied null or a loaded instance, and not null if the check did not empty the slot whose index
it had read before it copied that slot. -/
theorem getDict_served (hm : m.Serves)
    (h : (serve ρ).machine.run (serveStart ρ m) es = some c) {d : Option ℕ}
    (hd : c.locals (some r) = .got d) :
  (∀ i, d = some i → c.shared.Loaded i) ∧
    ((serve ρ).machine.Steps (Spares r) (serveStart ρ m) es → d.isSome)
  := by
  constructor
  · have hown := ((serving ρ).holds_of_run h (serving_start hm)).own (some r)
    rw [hd] at hown
    apply hown
  · intro hsteps
    have hinv := Machine.run_invariant_of_steps
      (I := fun c => (serving ρ).Holds c ∧ ReaderServed c.shared (c.locals (some r)))
      (fun _ _ _ ht hs hu => ⟨(serving ρ).holds_step ht.1 hu, ht.2.step ht.1 hs hu⟩) hsteps
      ⟨serving_start hm, trivial⟩
    obtain ⟨-, hserved⟩ := hinv.last h
    rw [hd] at hserved
    apply hserved

/-- A pass that reloads: `init()` returns false, `load()` returns true. -/
def reloading : Pass := { rewritten with init := false, finish := 3601 }

/-- A pass an hour later. -/
def hourLater : Pass := { rewritten with now := 7200 }

/-- A reader reads the index; a pass switches to the other slot; the next pass empties the
slot the reader is about to copy; the reader copies it. -/
def staleRead : List (Option ℕ × Pass) :=
  (some 0, reloading) :: List.replicate 13 (none, reloading) ++
    List.replicate 3 (none, hourLater) ++ [(some 0, hourLater)]

/-- A reader that is slower than a pass and the beginning of the next one gets null from a
handler that serves a loaded instance all the time. -/
theorem getDict_stale_null :
  offerBidRatio.Serves ∧
    ∃ c, (serve ℕ).machine.run (serveStart ℕ offerBidRatio) staleRead = some c ∧
      c.locals (some 0) = .got none
  := by
  constructor
  · exact ⟨0, rfl, Nat.one_pos, rfl⟩
  · refine ⟨_, rfl, rfl⟩

/-- A reader reads the index; a pass switches to the other slot; the reader copies the slot it
read the index of before the next pass empties it. -/
def promptRead : List (Option ℕ × Pass) :=
  (some 0, reloading) :: List.replicate 13 (none, reloading) ++ [(some 0, reloading)] ++
    List.replicate 3 (none, hourLater)

/-- That reader gets the instance that was current when it read the index. -/
theorem getDict_served_promptRead :
  ∃ c, (serve ℕ).machine.run (serveStart ℕ offerBidRatio) promptRead = some c ∧
    c.shared.hander.curIndex = 1 ∧ c.locals (some 0) = .got (some 0) ∧
      (∀ i, some 0 = some i → c.shared.Loaded i) ∧ (some 0).isSome
  := by
  have hrun : ((serve ℕ).machine.run (serveStart ℕ offerBidRatio) promptRead).any
      (fun c => c.shared.hander.curIndex == 1 && c.locals (some 0) == .got (some 0)) = true := by
    decide +kernel
  obtain ⟨c, hc, htest⟩ := (Option.any_eq_true _ _).mp hrun
  rw [Bool.and_eq_true, beq_iff_eq, beq_iff_eq] at htest
  obtain ⟨hcur, hgot⟩ := htest
  obtain ⟨hloaded, hserved⟩ := getDict_served ⟨0, rfl, Nat.one_pos, rfl⟩ hc hgot
  refine ⟨c, hc, hcur, hgot, hloaded, hserved ?_⟩
  decide +kernel

end Dict
