import CppFreshman.Dict.Handler

/-!
# One pass of the reload check

`check p m` is what one pass of `DictManager::check` over a handler makes of it, where `p` is
what the pass meets: the clock, the files, and how the instance it builds initialises and
loads.  `checkStep` is the same pass cut at each access to the handler, the files and the
instances.

The pass calls the initialisation a success when `init() == 0`, while every implementation
returns true for success.  So a pass does what a reload check should (`ReloadsRight`) exactly
when there is nothing to reload or the new instance does not load (`reloadsRight_iff`).
-/

namespace Dict

/-- What one pass over a handler meets: the clock at its start, the modification time and the
version of each file, what `init()` and `load()` of the instance it builds return, and the
clock at the end of a reload. -/
structure Pass where
  now : Time
  mtime : String → Time
  version : String → ℕ
  init : Bool
  load : Bool
  finish : Time

namespace Memory

/-- `bg_dict.reset()` for the slot `i`, when it is not empty and the last load finished more
than 300 seconds before `now`. -/
def resetAged (m : Memory) (now : Time) (i : Fin 2) : Memory :=
  if (m.hander.dicts i).isSome ∧ now - m.hander.loadFinishTime > 300 then m.store i none else m

/-- `bg_dict.reset()` for the slot `i`, when it is not empty. -/
def reset (m : Memory) (i : Fin 2) : Memory :=
  if (m.hander.dicts i).isSome then m.store i none else m

/-- The writes of a successful reload, in the order of the source. -/
def publish (m : Memory) (bgIdx : Fin 2) (newDict : ℕ) (newMtime finish : Time) : Memory :=
  (((m.store bgIdx (some newDict)).stamp newMtime).finish finish).flip bgIdx

end Memory

/-- The end of a pass that has found a new modification time: it builds an instance and
publishes it when `init() == 0` and `load()` is true. -/
def reload (p : Pass) (m : Memory) (bgIdx : Fin 2) (newMtime : Time) : Memory :=
  let newDict := m.made
  let m' := m.cfunc
  if p.init.toNat = 0 ∧ p.load then
    (m'.load newDict (p.version (m'.instances newDict).curFile)).publish
      bgIdx newDict newMtime p.finish
  else m'

/-- One pass of `DictManager::check` over a handler. -/
def check (p : Pass) (m : Memory) : Memory :=
  let curIdx := m.hander.curIndex
  let bgIdx := 1 - curIdx
  match m.hander.dicts curIdx with
  | none => m
  | some curDict =>
      let m' := m.resetAged p.now bgIdx
      let newMtime := p.mtime (m'.instances curDict).curFile
      if newMtime = m'.hander.modifyTime then m'
      else reload p (m'.reset bgIdx) bgIdx newMtime

/-! ### The pass step by step -/

/-- Where a pass stands, with the locals the source holds there. -/
inductive CheckPc where
  | top
  | timed (now : Time)
  | ageing (now : Time) (curIdx : Fin 2) (curDict : ℕ)
  | reading (curIdx : Fin 2) (curDict : ℕ)
  | comparing (curIdx : Fin 2) (newMtime : Time)
  | dropping (curIdx : Fin 2) (newMtime : Time)
  | building (curIdx : Fin 2) (newMtime : Time)
  | initialising (curIdx : Fin 2) (newMtime : Time) (newDict : ℕ)
  | loading (curIdx : Fin 2) (newMtime : Time) (newDict : ℕ)
  | storing (curIdx : Fin 2) (newMtime : Time) (newDict : ℕ)
  | stamping (curIdx : Fin 2) (newMtime : Time)
  | finishing (curIdx : Fin 2)
  | flipping (curIdx : Fin 2)
  deriving DecidableEq

/-- The next access of a pass. -/
def checkStep (p : Pass) (m : Memory) : CheckPc → Memory × CheckPc
  | .top => (m, .timed p.now)
  | .timed now =>
      match m.hander.dicts m.hander.curIndex with
      | none => (m, .top)
      | some d => (m, .ageing now m.hander.curIndex d)
  | .ageing now i d => (m.resetAged now (1 - i), .reading i d)
  | .reading i d => (m, .comparing i (p.mtime (m.instances d).curFile))
  | .comparing i t => (m, if t = m.hander.modifyTime then .top else .dropping i t)
  | .dropping i t => (m.reset (1 - i), .building i t)
  | .building i t => (m.cfunc, .initialising i t m.made)
  | .initialising i t d => (m, if p.init.toNat = 0 then .loading i t d else .top)
  | .loading i t d =>
      if p.load then (m.load d (p.version (m.instances d).curFile), .storing i t d) else (m, .top)
  | .storing i t d => (m.store (1 - i) (some d), .stamping i t)
  | .stamping i t => (m.stamp t, .finishing i)
  | .finishing i => (m.finish p.finish, .flipping i)
  | .flipping i => (m.flip (1 - i), .top)

/-- Emptying a slot by age either leaves the memory alone or empties the slot. -/
theorem resetAged_cases (m : Memory) (now : Time) (i : Fin 2) :
  m.resetAged now i = m ∨ m.resetAged now i = m.store i none
  := by
  unfold Memory.resetAged
  split
  · right
    rfl
  · left
    rfl

theorem reset_cases (m : Memory) (i : Fin 2) :
  m.reset i = m ∨ m.reset i = m.store i none
  := by
  unfold Memory.reset
  split
  · right
    rfl
  · left
    rfl

/-! ### What a pass does to the handler -/

/-- Index, current slot and modification time of the handler are those of before. -/
def Unchanged (m m' : Memory) : Prop :=
  m'.hander.curIndex = m.hander.curIndex ∧
    m'.hander.dicts m.hander.curIndex = m.hander.dicts m.hander.curIndex ∧
    m'.hander.modifyTime = m.hander.modifyTime

/-- The readers are on the other slot, which holds `newDict`, and the two times are those of
the reload. -/
def Reloaded (m m' : Memory) (newDict : ℕ) (newMtime finish : Time) : Prop :=
  m'.hander.curIndex = 1 - m.hander.curIndex ∧
    m'.hander.dicts m'.hander.curIndex = some newDict ∧
    m'.hander.modifyTime = newMtime ∧ m'.hander.loadFinishTime = finish

/-- The pass over a handler whose current dictionary is `curDict` reloads when the
modification time differs and the new instance initialises (`init()` is true) and loads, and
changes nothing the readers use otherwise. -/
def ReloadsRight (p : Pass) (m : Memory) (curDict : ℕ) : Prop :=
  let newMtime := p.mtime (m.instances curDict).curFile
  if newMtime ≠ m.hander.modifyTime ∧ p.init = true ∧ p.load = true then
    Reloaded m (check p m) m.made newMtime p.finish
  else Unchanged m (check p m)

theorem Reloaded.not_unchanged {m m' : Memory} {d : ℕ} {t t' : Time}
    (h : Reloaded m m' d t t') :
  ¬ Unchanged m m'
  := by
  intro h'
  apply one_sub_ne m.hander.curIndex
  rw [← h.1, h'.1]

/-- A memory that differs from `m` only in the instances and the background slot. -/
structure BackgroundOf (m m' : Memory) : Prop where
  curIndex : m'.hander.curIndex = m.hander.curIndex
  dicts : m'.hander.dicts m.hander.curIndex = m.hander.dicts m.hander.curIndex
  modifyTime : m'.hander.modifyTime = m.hander.modifyTime
  made : m'.made = m.made
  instances : m'.instances = m.instances

theorem BackgroundOf.refl (m : Memory) :
  BackgroundOf m m
  := ⟨rfl, rfl, rfl, rfl, rfl⟩

theorem BackgroundOf.store {m m' : Memory} (h : BackgroundOf m m') (d : Option ℕ) :
  BackgroundOf m (m'.store (1 - m.hander.curIndex) d)
  := by
  obtain ⟨hcur, hdicts, htime, hmade, hinst⟩ := h
  refine ⟨hcur, ?_, htime, hmade, hinst⟩
  rw [Memory.store_dicts_of_ne (one_sub_ne _).symm, hdicts]

/-- Emptying the background slot, by age or not, touches nothing else. -/
theorem BackgroundOf.resetAged {m m' : Memory} (h : BackgroundOf m m') (now : Time) :
  BackgroundOf m (m'.resetAged now (1 - m.hander.curIndex))
  := by
  unfold Memory.resetAged
  split
  · apply h.store
  · apply h

theorem BackgroundOf.reset {m m' : Memory} (h : BackgroundOf m m') :
  BackgroundOf m (m'.reset (1 - m.hander.curIndex))
  := by
  unfold Memory.reset
  split
  · apply h.store
  · apply h

/-- A pass over a handler with a current dictionary leaves what the readers use as it is,
unless the modification time is new, `init() == 0` and `load()` is true. -/
theorem check_unchanged {p : Pass} {m : Memory} {d : ℕ}
    (hd : m.hander.dicts m.hander.curIndex = some d)
    (h : p.mtime (m.instances d).curFile = m.hander.modifyTime ∨ p.init = true ∨
      p.load = false) :
  Unchanged m (check p m)
  := by
  have hb := (BackgroundOf.refl m).resetAged p.now
  have hr := hb.reset
  simp only [check, hd, hb.instances, hb.modifyTime]
  split
  · use hb.curIndex, hb.dicts, hb.modifyTime
  · next hne =>
      have hfail : ¬ (p.init.toNat = 0 ∧ p.load = true) := by
        rintro ⟨hi, hl⟩
        rcases h with ht | ht | ht
        · apply hne ht
        · simp [ht] at hi
        · simp [ht] at hl
      rw [reload]
      simp only [hfail, if_false]
      use hr.curIndex, hr.dicts, hr.modifyTime

/-- A pass that finds a new modification time and builds an instance with `init() == 0` whose
`load()` is true puts it in place. -/
theorem check_reloaded {p : Pass} {m : Memory} {d : ℕ}
    (hd : m.hander.dicts m.hander.curIndex = some d)
    (ht : p.mtime (m.instances d).curFile ≠ m.hander.modifyTime) (hi : p.init = false)
    (hl : p.load = true) :
  Reloaded m (check p m) m.made (p.mtime (m.instances d).curFile) p.finish
  := by
  have hb := (BackgroundOf.refl m).resetAged p.now
  have hr := hb.reset
  have hok : p.init.toNat = 0 ∧ p.load = true := by
    simp [hi, hl]
  simp only [check, hd, hb.instances, hb.modifyTime, if_neg ht, reload, hok]
  use rfl
  rw [← hr.made]
  constructor
  · apply Memory.store_dicts_self
  · constructor <;> rfl

/-- A pass reloads as it should exactly when the modification time is the recorded one or the
new instance does not load. -/
theorem reloadsRight_iff (p : Pass) (m : Memory) (d : ℕ)
    (hd : m.hander.dicts m.hander.curIndex = some d) :
  ReloadsRight p m d ↔
    p.mtime (m.instances d).curFile = m.hander.modifyTime ∨ p.load = false
  := by
  by_cases ht : p.mtime (m.instances d).curFile = m.hander.modifyTime
  · simpa [ReloadsRight, ht] using check_unchanged hd (Or.inl ht)
  cases hl : p.load with
  | false => simpa [ReloadsRight, ht, hl] using check_unchanged hd (Or.inr (Or.inr hl))
  | true =>
      cases hi : p.init with
      | true =>
          have h := check_unchanged hd (Or.inr (Or.inl hi))
          simpa [ReloadsRight, ht, hi, hl] using fun h' => Reloaded.not_unchanged h' h
      | false =>
          have h := check_reloaded hd ht hi hl
          simpa [ReloadsRight, ht, hi, hl] using h.not_unchanged

/-- A handler of `offer_bid_ratio` that serves the instance `0`, loaded from the first version
of its file. -/
def offerBidRatio : Memory where
  instances := fun _ => ⟨"./conf/dicts/offer_bid_ratio.txt", some 0⟩
  made := 1
  hander :=
    { DictHander.registered "offer_bid_ratio" "./conf/dicts/offer_bid_ratio.txt" with
      dicts := fun i => if i = 0 then some 0 else none
      modifyTime := 100 }

/-- A pass after the file was written again: the new instance initialises and loads. -/
def rewritten : Pass where
  now := 3600
  mtime := fun _ => 200
  version := fun _ => 1
  init := true
  load := true
  finish := 3601

/-- The handler is not reloaded although its file is new and the new instance initialises and
loads. -/
theorem rewritten_not_reloadsRight :
  offerBidRatio.hander.dicts offerBidRatio.hander.curIndex = some 0 ∧
    ¬ ReloadsRight rewritten offerBidRatio 0 ∧ Unchanged offerBidRatio (check rewritten offerBidRatio)
  := by
  have hu : Unchanged offerBidRatio (check rewritten offerBidRatio) :=
    check_unchanged rfl (Or.inr (Or.inl rfl))
  use rfl
  constructor
  · intro h
    apply Reloaded.not_unchanged h hu
  · apply hu

/-- The exact condition at that pass. -/
theorem reloadsRight_iff_rewritten :
  ReloadsRight rewritten offerBidRatio 0 ↔
    rewritten.mtime (offerBidRatio.instances 0).curFile = offerBidRatio.hander.modifyTime ∨
      rewritten.load = false
  := by
  apply reloadsRight_iff rewritten offerBidRatio 0 rfl

end Dict
