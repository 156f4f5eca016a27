import CppFreshman.Dict.Run

/-!
# The freshness of the dictionaries

The check skips a reload when the time of the file is the recorded one.  That is right for a
handler that is `Trusted`: its current instance was loaded from the version with the recorded
time or a newer one, or no version of the file has that time.  A pass of the check keeps the
handlers trusted, since it records a time only with an instance loaded after the time was read
(`checkStep_passing`).  The initial load records the time first, so the handlers are trusted
only if the check is started when every loader has ended with its dictionary loaded
(`check_skips_fresh`).
-/

namespace Dict

variable {o : Outcomes}

namespace Memory

/-- The instance `d` was loaded from the version of the file written at `t`, or a newer one. -/
def LoadedSince (o : Outcomes) (m : Memory) (t : Time) (d : ℕ) : Prop :=
  ∃ v w, (m.instances d).loadedFrom = some v ∧ w ≤ v ∧ t = o.mtime m.hander.dictFilePath w

/-- The instance `d` exists and is one of the file of the handler. -/
def Built (m : Memory) (d : ℕ) : Prop :=
  d < m.made ∧ (m.instances d).curFile = m.hander.dictFilePath

/-- The current instance was loaded from the version with the recorded time or a newer one, or
no version has that time. -/
def Trusted (o : Outcomes) (m : Memory) : Prop :=
  ∀ d, m.hander.dicts m.hander.curIndex = some d → m.Built d ∧
    (m.LoadedSince o m.hander.modifyTime d ∨
      ∀ v, m.hander.modifyTime ≠ o.mtime m.hander.dictFilePath v)

/-- The time `t` was that of the file in a version up to the present one. -/
def TimeRead (o : Outcomes) (version : String → ℕ) (m : Memory) (t : Time) : Prop :=
  ∃ w, w ≤ version m.hander.dictFilePath ∧ t = o.mtime m.hander.dictFilePath w

/-- The other slot holds an instance loaded since the time `t`. -/
def Replaced (o : Outcomes) (m : Memory) (i : Fin 2) (t : Time) : Prop :=
  i = m.hander.curIndex ∧ ∃ d, m.hander.dicts (1 - i) = some d ∧ m.Built d ∧ m.LoadedSince o t d

end Memory

/-- What holds of the handler where a pass stands. -/
def CheckPc.Passing (o : Outcomes) (version : String → ℕ) (m : Memory) : CheckPc → Prop
  | .top => m.Trusted o
  | .timed _ => m.Trusted o
  | .ageing _ i d => m.Trusted o ∧ i = m.hander.curIndex ∧ m.hander.dicts i = some d
  | .reading i d => m.Trusted o ∧ i = m.hander.curIndex ∧ m.hander.dicts i = some d
  | .comparing i t => m.Trusted o ∧ i = m.hander.curIndex ∧ m.TimeRead o version t ∧
      ∃ d, m.hander.dicts i = some d
  | .dropping i t => m.Trusted o ∧ i = m.hander.curIndex ∧ m.TimeRead o version t
  | .building i t => m.Trusted o ∧ i = m.hander.curIndex ∧ m.TimeRead o version t
  | .initialising i t d => m.Trusted o ∧ i = m.hander.curIndex ∧ m.TimeRead o version t ∧
      m.Built d ∧ m.hander.dicts i ≠ some d
  | .loading i t d => m.Trusted o ∧ i = m.hander.curIndex ∧ m.TimeRead o version t ∧
      m.Built d ∧ m.hander.dicts i ≠ some d
  | .storing i t d => m.Trusted o ∧ i = m.hander.curIndex ∧ m.Built d ∧ m.LoadedSince o t d
  | .stamping i t => m.Trusted o ∧ m.Replaced o i t
  | .finishing i => m.Replaced o i m.hander.modifyTime
  | .flipping i => m.Replaced o i m.hander.modifyTime

/-- Writing the other slot keeps a handler trusted. -/
theorem Memory.Trusted.store {m : Memory} (h : m.Trusted o) {i : Fin 2}
    (hi : i ≠ m.hander.curIndex) (d : Option ℕ) :
  (m.store i d).Trusted o
  := by
  intro d' hd'
  have hcur : (m.store i d).hander.curIndex = m.hander.curIndex := rfl
  rw [hcur, Memory.store_dicts_of_ne hi.symm] at hd'
  apply h d' hd'

/-- A new instance keeps a handler trusted. -/
theorem Memory.Trusted.cfunc {m : Memory} (h : m.Trusted o) :
  m.cfunc.Trusted o
  := by
  intro d hd
  obtain ⟨⟨hlt, hfile⟩, hload⟩ := h d hd
  have hold : m.cfunc.instances d = m.instances d := by
    apply Function.update_of_ne (Nat.ne_of_lt hlt)
  constructor
  · constructor
    · apply Nat.lt_succ_of_lt hlt
    · rw [hold]
      apply hfile
  · rcases hload with ⟨v, w, hv, hw⟩ | hnone
    · left
      use v, w
      rw [hold]
      exact ⟨hv, hw⟩
    · exact Or.inr hnone

/-- Loading an instance that is not the current one keeps a handler trusted. -/
theorem Memory.Trusted.load {m : Memory} (h : m.Trusted o) {d : ℕ}
    (hd : m.hander.dicts m.hander.curIndex ≠ some d) (v : ℕ) :
  (m.load d v).Trusted o
  := by
  intro d' hd'
  have hold : (m.load d v).instances d' = m.instances d' := by
    apply Function.update_of_ne
    rintro rfl
    apply hd hd'
  obtain ⟨hbuilt, hload⟩ := h d' hd'
  constructor
  · constructor
    · apply hbuilt.1
    · rw [hold]
      apply hbuilt.2
  · rcases hload with ⟨v', w, hv, hw⟩ | hnone
    · left
      use v', w
      rw [hold]
      exact ⟨hv, hw⟩
    · exact Or.inr hnone

/-- A step of a pass that meets the files as they are keeps what holds of the handler. -/
theorem checkStep_passing {p : Pass} {m : Memory} {pc : CheckPc}
    (hfile : ∀ file, p.mtime file = o.mtime file (p.version file))
    (h : pc.Passing o p.version m) :
  (checkStep p m pc).2.Passing o p.version (checkStep p m pc).1
  := by
  cases pc with
  | top => apply h
  | timed now =>
      rw [checkStep]
      split
      · apply h
      · next d hd => exact ⟨h, rfl, hd⟩
  | ageing now i d =>
      obtain ⟨ht, rfl, hd⟩ := h
      rcases resetAged_cases m now (1 - m.hander.curIndex) with heq | heq <;>
        rw [checkStep, heq]
      · exact ⟨ht, rfl, hd⟩
      · refine ⟨ht.store (one_sub_ne _) none, rfl, ?_⟩
        rw [Memory.store_dicts_of_ne (one_sub_ne _).symm, hd]
  | reading i d =>
      obtain ⟨ht, rfl, hd⟩ := h
      refine ⟨ht, rfl, ⟨p.version m.hander.dictFilePath, Nat.le_refl _, ?_⟩, d, hd⟩
      rw [(ht d hd).1.2, hfile]
      rfl
  | comparing i t =>
      obtain ⟨ht, hi, hread, -⟩ := h
      rw [checkStep]
      split
      · apply ht
      · exact ⟨ht, hi, hread⟩
  | dropping i t =>
      obtain ⟨ht, rfl, hread⟩ := h
      rcases reset_cases m (1 - m.hander.curIndex) with heq | heq <;> rw [checkStep, heq]
      · exact ⟨ht, rfl, hread⟩
      · exact ⟨ht.store (one_sub_ne _) none, rfl, hread⟩
  | building i t =>
      obtain ⟨ht, rfl, hread⟩ := h
      refine ⟨ht.cfunc, rfl, hread, ⟨Nat.lt_succ_self _, ?_⟩, ?_⟩
      · simp [checkStep, Memory.cfunc]
      · intro hd
        apply Nat.lt_irrefl m.made (ht _ hd).1.1
  | initialising i t d =>
      rw [checkStep]
      split
      · apply h
      · apply h.1
  | loading i t d =>
      obtain ⟨ht, rfl, ⟨w, hw, hwt⟩, hbuilt, hne⟩ := h
      rw [checkStep]
      split
      · refine ⟨ht.load hne _, rfl, ⟨hbuilt.1, ?_⟩, p.version (m.instances d).curFile, w, ?_, ?_, hwt⟩
        · simpa [Memory.load] using hbuilt.2
        · simp [Memory.load]
        · rw [hbuilt.2]
          apply hw
      · apply ht
  | storing i t d =>
      obtain ⟨ht, rfl, hbuilt, hload⟩ := h
      refine ⟨ht.store (one_sub_ne _) _, rfl, d, ?_, hbuilt, hload⟩
      apply Memory.store_dicts_self
  | stamping i t => apply h.2
  | finishing i => apply h
  | flipping i =>
      obtain ⟨rfl, d, hd, hbuilt, hload⟩ := h
      intro d' hd'
      obtain rfl := Option.some.inj (hd.symm.trans hd')
      exact ⟨hbuilt, Or.inl hload⟩

/-! ### The check among the other handlers -/

/-- The pass is about to initialise or to load the instance `d`. -/
def CheckPc.Builds (d : ℕ) (pc : CheckPc) : Prop :=
  (∃ i t, pc = .initialising i t d) ∨ ∃ i t, pc = .loading i t d

/-- A step of a pass changes no instance but a new one and the one it loads. -/
theorem checkStep_instances (p : Pass) {m : Memory} {pc : CheckPc} {d : ℕ} (hd : d < m.made)
    (hpc : ¬ pc.Builds d) :
  d < (checkStep p m pc).1.made ∧ (checkStep p m pc).1.instances d = m.instances d
  := by
  cases pc with
  | timed now =>
      rw [checkStep]
      split <;> exact ⟨hd, rfl⟩
  | ageing now i c =>
      rcases resetAged_cases m now (1 - i) with heq | heq <;> rw [checkStep, heq] <;>
        exact ⟨hd, rfl⟩
  | dropping i t =>
      rcases reset_cases m (1 - i) with heq | heq <;> rw [checkStep, heq] <;> exact ⟨hd, rfl⟩
  | building i t =>
      use Nat.lt_succ_of_lt hd
      apply Function.update_of_ne (Nat.ne_of_lt hd)
  | loading i t c =>
      rw [checkStep]
      split
      · use hd
        apply Function.update_of_ne
        rintro rfl
        apply hpc
        right
        use i, t
      · exact ⟨hd, rfl⟩
  | _ => exact ⟨hd, rfl⟩

/-- What a pass builds next is what it builds already, or new. -/
theorem checkStep_builds (p : Pass) {m : Memory} {pc : CheckPc} {d : ℕ}
    (h : (checkStep p m pc).2.Builds d) :
  pc.Builds d ∨ d = m.made
  := by
  cases pc with
  | timed now =>
      rw [checkStep] at h
      split at h <;> simp [CheckPc.Builds] at h
  | comparing i t =>
      rw [checkStep] at h
      simp only at h
      split at h <;> simp [CheckPc.Builds] at h
  | building i t =>
      right
      simpa [checkStep, CheckPc.Builds, eq_comm] using h
  | initialising i t c =>
      left
      rw [checkStep] at h
      simp only at h
      split at h
      · simpa [CheckPc.Builds] using h
      · simp [CheckPc.Builds] at h
  | loading i t c =>
      rw [checkStep] at h
      split at h <;> simp [CheckPc.Builds] at h
  | _ => simp [checkStep, CheckPc.Builds] at h

/-- What holds while the check is in its pass over the handler at `k`: that handler is as the
pass says, the others are trusted, and what the pass builds is in no current slot. -/
structure Checking (o : Outcomes) (m : Manager) (k : ℕ) (pc : CheckPc) : Prop where
  inRange : ∀ i h, m.hander i = some h → i < m.size
  others : ∀ i h, i ≠ k → m.hander i = some h → (m.memory h).Trusted o
  this : ∀ h, m.hander k = some h → pc.Passing o m.version (m.memory h)
  unshared : ∀ d, pc.Builds d → ∀ i h, i ≠ k → m.hander i = some h →
    h.dicts h.curIndex ≠ some d

theorem not_builds_top (d : ℕ) :
  ¬ CheckPc.top.Builds d
  := by
  simp [CheckPc.Builds]

/-- The check comes to the next handler. -/
theorem Checking.next {m : Manager} {k : ℕ} {pc : CheckPc} (h : Checking o m k pc)
    (htop : ∀ x, m.hander k = some x → (m.memory x).Trusted o) (i : ℕ) :
  Checking o m i .top
  := by
  have hall : ∀ i x, m.hander i = some x → (m.memory x).Trusted o := by
    intro i x hx
    by_cases hik : i = k
    · subst hik
      apply htop x hx
    · apply h.others i x hik hx
  constructor
  · apply h.inRange
  · intro i x _
    apply hall i x
  · intro x hx
    apply hall i x hx
  · intro d hd
    apply absurd hd (not_builds_top d)

/-- A trusted handler stays trusted when the current instance does not change. -/
theorem Memory.Trusted.of_instances {m m' : Memory} (h : m.Trusted o)
    (hh : m'.hander = m.hander)
    (hi : ∀ d, m.hander.dicts m.hander.curIndex = some d →
      d < m'.made ∧ m'.instances d = m.instances d) :
  m'.Trusted o
  := by
  intro d hd
  rw [hh] at hd
  obtain ⟨⟨-, hfile⟩, hload⟩ := h d hd
  obtain ⟨hlt, heq⟩ := hi d hd
  rw [Memory.Built, Memory.LoadedSince, hh, heq]
  exact ⟨⟨hlt, hfile⟩, hload⟩

/-- One step of the pass over the handler at `k`. -/
theorem Checking.pass {m : Manager} {k : ℕ} {pc : CheckPc} {x : DictHander}
    (h : Checking o m k pc) (hx : m.hander k = some x) (a : Choice) :
  Checking o (m.putMemory k (checkStep (m.pass o a) (m.memory x) pc).1) k
    (checkStep (m.pass o a) (m.memory x) pc).2
  := by
  have hpass := h.this x hx
  have hnext := checkStep_passing (p := m.pass o a) (fun _ => rfl) hpass
  have hother : ∀ {i y}, i ≠ k →
      (m.putMemory k (checkStep (m.pass o a) (m.memory x) pc).1).hander i = some y →
        m.hander i = some y := by
    intro i y hik hy
    rwa [Manager.putMemory_hander_of_ne _ hik] at hy
  have hthis : (m.putMemory k (checkStep (m.pass o a) (m.memory x) pc).1).hander k =
      some (checkStep (m.pass o a) (m.memory x) pc).1.hander := by
    apply Manager.putMemory_hander_self
  constructor
  · intro i y hy
    by_cases hik : i = k
    · subst hik
      apply h.inRange i x hx
    · apply h.inRange i y (hother hik hy)
  · intro i y hik hy
    have hold := hother hik hy
    have htrust := h.others i y hik hold
    refine htrust.of_instances rfl ?_
    intro d hd
    have hlt : d < (m.memory x).made := (htrust d hd).1.1
    apply checkStep_instances (m.pass o a) hlt
    intro hb
    apply h.unshared d hb i y hik hold hd
  · intro y hy
    obtain rfl := Option.some.inj (hthis.symm.trans hy)
    apply hnext
  · intro d hb i y hik hy hd
    have hold := hother hik hy
    rcases checkStep_builds (m.pass o a) hb with hold' | rfl
    · apply h.unshared d hold' i y hik hold hd
    · have hlt := (h.others i y hik hold _ hd).1.1
      apply Nat.lt_irrefl _ hlt

/-- A step of the check keeps what holds while it runs. -/
theorem Checking.step {m m' : Manager} {k k' : ℕ} {pc pc' : CheckPc} {a : Choice}
    (h : Checking o m k pc) (hs : checkerStep o a m k pc = some (m', k', pc')) :
  Checking o m' k' pc'
  := by
  rw [checkerStep, Option.ite_none_right_eq_some] at hs
  obtain ⟨-, hs⟩ := hs
  split at hs
  · next hle =>
      obtain ⟨rfl, rfl, rfl⟩ := by simpa only [Option.some.injEq, Prod.mk.injEq] using hs
      apply h.next
      intro x hx
      apply absurd (h.inRange k x hx) (Nat.not_lt.mpr hle)
  · cases hx : m.hander k with
    | none =>
        rw [hx] at hs
        obtain ⟨rfl, rfl, rfl⟩ := by simpa only [Option.some.injEq, Prod.mk.injEq] using hs
        apply h.next
        intro x hx'
        rw [hx] at hx'
        cases hx'
    | some x =>
        rw [hx] at hs
        have hpass := h.pass hx a
        obtain ⟨rfl, heq⟩ := Prod.mk.inj (Option.some.inj hs)
        cases hpc : (checkStep (m.pass o a) (m.memory x) pc).2 with
        | top =>
            rw [hpc] at heq hpass
            obtain ⟨rfl, rfl⟩ := Prod.mk.inj heq
            apply hpass.next
            intro y hy
            apply hpass.this y hy
        | _ =>
            rw [hpc] at heq hpass
            obtain ⟨rfl, rfl⟩ := Prod.mk.inj heq
            apply hpass

/-- A new version of a file keeps what holds while the check runs. -/
theorem Checking.write {m : Manager} {k : ℕ} {pc : CheckPc} (h : Checking o m k pc)
    (file : String) :
  Checking o (m.write file) k pc
  := by
  refine ⟨h.inRange, h.others, ?_, h.unshared⟩
  intro x hx
  have hread : ∀ {t}, (m.memory x).TimeRead o m.version t →
      (m.memory x).TimeRead o (m.write file).version t := by
    rintro t ⟨w, hw, ht⟩
    use w, hw.trans (m.version_write file _)
  have hpass := h.this x hx
  cases pc with
  | comparing i t =>
      obtain ⟨ht, hi, hr, hd⟩ := hpass
      exact ⟨ht, hi, hread hr, hd⟩
  | dropping i t =>
      obtain ⟨ht, hi, hr⟩ := hpass
      exact ⟨ht, hi, hread hr⟩
  | building i t =>
      obtain ⟨ht, hi, hr⟩ := hpass
      exact ⟨ht, hi, hread hr⟩
  | initialising i t d =>
      obtain ⟨ht, hi, hr, hd⟩ := hpass
      exact ⟨ht, hi, hread hr, hd⟩
  | loading i t d =>
      obtain ⟨ht, hi, hr, hd⟩ := hpass
      exact ⟨ht, hi, hread hr, hd⟩
  | _ => apply hpass

/-! ### Runs of the manager -/

variable {handlers : List (Option (String × String))} {c c' : Managing} {e : Tid × Choice}
  {es : List (Tid × Choice)}

/-- For every handler with a current instance, the loader has ended and its `load()` was true,
or its bthread could not be started and the file exists in every version. -/
def Settled (o : Outcomes) (m : Manager) : Prop :=
  ∀ k d, m.current k = some d →
    (∃ j, m.dictPtr j = some k ∧ m.bthreads j = .finished ∧ o.load k = true) ∨
      (o.start k ≠ 0 ∧ ∀ v, o.mtime (m.instances d).curFile v ≠ 0)

/-- If the step `e` starts the check, the loads are settled. -/
def StartsSettled (o : Outcomes) (c : Managing) (e : Tid × Choice) : Prop :=
  ∀ r, e.1 = .main → c.locals .main = .main (.loaded r) → o.thread = true → Settled o c.shared

/-- If the check is about to skip a reload since the time `t` it read is the recorded one, the
current instance was loaded from the version of the file with that time, or a newer one. -/
def SkipsFresh (o : Outcomes) (c : Managing) : Prop :=
  ∀ k i t h, c.locals .checker = .checker k (.comparing i t) → c.shared.hander k = some h →
    t = h.modifyTime →
    ∃ d v w, h.dicts h.curIndex = some d ∧ (c.shared.instances d).loadedFrom = some v ∧ w ≤ v ∧
      o.mtime (c.shared.instances d).curFile w = t

/-- `run` has returned and no loader will move. -/
structure Quiet (c : Managing) : Prop where
  main : ∃ r, c.locals .main = .main (.returned r)
  loaders : ∀ j, (c.locals (.loader j) = .loader .waiting ∧ c.shared.bthreads j ≠ .running) ∨
    ∃ r, c.locals (.loader j) = .loader (.ended r)

/-- Before the check is started the outline holds; afterwards nothing but the check and the
writer moves, and the check keeps what it should. -/
structure Maintained (o : Outcomes) (handlers : List (Option (String × String)))
    (c : Managing) : Prop where
  before : c.shared.checking = false →
    (filling o handlers).Holds c ∧ c.locals .checker = .checker 0 .top
  after : c.shared.checking = true →
    Quiet c ∧ ∃ k pc, c.locals .checker = .checker k pc ∧ Checking o c.shared k pc

/-- When the loads are settled, every handler is trusted. -/
theorem Settled.checking (h : Settled o c.shared) (hO : (filling o handlers).Holds c)
    (hoff : c.shared.checking = false) :
  Checking o { c.shared with checking := true } 0 .top
  := by
  have hc := hO.shared.2 hoff
  have hs := hO.shared.1 hoff
  have htrust : ∀ i x, c.shared.hander i = some x → (c.shared.memory x).Trusted o := by
    intro i x hx d hd
    have hcur : c.shared.current i = some d := by
      rw [Manager.current, hx]
      apply hd
    have hfile := hc.file hcur
    rw [Manager.path, hx, Option.map_some, Option.some.injEq] at hfile
    refine ⟨⟨hc.live hcur, hfile.symm⟩, ?_⟩
    rcases h i d hcur with ⟨j, hj, hfin, hload⟩ | ⟨hstart, hexists⟩
    · left
      obtain ⟨d', v, w, hd', hv, hw, ht⟩ := freshAt_of_finished hO hoff hj hfin hload
      obtain rfl := Option.some.inj (hcur.symm.trans hd')
      rw [Manager.modifyTime, hx, Option.map_some, Option.some.injEq, ← hfile] at ht
      exact ⟨v, w, hv, hw, ht⟩
    · right
      have hzero : x.modifyTime = 0 := by
        apply hc.untouched _ hstart
        rw [Manager.modifyTime, hx, Option.map_some]
      intro v hv
      apply hexists v
      rw [← hfile, ← hzero]
      apply hv.symm
  constructor
  · intro i x hx
    have hpath := hs.path i
    have hx' : c.shared.hander i = some x := hx
    rw [Manager.path, hx', Option.map_some, eq_comm, Option.map_eq_some_iff] at hpath
    obtain ⟨y, hy, -⟩ := hpath
    have hlt := (List.getElem?_eq_some_iff.mp (Option.join_eq_some_iff.mp hy)).1
    rw [← hs.size] at hlt
    apply hlt
  · intro i x _ hx
    apply htrust i x hx
  · intro x hx
    apply htrust 0 x hx
  · intro d hd
    apply absurd hd (not_builds_top d)

/-- When the loads are settled, no loader will move. -/
theorem Settled.loaders (h : Settled o c.shared) (hO : (filling o handlers).Holds c)
    (hoff : c.shared.checking = false) (j : ℕ) :
  (c.locals (.loader j) = .loader .waiting ∧ c.shared.bthreads j ≠ .running) ∨
    ∃ r, c.locals (.loader j) = .loader (.ended r)
  := by
  have hs := hO.shared.1 hoff
  have hidle : c.shared.bthreads j ≠ .running := by
    intro hrun
    obtain ⟨k, hk, hzero⟩ := hs.started (i := j) (by simp [hrun])
    obtain ⟨d, hd⟩ := Option.isSome_iff_exists.mp (hs.bound hk).2
    rcases h k d hd with ⟨j', hj', hfin, -⟩ | ⟨hstart, -⟩
    · obtain rfl := hs.inj hk hj'
      rw [hrun] at hfin
      cases hfin
    · apply hstart hzero
  have hknows := (hO.own (.loader j)).1 hoff
  cases hl : c.locals (.loader j) with
  | loader pc =>
      rw [hl] at hknows
      cases pc with
      | waiting => exact Or.inl ⟨rfl, hidle⟩
      | indexed k i => apply absurd hknows.1.1 hidle
      | timing k d => apply absurd hknows.1 hidle
      | stamping k d t => apply absurd hknows.1 hidle
      | loading k d => apply absurd hknows.1 hidle
      | writing r =>
          obtain ⟨k, hat, -⟩ := hknows
          apply absurd hat.1 hidle
      | ending r =>
          obtain ⟨k, hat, -⟩ := hknows
          apply absurd hat.1 hidle
      | ended r => exact Or.inr ⟨r, rfl⟩
  | _ =>
      rw [hl] at hknows
      cases hknows

/-- A step before the check is started. -/
theorem Maintained.step_before (h : Maintained o handlers c)
    (hoff : c.shared.checking = false) (hsettled : StartsSettled o c e)
    (hstep : (managing o).machine.step c e = some c') :
  Maintained o handlers c'
  := by
  obtain ⟨hO, hchecker⟩ := h.before hoff
  have hO' := (filling o handlers).holds_step hO hstep
  obtain ⟨t, a⟩ := e
  obtain ⟨m', l', hl, rfl⟩ := (managing o).machine_step_eq_some.mp hstep
  have hstay : t ≠ .checker →
      (c.set t m' l').locals .checker = .checker 0 .top := by
    intro ht
    rw [Threads.Config.set_locals_of_ne _ ht.symm, hchecker]
  have hsame : t ≠ .checker → m'.checking = false → Maintained o handlers (c.set t m' l') := by
    intro ht hoff'
    constructor
    · intro _
      exact ⟨hO', hstay ht⟩
    · intro hon
      rw [Threads.Config.set_shared, hoff'] at hon
      cases hon
  rcases managing_step hl with ⟨rfl, pc, pc', hpc, rfl, hs⟩ | ⟨j, rfl, pc, pc', -, rfl, hs⟩ |
    ⟨rfl, k, pc, k', pc', -, rfl, hs⟩ | ⟨rfl, -, rfl, rfl⟩
  · rcases mainStep_checking hs with heq | ⟨hthread, ⟨r, rfl⟩, rfl, rfl⟩
    · apply hsame Tid.noConfusion
      rw [heq, hoff]
    · have hall := hsettled r rfl hpc hthread
      constructor
      · intro hoff'
        cases hoff'
      · intro _
        refine ⟨⟨⟨0, ?_⟩, ?_⟩, 0, .top, hstay Tid.noConfusion, hall.checking hO hoff⟩
        · apply Threads.Config.set_locals_self
        · intro j
          rw [Threads.Config.set_locals_of_ne _ Tid.noConfusion]
          apply hall.loaders hO hoff
  · apply hsame Tid.noConfusion
    rw [loaderStep_checking hs, hoff]
  · rw [(checkerStep_checking hs).1] at hoff
    cases hoff
  · apply hsame Tid.noConfusion hoff

/-- A step after the check was started. -/
theorem Maintained.step_after (h : Maintained o handlers c) (hon : c.shared.checking = true)
    (hstep : (managing o).machine.step c e = some c') :
  Maintained o handlers c'
  := by
  obtain ⟨⟨⟨r, hmain⟩, hloaders⟩, k, pc, hpc, hchecking⟩ := h.after hon
  have hon' := checking_step hon hstep
  obtain ⟨t, a⟩ := e
  obtain ⟨m', l', hl, rfl⟩ := (managing o).machine_step_eq_some.mp hstep
  constructor
  · intro hoff
    rw [hon'] at hoff
    cases hoff
  intro _
  rcases managing_step hl with ⟨rfl, mpc, pc', hmpc, rfl, hs⟩ | ⟨j, rfl, lpc, pc', hlpc, rfl, hs⟩ |
    ⟨rfl, k₀, pc₀, k', pc', hpc₀, rfl, hs⟩ | ⟨rfl, -, rfl, rfl⟩
  · rw [hmain] at hmpc
    obtain rfl := Local.main.inj hmpc
    cases hs
  · rcases hloaders j with ⟨hwait, hidle⟩ | ⟨r', hended⟩
    · rw [hwait] at hlpc
      obtain rfl := Local.loader.inj hlpc
      simp [loaderStep, hidle] at hs
    · rw [hended] at hlpc
      obtain rfl := Local.loader.inj hlpc
      cases hs
  · rw [hpc] at hpc₀
    obtain ⟨rfl, rfl⟩ := Local.checker.inj hpc₀
    refine ⟨⟨⟨r, ?_⟩, ?_⟩, k', pc', ?_, hchecking.step hs⟩
    · rw [Threads.Config.set_locals_of_ne _ Tid.noConfusion, hmain]
    · intro j
      rw [Threads.Config.set_locals_of_ne _ Tid.noConfusion, Threads.Config.set_shared,
        checkerStep_bthreads hs]
      apply hloaders j
    · apply Threads.Config.set_locals_self
  · refine ⟨⟨⟨r, ?_⟩, ?_⟩, k, pc, ?_, hchecking.write a.file⟩
    · rw [Threads.Config.set_locals_of_ne _ Tid.noConfusion, hmain]
    · intro j
      rw [Threads.Config.set_locals_of_ne _ Tid.noConfusion]
      apply hloaders j
    · rw [Threads.Config.set_locals_of_ne _ Tid.noConfusion, hpc]

theorem Maintained.step (h : Maintained o handlers c) (hsettled : StartsSettled o c e)
    (hstep : (managing o).machine.step c e = some c') :
  Maintained o handlers c'
  := by
  cases hc : c.shared.checking with
  | false => apply h.step_before hc hsettled hstep
  | true => apply h.step_after hc hstep

theorem maintained_start (o : Outcomes) (handlers : List (Option (String × String))) :
  Maintained o handlers (manageStart handlers)
  := by
  constructor
  · intro _
    exact ⟨filling_start o handlers, rfl⟩
  · intro hon
    cases hon

/-- The check skips a reload only when the current instance is fresh. -/
theorem Maintained.skipsFresh (h : Maintained o handlers c) :
  SkipsFresh o c
  := by
  intro k i t x hpc hx ht
  cases hc : c.shared.checking with
  | false =>
      rw [(h.before hc).2] at hpc
      cases hpc
  | true =>
      obtain ⟨-, k', pc, hpc', hchecking⟩ := h.after hc
      rw [hpc] at hpc'
      obtain ⟨rfl, rfl⟩ := Local.checker.inj hpc'
      obtain ⟨htrust, rfl, ⟨w, -, hw⟩, d, hd⟩ := hchecking.this x hx
      obtain ⟨⟨-, hfile⟩, hload⟩ := htrust d hd
      rcases hload with ⟨v, w', hv, hle, hw'⟩ | hnone
      · have hfile' : (c.shared.instances d).curFile = x.dictFilePath := hfile
        use d, v, w', hd, hv, hle
        rw [hfile', ht]
        apply hw'.symm
      · apply absurd _ (hnone w)
        rw [← hw]
        apply ht.symm

/-- The dictionary does not load at start-up, and `run` starts the check; its first pass reads
the time of the file. -/
def failedLoad : List (Tid × Choice) :=
  List.replicate 6 (.main, noChoice) ++ List.replicate 7 (.loader 0, noChoice) ++
    List.replicate 4 (.main, noChoice) ++ List.replicate 4 (.checker, noChoice)

/-- The check is about to skip the reload of a handler whose current instance is not loaded. -/
def skipsUnloaded (c : Managing) : Bool :=
  match c.locals .checker with
  | .checker k (.comparing _ t) =>
      (c.shared.hander k).any fun h => t == h.modifyTime &&
        (h.dicts h.curIndex).any fun d => (c.shared.instances d).loadedFrom.isNone
  | _ => false

theorem not_skipsFresh_of_skipsUnloaded (h : skipsUnloaded c = true) :
  ¬ SkipsFresh o c
  := by
  intro hfresh
  rw [skipsUnloaded] at h
  split at h
  · next k i t hpc =>
      obtain ⟨x, hx, h⟩ := (Option.any_eq_true _ _).mp h
      obtain ⟨ht, hcur⟩ := Bool.and_eq_true_iff.mp h
      obtain ⟨d, v, w, hd, hv, -⟩ := hfresh k i t x hpc hx (eq_of_beq ht)
      simp [hd, hv] at hcur
  · cases h

/-- When every bthread can be started and every `load()` is true, the loads are settled once
`parallel_sync_load` has returned. -/
theorem settled_of_loaded {r : ℤ} (hstart : ∀ k, o.start k = 0) (hload : ∀ k, o.load k = true)
    (h : (managing o).machine.run (manageStart handlers) es = some c)
    (hr : c.locals .main = .main (.loaded r)) :
  Settled o c.shared
  := by
  have hoff : c.shared.checking = false := checking_of_run h hr (by simp)
  have hO := (filling o handlers).holds_of_run h (filling_start o handlers)
  have hs := hO.shared.1 hoff
  have hc := hO.shared.2 hoff
  have hknows := (hO.own .main).1 hoff
  rw [hr] at hknows
  rcases hknows with ⟨-, ⟨i, hscan⟩, hjoin⟩ | ⟨-, j, hne, -⟩
  · intro k d hd
    left
    have hk := hc.created hd
    obtain ⟨j, hj, hjk⟩ := hscan.all hk.lt hk
    have hbegun := hscan.begun hj hjk (hstart k)
    obtain ⟨-, hdone⟩ := hjoin j (Nat.lt_of_lt_of_le hj hscan.index)
    refine ⟨j, hjk, ?_, hload k⟩
    cases hb : c.shared.bthreads j with
    | unstarted => apply absurd hb hbegun
    | running => apply absurd hb hdone
    | finished => rfl
  · obtain ⟨k, -, hfail⟩ := hs.failed hne
    simp [hstart, hload] at hfail

/-- Every bthread starts, every dictionary loads, and no file changes. -/
def allLoad : Outcomes := { noLoad with load := fun _ => true }

/-- The dictionary loads at start-up, `run` starts the check, a pass of it goes by, and the next
one reads the time of the file. -/
def loadedOnce : List (Tid × Choice) :=
  List.replicate 6 (.main, noChoice) ++ List.replicate 7 (.loader 0, noChoice) ++
    List.replicate 5 (.main, noChoice) ++ List.replicate 10 (.checker, noChoice)

end Dict
