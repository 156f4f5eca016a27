import CppFreshman.Dict.Startup

/-!
# What the start-up leaves in the handlers

What the dictionaries hold until the reload check is started, over the outline `starting`.  An
instance in a current slot belongs to one handler, and it is loaded only if its bthread could
be started and its `load()` was true.  A handler whose loader has ended after a true `load()`
is fresh: its instance was loaded from the version of the file whose time is recorded, or from
a newer one (`FreshAt`).
-/

namespace Dict

namespace Manager

/-- The time recorded in the handler at position `k`. -/
def modifyTime (m : Manager) (k : ℕ) : Option Time :=
  (m.hander k).map DictHander.modifyTime

variable (m : Manager)

@[simp]
theorem modifyTime_setSlot (k k' : ℕ) (i : Fin 2) (d : Option ℕ) :
  (m.setSlot k i d).modifyTime k' = m.modifyTime k'
  := by
  by_cases h : k' = k
  · subst h
    simp [modifyTime, setSlot, Function.comp_def]
  · simp [modifyTime, setSlot, h]

theorem modifyTime_stamp_of_ne {k k' : ℕ} (h : k' ≠ k) (t : Time) :
  (m.stamp k t).modifyTime k' = m.modifyTime k'
  := by
  simp [modifyTime, stamp, h]

theorem modifyTime_stamp_self {k d : ℕ} (h : m.current k = some d) (t : Time) :
  (m.stamp k t).modifyTime k = some t
  := by
  obtain ⟨x, hx, -⟩ := Option.bind_eq_some_iff.mp h
  simp [modifyTime, stamp, hx]

theorem putMemory_hander_self (k : ℕ) (mem : Memory) :
  (m.putMemory k mem).hander k = some mem.hander
  := by
  apply Function.update_self

theorem putMemory_hander_of_ne {i k : ℕ} (h : i ≠ k) (mem : Memory) :
  (m.putMemory k mem).hander i = m.hander i
  := by
  apply Function.update_of_ne h

theorem version_write (file file' : String) :
  m.version file' ≤ (m.write file).version file'
  := by
  by_cases h : file' = file
  · subst h
    simp [write]
  · simp [write, h]

theorem instances_cfunc_of_ne {d : ℕ} (h : d ≠ m.made) (k : ℕ) :
  (m.cfunc k).instances d = m.instances d
  := by
  apply Function.update_of_ne h

theorem instances_load_of_ne {d d' : ℕ} (h : d' ≠ d) :
  (m.load d).instances d' = m.instances d'
  := by
  apply Function.update_of_ne h

@[simp]
theorem instances_load_self (d : ℕ) :
  (m.load d).instances d =
    { m.instances d with loadedFrom := some (m.version (m.instances d).curFile) }
  := by
  apply Function.update_self

end Manager

variable {o : Outcomes} {handlers : List (Option (String × String))} {m m' : Manager}

/-- The current instance of the handler at position `k` was loaded from the version of its
file that has the recorded time, or from a newer one. -/
def FreshAt (o : Outcomes) (m : Manager) (k : ℕ) : Prop :=
  ∃ d v w, m.current k = some d ∧ (m.instances d).loadedFrom = some v ∧ w ≤ v ∧
    m.modifyTime k = some (o.mtime (m.instances d).curFile w)

/-- The instances in the current slots. -/
structure Contents (o : Outcomes) (handlers : List (Option (String × String)))
    (m : Manager) : Prop where
  created : ∀ {k d}, m.current k = some d → Startable o handlers k
  live : ∀ {k d}, m.current k = some d → d < m.made
  file : ∀ {k d}, m.current k = some d → m.path k = some (m.instances d).curFile
  apart : ∀ {k k' d}, m.current k = some d → m.current k' = some d → k = k'
  loaded : ∀ {k d}, m.current k = some d → (m.instances d).loadedFrom.isSome →
    o.start k = 0 ∧ o.load k = true
  untouched : ∀ {k t}, m.modifyTime k = some t → o.start k ≠ 0 → t = 0

/-- What a loader has found or left in its handler. -/
def LoaderPc.Left (o : Outcomes) (j : ℕ) (m : Manager) : LoaderPc → Prop
  | .waiting => True
  | .indexed _ _ => True
  | .timing k d => m.current k = some d
  | .stamping k d t => m.current k = some d ∧
      ∃ w, w ≤ m.version (m.instances d).curFile ∧ t = o.mtime (m.instances d).curFile w
  | .loading k d => m.current k = some d ∧ ∃ w, w ≤ m.version (m.instances d).curFile ∧
      m.modifyTime k = some (o.mtime (m.instances d).curFile w)
  | .writing _ => ∀ k, m.dictPtr j = some k → o.load k = true → FreshAt o m k
  | .ending _ => ∀ k, m.dictPtr j = some k → o.load k = true → FreshAt o m k
  | .ended _ => ∀ k, m.dictPtr j = some k → o.load k = true → FreshAt o m k

/-- The handler at position `k` holds what it did, and files have only grown newer. -/
structure SameAt (m m' : Manager) (k : ℕ) : Prop where
  current : m'.current k = m.current k
  modifyTime : m'.modifyTime k = m.modifyTime k
  instances : ∀ d, m.current k = some d → m'.instances d = m.instances d
  version : ∀ file, m.version file ≤ m'.version file

theorem FreshAt.same {k : ℕ} (h : FreshAt o m k) (hs : SameAt m m' k) :
  FreshAt o m' k
  := by
  obtain ⟨d, v, w, hd, hv, hw, ht⟩ := h
  use d, v, w
  rw [hs.current, hs.modifyTime, hs.instances d hd]
  exact ⟨hd, hv, hw, ht⟩

/-- What a loader left stays when its handler does. -/
theorem LoaderPc.Left.same {j : ℕ} {pc : LoaderPc} (h : pc.Left o j m) (hk : pc.Knows o j m)
    (hd : ∀ k, m.bthreads j ≠ .unstarted → m'.dictPtr j = some k → m.dictPtr j = some k)
    (hs : ∀ k, m.dictPtr j = some k → SameAt m m' k) :
  pc.Left o j m'
  := by
  have hfresh : m.bthreads j ≠ .unstarted →
      (∀ k, m.dictPtr j = some k → o.load k = true → FreshAt o m k) →
      ∀ k, m'.dictPtr j = some k → o.load k = true → FreshAt o m' k := by
    intro hb hall k hk hload
    apply (hall k (hd k hb hk) hload).same (hs k (hd k hb hk))
  cases pc with
  | waiting => trivial
  | indexed k i => trivial
  | timing k d =>
      rw [Left, (hs k hk.2).current]
      apply h
  | stamping k d t =>
      obtain ⟨hcur, w, hw, ht⟩ := h
      have hsame := hs k hk.2
      rw [Left, hsame.current, hsame.instances d hcur]
      exact ⟨hcur, w, hw.trans (hsame.version _), ht⟩
  | loading k d =>
      obtain ⟨hcur, w, hw, ht⟩ := h
      have hsame := hs k hk.2
      rw [Left, hsame.current, hsame.instances d hcur, hsame.modifyTime]
      exact ⟨hcur, w, hw.trans (hsame.version _), ht⟩
  | writing r =>
      obtain ⟨k, hat, -⟩ := hk
      apply hfresh _ h
      simp [hat.1]
  | ending r =>
      obtain ⟨k, hat, -⟩ := hk
      apply hfresh _ h
      simp [hat.1]
  | ended r =>
      apply hfresh _ h
      simp [hk.1]

/-! ### The steps of the loaders -/

theorem SameAt.refl (m : Manager) (k : ℕ) :
  SameAt m m k
  := ⟨rfl, rfl, fun _ _ => rfl, fun _ => Nat.le_refl _⟩

/-- Recording a time keeps the contents. -/
theorem Contents.stamp (h : Contents o handlers m) {k : ℕ} (hk : o.start k = 0) (t : Time) :
  Contents o handlers (m.stamp k t)
  := by
  constructor
  · intro k' d hd
    rw [Manager.current_stamp] at hd
    apply h.created hd
  · intro k' d hd
    rw [Manager.current_stamp] at hd
    apply h.live hd
  · intro k' d hd
    rw [Manager.current_stamp] at hd
    rw [Manager.path_stamp]
    apply h.file hd
  · intro k₁ k₂ d h₁ h₂
    rw [Manager.current_stamp] at h₁ h₂
    apply h.apart h₁ h₂
  · intro k' d hd
    rw [Manager.current_stamp] at hd
    apply h.loaded hd
  · intro k' t' ht hstart
    have hne : k' ≠ k := by
      rintro rfl
      apply hstart hk
    rw [Manager.modifyTime_stamp_of_ne m hne] at ht
    apply h.untouched ht hstart

/-- A true `load()` of the current instance of a handler whose bthread could be started. -/
theorem Contents.load (h : Contents o handlers m) {k d : ℕ} (hd : m.current k = some d)
    (hk : o.start k = 0) (hload : o.load k = true) :
  Contents o handlers (m.load d)
  := by
  refine ⟨h.created, h.live, ?_, h.apart, ?_, h.untouched⟩
  · intro k' d' hd'
    by_cases hdd : d' = d
    · subst hdd
      rw [Manager.instances_load_self]
      apply h.file hd'
    · rw [Manager.instances_load_of_ne m hdd]
      apply h.file hd'
  · intro k' d' hd' hl
    by_cases hdd : d' = d
    · subst hdd
      obtain rfl := h.apart hd hd'
      exact ⟨hk, hload⟩
    · rw [Manager.instances_load_of_ne m hdd] at hl
      apply h.loaded hd' hl

theorem Contents.congr (h : Contents o handlers m) (hh : m'.hander = m.hander)
    (hi : m'.instances = m.instances) (hm : m'.made = m.made) :
  Contents o handlers m'
  := by
  have hcur : m'.current = m.current := by
    funext k
    rw [Manager.current, hh, Manager.current]
  have hpath : m'.path = m.path := by
    funext k
    rw [Manager.path, hh, Manager.path]
  have htime : m'.modifyTime = m.modifyTime := by
    funext k
    rw [Manager.modifyTime, hh, Manager.modifyTime]
  constructor
  · rw [hcur]
    exact h.created
  · rw [hcur, hm]
    exact h.live
  · rw [hcur, hpath, hi]
    exact h.file
  · rw [hcur]
    exact h.apart
  · rw [hcur, hi]
    exact h.loaded
  · rw [htime]
    exact h.untouched

theorem SameAt.of_hander {k : ℕ} (hh : m'.hander = m.hander) (hi : m'.instances = m.instances)
    (hv : ∀ file, m.version file ≤ m'.version file) :
  SameAt m m' k
  := by
  constructor
  · rw [Manager.current, hh, Manager.current]
  · rw [Manager.modifyTime, hh, Manager.modifyTime]
  · intro d _
    rw [hi]
  · apply hv

/-- A write to a slot or to a bthread does not touch the handlers. -/
theorem FreshAt.congr {k : ℕ} (h : FreshAt o m k) (hh : m'.hander = m.hander)
    (hi : m'.instances = m.instances) (hv : ∀ file, m.version file ≤ m'.version file) :
  FreshAt o m' k
  := by
  apply h.same (SameAt.of_hander hh hi hv)

/-- What the step of a loader does to the handlers: it keeps the contents, leaves its handler
as it says, and touches no other handler. -/
structure LoaderLeft (o : Outcomes) (handlers : List (Option (String × String))) (j : ℕ)
    (m m' : Manager) (pc' : LoaderPc) : Prop where
  contents : Contents o handlers m'
  left : pc'.Left o j m'
  others : ∀ k, m.dictPtr j ≠ some k → SameAt m m' k

theorem loaderStep_left {j : ℕ} {pc pc' : LoaderPc} (hs : SlotsBound o handlers m)
    (hc : Contents o handlers m) (hk : pc.Knows o j m) (hl : pc.Left o j m)
    (h : loaderStep o j m pc = some (m', pc')) :
  LoaderLeft o handlers j m m' pc'
  := by
  have hsame : ∀ k, m.dictPtr j ≠ some k → SameAt m m k := fun k _ => SameAt.refl m k
  have hstart : ∀ {k}, LoadsAt m j k → o.start k = 0 := by
    intro k hat
    obtain ⟨k', hk', hzero⟩ := hs.started (i := j) (by simp [hat.1])
    obtain rfl := Option.some.inj (hat.2.symm.trans hk')
    apply hzero
  cases pc with
  | waiting =>
      simp only [loaderStep, Option.ite_none_right_eq_some] at h
      obtain ⟨k, -, h⟩ := Option.bind_eq_some_iff.mp h.2
      obtain ⟨x, -, h⟩ := Option.map_eq_some_iff.mp h
      obtain ⟨rfl, rfl⟩ := Prod.mk.inj h
      exact ⟨hc, trivial, hsame⟩
  | indexed k i =>
      obtain ⟨x, hx, h⟩ := Option.map_eq_some_iff.mp h
      obtain ⟨⟨-, hbound⟩, hi⟩ := hk
      obtain rfl : x.curIndex = i := by
        simpa [Manager.curIndex, hx] using hi
      obtain ⟨d, hd⟩ := hs.current_ne hbound hx
      rw [hd] at h
      obtain ⟨rfl, rfl⟩ := Prod.mk.inj h
      refine ⟨hc, ?_, hsame⟩
      rw [LoaderPc.Left, Manager.current, hx]
      apply hd
  | timing k d =>
      obtain ⟨rfl, rfl⟩ := Prod.mk.inj (Option.some.inj h)
      exact ⟨hc, ⟨hl, _, Nat.le_refl _, rfl⟩, hsame⟩
  | stamping k d t =>
      obtain ⟨rfl, rfl⟩ := Prod.mk.inj (Option.some.inj h)
      obtain ⟨hcur, w, hw, rfl⟩ := hl
      refine ⟨hc.stamp (hstart hk) _, ⟨?_, w, hw, ?_⟩, ?_⟩
      · rw [Manager.current_stamp, hcur]
      · apply Manager.modifyTime_stamp_self m hcur
      · intro k' hk'
        have hne : k' ≠ k := by
          rintro rfl
          apply hk' hk.2
        refine ⟨?_, ?_, fun _ _ => rfl, fun _ => Nat.le_refl _⟩
        · apply Manager.current_stamp
        · apply Manager.modifyTime_stamp_of_ne m hne
  | loading k d =>
      obtain ⟨hcur, w, hw, ht⟩ := hl
      have hthis : ∀ {k'}, m.dictPtr j = some k' → k' = k := by
        intro k' hk'
        apply Option.some.inj (hk'.symm.trans hk.2)
      by_cases hload : o.load k = true
      · simp only [loaderStep, if_pos hload] at h
        obtain ⟨rfl, rfl⟩ := Prod.mk.inj (Option.some.inj h)
        refine ⟨hc.load hcur (hstart hk) hload, ?_, ?_⟩
        · intro k' hk' _
          obtain rfl := hthis hk'
          use d, m.version (m.instances d).curFile, w, hcur
          rw [Manager.instances_load_self]
          exact ⟨rfl, hw, ht⟩
        · intro k' hk'
          refine ⟨rfl, rfl, ?_, fun _ => Nat.le_refl _⟩
          intro d' hd'
          apply Manager.instances_load_of_ne
          rintro rfl
          obtain rfl := hc.apart hcur hd'
          apply hk' hk.2
      · simp only [loaderStep, if_neg hload] at h
        obtain ⟨rfl, rfl⟩ := Prod.mk.inj (Option.some.inj h)
        refine ⟨hc, ?_, hsame⟩
        intro k' hk' hload'
        obtain rfl := hthis hk'
        apply absurd hload' hload
  | writing r =>
      obtain ⟨rfl, rfl⟩ := Prod.mk.inj (Option.some.inj h)
      have hver : ∀ file, m.version file ≤ (m.setRet j r).version file := fun _ => Nat.le_refl _
      refine ⟨hc.congr rfl rfl rfl, ?_, fun _ _ => SameAt.of_hander rfl rfl hver⟩
      intro k hk' hload
      rw [Manager.dictPtr_setRet] at hk'
      apply (hl k hk' hload).congr rfl rfl hver
  | ending r =>
      obtain ⟨rfl, rfl⟩ := Prod.mk.inj (Option.some.inj h)
      have hver : ∀ file, m.version file ≤ (m.setBthread j .finished).version file :=
        fun _ => Nat.le_refl _
      refine ⟨hc.congr rfl rfl rfl, ?_, fun _ _ => SameAt.of_hander rfl rfl hver⟩
      intro k hk' hload
      apply (hl k hk' hload).congr rfl rfl hver
  | ended r => cases h

/-! ### The steps of the starter -/

/-- A new instance does not touch the handlers, nor the instances in their current slots. -/
theorem Contents.cfunc (h : Contents o handlers m) (k : ℕ) :
  Contents o handlers (m.cfunc k)
  := by
  have hold : ∀ {k' d}, m.current k' = some d → (m.cfunc k).instances d = m.instances d := by
    intro k' d hd
    apply Manager.instances_cfunc_of_ne m (Nat.ne_of_lt (h.live hd))
  refine ⟨h.created, ?_, ?_, h.apart, ?_, h.untouched⟩
  · intro k' d hd
    apply Nat.lt_succ_of_lt (h.live hd)
  · intro k' d hd
    rw [hold hd]
    apply h.file hd
  · intro k' d hd hl
    rw [hold hd] at hl
    apply h.loaded hd hl

/-- The instance `c` was built for the handler at position `k` and is in no current slot
yet. -/
structure Unused (o : Outcomes) (handlers : List (Option (String × String))) (m : Manager)
    (k c : ℕ) : Prop where
  startable : Startable o handlers k
  live : c < m.made
  file : m.path k = some (m.instances c).curFile
  unloaded : (m.instances c).loadedFrom = none
  unshared : ∀ k', m.current k' ≠ some c

/-- A new instance is made current, or none. -/
theorem Contents.setSlot (h : Contents o handlers m) {k : ℕ} {i : Fin 2}
    (hi : m.curIndex k = some i) {d : Option ℕ}
    (hd : ∀ c, d = some c → Unused o handlers m k c) :
  Contents o handlers (m.setSlot k i d)
  := by
  have hcases : ∀ {k' c}, (m.setSlot k i d).current k' = some c →
      (k' = k ∧ d = some c) ∨ (k' ≠ k ∧ m.current k' = some c) := by
    intro k' c hc
    by_cases hne : k' = k
    · subst hne
      rw [Manager.current_setSlot_self m hi] at hc
      exact Or.inl ⟨rfl, hc⟩
    · rw [Manager.current_setSlot_of_ne m hne] at hc
      exact Or.inr ⟨hne, hc⟩
  constructor
  · intro k' c hc
    rcases hcases hc with ⟨rfl, hnew⟩ | ⟨-, hold⟩
    · apply (hd c hnew).startable
    · apply h.created hold
  · intro k' c hc
    rcases hcases hc with ⟨-, hnew⟩ | ⟨-, hold⟩
    · apply (hd c hnew).live
    · apply h.live hold
  · intro k' c hc
    rw [Manager.path_setSlot]
    rcases hcases hc with ⟨rfl, hnew⟩ | ⟨-, hold⟩
    · apply (hd c hnew).file
    · apply h.file hold
  · intro k₁ k₂ c h₁ h₂
    rcases hcases h₁ with ⟨hk₁, hnew₁⟩ | ⟨-, hold₁⟩ <;>
      rcases hcases h₂ with ⟨hk₂, hnew₂⟩ | ⟨-, hold₂⟩
    · rw [hk₁, hk₂]
    · apply absurd hold₂ ((hd c hnew₁).unshared k₂)
    · apply absurd hold₁ ((hd c hnew₂).unshared k₁)
    · apply h.apart hold₁ hold₂
  · intro k' c hc hl
    rcases hcases hc with ⟨-, hnew⟩ | ⟨-, hold⟩
    · have hl' : (m.instances c).loadedFrom.isSome := hl
      rw [(hd c hnew).unloaded] at hl'
      cases hl'
    · apply h.loaded hold hl
  · intro k' t ht
    rw [Manager.modifyTime_setSlot] at ht
    apply h.untouched ht

/-- What a loader left stays when the handlers and its slot do. -/
theorem LoaderPc.Left.congr {j : ℕ} {pc : LoaderPc} (h : pc.Left o j m) (hk : pc.Knows o j m)
    (hh : m'.hander = m.hander) (hi : m'.instances = m.instances)
    (hv : ∀ file, m.version file ≤ m'.version file)
    (hd : ∀ k, m.bthreads j ≠ .unstarted → m'.dictPtr j = some k → m.dictPtr j = some k) :
  pc.Left o j m'
  := by
  apply h.same hk hd
  intro k _
  apply SameAt.of_hander hh hi hv

/-- A write to the current slot of a handler that has no slot of `load_args`. -/
theorem SameAt.setSlot {k k' : ℕ} (h : k' ≠ k) (i : Fin 2) (d : Option ℕ) :
  SameAt m (m.setSlot k i d) k'
  := by
  refine ⟨?_, ?_, fun _ _ => rfl, fun _ => Nat.le_refl _⟩
  · apply Manager.current_setSlot_of_ne m h
  · apply Manager.modifyTime_setSlot

theorem SameAt.trans {m'' : Manager} {k : ℕ} (h : SameAt m m' k) (h' : SameAt m' m'' k) :
  SameAt m m'' k
  := by
  constructor
  · rw [h'.current, h.current]
  · rw [h'.modifyTime, h.modifyTime]
  · intro d hd
    rw [h'.instances d (by rw [h.current, hd]), h.instances d hd]
  · intro file
    apply (h.version file).trans (h'.version file)

theorem SameAt.cfunc (h : Contents o handlers m) (k k' : ℕ) :
  SameAt m (m.cfunc k) k'
  := by
  refine ⟨rfl, rfl, ?_, fun _ => Nat.le_refl _⟩
  intro d hd
  apply Manager.instances_cfunc_of_ne m (Nat.ne_of_lt (h.live hd))

/-- What the step of the starter does to the handlers: it keeps the contents and what the
loaders left. -/
structure MainLeft (o : Outcomes) (handlers : List (Option (String × String)))
    (m m' : Manager) : Prop where
  contents : Contents o handlers m'
  loaders : ∀ {j} {pc : LoaderPc}, pc.Knows o j m → pc.Left o j m → pc.Left o j m'

theorem mainStep_left {pc pc' : MainPc} (hc : Contents o handlers m)
    (hk : pc.Knows o handlers m) (h : mainStep o m pc = some (m', pc')) :
  MainLeft o handlers m m'
  := by
  cases mainStep_move h with
  | stay => exact ⟨hc, fun _ => id⟩
  | @create k i idx hok =>
      obtain ⟨hscan, hidx, x, hx, hne⟩ := hk
      constructor
      · apply (hc.cfunc k).setSlot hidx
        intro c hcm
        obtain rfl := Option.some.inj hcm
        refine ⟨⟨x, hx, hne, hok⟩, Nat.lt_succ_self _, ?_, ?_, ?_⟩
        · obtain ⟨y, hy, -⟩ := Option.map_eq_some_iff.mp hidx
          simp [Manager.path, Manager.cfunc, hy]
        · simp [Manager.cfunc]
        · intro k' hk'
          apply Nat.lt_irrefl m.made (hc.live hk')
      · intro j pc hpc hleft
        apply hleft.same hpc
        · intro k' _ hk'
          apply hk'
        · intro k' hk'
          have hkk : k' ≠ k := by
            rintro rfl
            apply hscan.unbound j hk'
          apply (SameAt.cfunc hc k k').trans (SameAt.setSlot hkk idx _)
  | @clear k i idx =>
      obtain ⟨hscan, hidx, x, hx, hne⟩ := hk
      constructor
      · apply hc.setSlot hidx
        intro c hcm
        cases hcm
      · intro j pc hpc hleft
        apply hleft.same hpc
        · intro k' _ hk'
          apply hk'
        · intro k' hk'
          apply SameAt.setSlot
          rintro rfl
          apply hscan.unbound j hk'
  | @bind k i =>
      obtain ⟨hscan, -, -⟩ := hk
      constructor
      · exact hc.congr rfl rfl rfl
      · intro j pc hpc hleft
        refine hleft.congr hpc rfl rfl (fun _ => Nat.le_refl _) ?_
        intro k' hb hk'
        rw [Manager.dictPtr_bind, if_neg] at hk'
        · apply hk'
        · rintro rfl
          apply hb (hscan.fresh (Nat.le_refl j)).2
  | spawn =>
      constructor
      · exact hc.congr rfl rfl rfl
      · intro j pc hpc hleft
        refine hleft.congr hpc rfl rfl (fun _ => Nat.le_refl _) ?_
        intro k' _ hk'
        apply hk'
  | assign =>
      constructor
      · exact hc.congr rfl rfl rfl
      · intro j pc hpc hleft
        refine hleft.congr hpc rfl rfl (fun _ => Nat.le_refl _) ?_
        intro k' _ hk'
        rwa [Manager.dictPtr_setRet] at hk'
  | start =>
      constructor
      · exact hc.congr rfl rfl rfl
      · intro j pc hpc hleft
        refine hleft.congr hpc rfl rfl (fun _ => Nat.le_refl _) ?_
        intro k' _ hk'
        apply hk'

/-! ### The proof outline -/

/-- What a thread has left in the handlers. -/
def Local.Left (o : Outcomes) (t : Tid) (m : Manager) (l : Local) : Prop :=
  match t, l with
  | .loader j, .loader pc => pc.Left o j m
  | _, _ => True

/-- The outline of the manager until the check is started, with the contents of the
handlers. -/
def filling (o : Outcomes) (handlers : List (Option (String × String))) :
    Threads.Outline (managing o) where
  shared m := (starting o handlers).shared m ∧ (m.checking = false → Contents o handlers m)
  own t m l := (starting o handlers).own t m l ∧ (m.checking = false → l.Left o t m)
  apart _ _ := True
  symm _ := trivial
  step := by
    intro t a m l m' l' hm hl h
    obtain ⟨hshared, hown⟩ := (starting o handlers).step hm.1 hl.1 h
    have hboth : m'.checking = false → Contents o handlers m' ∧ l'.Left o t m' := by
      intro hoff
      have hoff' := managing_checking h hoff
      have hs := hm.1 hoff'
      have hc := hm.2 hoff'
      have hk := hl.1 hoff'
      rcases managing_step h with ⟨rfl, pc, pc', rfl, rfl, hstep⟩ |
        ⟨j, rfl, pc, pc', rfl, rfl, hstep⟩ | ⟨rfl, k, pc, k', pc', rfl, rfl, hstep⟩ |
        ⟨rfl, rfl, rfl, rfl⟩
      · exact ⟨(mainStep_left hc hk hstep).contents, trivial⟩
      · have ht := loaderStep_left hs hc hk (hl.2 hoff') hstep
        exact ⟨ht.contents, ht.left⟩
      · rw [(checkerStep_checking hstep).2] at hoff
        cases hoff
      · exact ⟨hc.congr rfl rfl rfl, trivial⟩
    exact ⟨⟨hshared, fun hoff => (hboth hoff).1⟩, hown, fun hoff => (hboth hoff).2⟩
  free := by
    intro t a m l m' l' t' k hm hl h hne hk _
    obtain ⟨hown, -⟩ := (starting o handlers).free hm.1 hl.1 h hne hk.1 trivial
    refine ⟨⟨hown, fun hoff => ?_⟩, trivial⟩
    have hoff' := managing_checking h hoff
    have hs := hm.1 hoff'
    have hc := hm.2 hoff'
    have hknows := hl.1 hoff'
    have hknows' := hk.1 hoff'
    have hleft := hk.2 hoff'
    cases t' with
    | loader i =>
        cases k with
        | loader lpc =>
            rcases managing_step h with ⟨rfl, pc, pc', rfl, rfl, hstep⟩ |
              ⟨j, rfl, pc, pc', rfl, rfl, hstep⟩ | ⟨rfl, k, pc, k', pc', rfl, rfl, hstep⟩ |
              ⟨rfl, rfl, rfl, rfl⟩
            · apply (mainStep_left hc hknows hstep).loaders hknows' hleft
            · have hturn := loaderStep_turn hs hknows hstep
              have ht := loaderStep_left hs hc hknows (hl.2 hoff') hstep
              apply LoaderPc.Left.same hleft hknows'
              · intro k' _ hk'
                rwa [hturn.moves.dictPtr] at hk'
              · intro k' hk'
                apply ht.others
                intro hj
                apply hne
                rw [hs.inj hj hk']
            · rw [(checkerStep_checking hstep).2] at hoff
              cases hoff
            · refine LoaderPc.Left.congr hleft hknows' rfl rfl ?_ ?_
              · intro file
                apply Manager.version_write
              · intro k' _ hk'
                apply hk'
        | _ => trivial
    | _ => trivial

theorem filling_start (o : Outcomes) (handlers : List (Option (String × String))) :
  (filling o handlers).Holds (manageStart handlers)
  := by
  have hstart := starting_start o handlers
  constructor
  · use hstart.shared
    intro _
    have hnone : ∀ k, (manageStart handlers).shared.current k = none := by
      intro k
      cases hk : handlers[k]?.join <;>
        simp [Manager.current, manageStart, hk, DictHander.registered]
    constructor
    · intro k d hd
      rw [hnone] at hd
      cases hd
    · intro k d hd
      rw [hnone] at hd
      cases hd
    · intro k d hd
      rw [hnone] at hd
      cases hd
    · intro k k' d hd
      rw [hnone] at hd
      cases hd
    · intro k d hd
      rw [hnone] at hd
      cases hd
    · intro k t ht _
      cases hk : handlers[k]?.join with
      | none => simp [Manager.modifyTime, manageStart, hk] at ht
      | some x =>
          simp only [Manager.modifyTime, manageStart, hk, Option.map_some] at ht
          apply (Option.some.inj ht).symm
  · intro t
    use hstart.own t
    intro _
    cases t <;> trivial
  · intros
    trivial

end Dict
