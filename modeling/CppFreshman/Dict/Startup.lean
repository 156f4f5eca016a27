import CppFreshman.Dict.Manager

/-!
# Loading all dictionaries at start-up

What the threads of the manager may rely on until the reload check is started.  Every slot of
`load_args` handed out is bound to a handler of its own (`SlotsBound`), the starter knows which
handlers and slots it is past (`Scanned`) and which slots it has joined (`Joined`), and a
loader knows its slot, its handler and the result it is about to write.
-/

namespace Dict

namespace Manager

/-- The path of the handler at position `k`. -/
def path (m : Manager) (k : ℕ) : Option String :=
  (m.hander k).map DictHander.dictFilePath

/-- The current index of the handler at position `k`. -/
def curIndex (m : Manager) (k : ℕ) : Option (Fin 2) :=
  (m.hander k).map DictHander.curIndex

/-- The instance in the current slot of the handler at position `k`. -/
def current (m : Manager) (k : ℕ) : Option ℕ :=
  (m.hander k).bind fun h => h.dicts h.curIndex

/-- The handler the slot `i` is bound to. -/
def dictPtr (m : Manager) (i : ℕ) : Option ℕ :=
  (m.loadArgs i).dictPtr

/-- The result in the slot `i`. -/
def ret (m : Manager) (i : ℕ) : ℤ :=
  (m.loadArgs i).ret

variable (m : Manager)

@[simp]
theorem modifyHander_of_ne {k k' : ℕ} (h : k' ≠ k) (f : DictHander → DictHander) :
  (m.modifyHander k f).hander k' = m.hander k'
  := by
  apply Function.update_of_ne h

@[simp]
theorem modifyHander_self (k : ℕ) (f : DictHander → DictHander) :
  (m.modifyHander k f).hander k = (m.hander k).map f
  := by
  apply Function.update_self

@[simp]
theorem path_setSlot (k k' : ℕ) (i : Fin 2) (d : Option ℕ) :
  (m.setSlot k i d).path k' = m.path k'
  := by
  by_cases h : k' = k
  · subst h
    simp [path, setSlot, Function.comp_def]
  · simp [path, setSlot, h]

@[simp]
theorem curIndex_setSlot (k k' : ℕ) (i : Fin 2) (d : Option ℕ) :
  (m.setSlot k i d).curIndex k' = m.curIndex k'
  := by
  by_cases h : k' = k
  · subst h
    simp [curIndex, setSlot, Function.comp_def]
  · simp [curIndex, setSlot, h]

theorem current_setSlot_of_ne {k k' : ℕ} (h : k' ≠ k) (i : Fin 2) (d : Option ℕ) :
  (m.setSlot k i d).current k' = m.current k'
  := by
  simp [current, setSlot, h]

/-- Writing the current slot makes what is written current. -/
theorem current_setSlot_self {k : ℕ} {i : Fin 2} (h : m.curIndex k = some i) (d : Option ℕ) :
  (m.setSlot k i d).current k = d
  := by
  obtain ⟨x, hx, rfl⟩ := Option.map_eq_some_iff.mp h
  simp [current, setSlot, hx]

@[simp]
theorem path_stamp (k k' : ℕ) (t : Time) :
  (m.stamp k t).path k' = m.path k'
  := by
  by_cases h : k' = k
  · subst h
    simp [path, stamp, Function.comp_def]
  · simp [path, stamp, h]

@[simp]
theorem curIndex_stamp (k k' : ℕ) (t : Time) :
  (m.stamp k t).curIndex k' = m.curIndex k'
  := by
  by_cases h : k' = k
  · subst h
    simp [curIndex, stamp, Function.comp_def]
  · simp [curIndex, stamp, h]

@[simp]
theorem current_stamp (k k' : ℕ) (t : Time) :
  (m.stamp k t).current k' = m.current k'
  := by
  by_cases h : k' = k
  · subst h
    simp [current, stamp, Option.bind_map]
  · simp [current, stamp, h]

theorem dictPtr_bind (i k j : ℕ) :
  (m.bind i k).dictPtr j = if j = i then some k else m.dictPtr j
  := by
  by_cases h : j = i <;> simp [dictPtr, bind, h]

/-- A slot that is in use stays bound when another one is. -/
theorem dictPtr_bind_of_eq_some {i j k : ℕ} (hi : m.dictPtr i = none)
    (hj : m.dictPtr j = some k) (k' : ℕ) :
  (m.bind i k').dictPtr j = some k
  := by
  rw [dictPtr_bind, if_neg, hj]
  rintro rfl
  rw [hi] at hj
  cases hj

@[simp]
theorem ret_bind (i k j : ℕ) :
  (m.bind i k).ret j = m.ret j
  := by
  by_cases h : j = i
  · subst h
    simp [ret, bind]
  · simp [ret, bind, h]

@[simp]
theorem dictPtr_setRet (i j : ℕ) (r : ℤ) :
  (m.setRet i r).dictPtr j = m.dictPtr j
  := by
  by_cases h : j = i
  · subst h
    simp [dictPtr, setRet]
  · simp [dictPtr, setRet, h]

theorem ret_setRet (i j : ℕ) (r : ℤ) :
  (m.setRet i r).ret j = if j = i then r else m.ret j
  := by
  by_cases h : j = i <;> simp [ret, setRet, h]

theorem bthreads_setBthread (i j : ℕ) (b : Bthread) :
  (m.setBthread i b).bthreads j = if j = i then b else m.bthreads j
  := by
  simp [setBthread, Function.update_apply]

end Manager

variable {o : Outcomes} {handlers : List (Option (String × String))} {m m' : Manager}

/-- The handler at position `k` has a path and its creator returns an instance, so that
`parallel_sync_load` gives it a slot. -/
def Startable (o : Outcomes) (handlers : List (Option (String × String))) (k : ℕ) : Prop :=
  ∃ h, handlers[k]? = some (some h) ∧ h.2.isEmpty = false ∧ o.cfunc k = true

/-- What the slots of `load_args` say: a slot in use is bound to a handler of its own, which
has a current instance; a bthread runs only with a slot whose handler it was started for; and
a result other than 0 stands for a failure. -/
structure SlotsBound (o : Outcomes) (handlers : List (Option (String × String)))
    (m : Manager) : Prop where
  size : m.size = handlers.length
  path : ∀ k, m.path k = handlers[k]?.join.map Prod.snd
  bound : ∀ {i k}, m.dictPtr i = some k → Startable o handlers k ∧ (m.current k).isSome
  inj : ∀ {i j k}, m.dictPtr i = some k → m.dictPtr j = some k → i = j
  started : ∀ {i}, m.bthreads i ≠ .unstarted → ∃ k, m.dictPtr i = some k ∧ o.start k = 0
  failed : ∀ {i}, m.ret i ≠ 0 → ∃ k, m.dictPtr i = some k ∧ (o.start k ≠ 0 ∨ o.load k = false)

/-! ### The loaders -/

/-- The bthread of the slot `j` runs, for the handler at position `k`. -/
def LoadsAt (m : Manager) (j k : ℕ) : Prop :=
  m.bthreads j = .running ∧ m.dictPtr j = some k

/-- What `load_dict_by_thread` returns for the handler at position `k`. -/
def ResultOf (o : Outcomes) (k : ℕ) (r : ℤ) : Prop :=
  r = if o.load k then 0 else -1

/-- What `load_dict_by_thread` may rely on where it stands. -/
def LoaderPc.Knows (o : Outcomes) (j : ℕ) (m : Manager) : LoaderPc → Prop
  | .waiting => m.bthreads j ≠ .finished
  | .indexed k i => LoadsAt m j k ∧ m.curIndex k = some i
  | .timing k _ => LoadsAt m j k
  | .stamping k _ _ => LoadsAt m j k
  | .loading k _ => LoadsAt m j k
  | .writing r => ∃ k, LoadsAt m j k ∧ ResultOf o k r
  | .ending r => ∃ k, LoadsAt m j k ∧ ResultOf o k r
  | .ended r => m.bthreads j = .finished ∧ ∃ k, m.dictPtr j = some k ∧ ResultOf o k r

/-- What a loader knows depends on its slot, its bthread and the indexes only. -/
theorem LoaderPc.Knows.congr {j : ℕ} {pc : LoaderPc} (h : pc.Knows o j m)
    (hb : m'.bthreads j = m.bthreads j)
    (hd : ∀ k, m.dictPtr j = some k → m'.dictPtr j = some k) (hc : m'.curIndex = m.curIndex) :
  pc.Knows o j m'
  := by
  have hat : ∀ k, LoadsAt m j k → LoadsAt m' j k := by
    rintro k ⟨hrun, hk⟩
    exact ⟨hb.trans hrun, hd k hk⟩
  cases pc with
  | waiting =>
      rw [Knows, hb]
      apply h
  | indexed k i =>
      use hat k h.1
      rw [hc]
      apply h.2
  | timing k d => apply hat k h
  | stamping k d t => apply hat k h
  | loading k d => apply hat k h
  | writing r =>
      obtain ⟨k, hk, hr⟩ := h
      use k, hat k hk
  | ending r =>
      obtain ⟨k, hk, hr⟩ := h
      use k, hat k hk
  | ended r =>
      obtain ⟨hend, k, hk, hr⟩ := h
      use hb.trans hend, k, hd k hk

/-- What a step of the loader of the slot `j` leaves as it is. -/
structure LoaderMoves (j : ℕ) (m m' : Manager) : Prop where
  size : m'.size = m.size
  checking : m'.checking = m.checking
  path : m'.path = m.path
  curIndex : m'.curIndex = m.curIndex
  current : m'.current = m.current
  dictPtr : m'.dictPtr = m.dictPtr
  ret : ∀ i, i ≠ j → m'.ret i = m.ret i
  bthreads : ∀ i, i ≠ j → m'.bthreads i = m.bthreads i

theorem LoaderMoves.refl (j : ℕ) (m : Manager) :
  LoaderMoves j m m
  := ⟨rfl, rfl, rfl, rfl, rfl, rfl, fun _ _ => rfl, fun _ _ => rfl⟩

theorem LoaderMoves.stamp (j : ℕ) (m : Manager) (k : ℕ) (t : Time) :
  LoaderMoves j m (m.stamp k t)
  := by
  refine ⟨rfl, rfl, ?_, ?_, ?_, rfl, fun _ _ => rfl, fun _ _ => rfl⟩
  · funext k'
    apply Manager.path_stamp
  · funext k'
    apply Manager.curIndex_stamp
  · funext k'
    apply Manager.current_stamp

theorem LoaderMoves.load (j : ℕ) (m : Manager) (d : ℕ) :
  LoaderMoves j m (m.load d)
  := ⟨rfl, rfl, rfl, rfl, rfl, rfl, fun _ _ => rfl, fun _ _ => rfl⟩

theorem LoaderMoves.setRet (j : ℕ) (m : Manager) (r : ℤ) :
  LoaderMoves j m (m.setRet j r)
  := by
  refine ⟨rfl, rfl, rfl, rfl, rfl, ?_, ?_, fun _ _ => rfl⟩
  · funext i
    apply Manager.dictPtr_setRet
  · intro i hi
    rw [Manager.ret_setRet, if_neg hi]

theorem LoaderMoves.setBthread (j : ℕ) (m : Manager) (b : Bthread) :
  LoaderMoves j m (m.setBthread j b)
  := by
  refine ⟨rfl, rfl, rfl, rfl, rfl, rfl, fun _ _ => rfl, ?_⟩
  intro i hi
  rw [Manager.bthreads_setBthread, if_neg hi]

/-- What the step of a loader does: it moves in its own slot only, knows what it may rely on
next, and writes a result other than 0 only after a failed `load()`. -/
structure LoaderTurn (o : Outcomes) (j : ℕ) (m m' : Manager) (pc' : LoaderPc) : Prop where
  moves : LoaderMoves j m m'
  knows : pc'.Knows o j m'
  running : m.bthreads j = .running
  begun : m'.bthreads j ≠ .unstarted
  honest : m'.ret j ≠ 0 → m.ret j ≠ 0 ∨ ∃ k, m.dictPtr j = some k ∧ o.load k = false

theorem ResultOf.load_of_ne {k : ℕ} {r : ℤ} (h : ResultOf o k r) (hr : r ≠ 0) :
  o.load k = false
  := by
  by_contra hload
  rw [Bool.not_eq_false] at hload
  apply hr
  simpa [ResultOf, hload] using h

/-- A loader whose handler is bound to its slot finds a current instance. -/
theorem SlotsBound.current_ne (h : SlotsBound o handlers m) {j k : ℕ} {x : DictHander}
    (hd : m.dictPtr j = some k) (hx : m.hander k = some x) :
  ∃ d, x.dicts x.curIndex = some d
  := by
  have hcur := (h.bound hd).2
  rw [Manager.current, hx] at hcur
  apply Option.isSome_iff_exists.mp hcur

theorem loaderStep_turn {j : ℕ} {pc pc' : LoaderPc} (hs : SlotsBound o handlers m)
    (hk : pc.Knows o j m) (h : loaderStep o j m pc = some (m', pc')) :
  LoaderTurn o j m m' pc'
  := by
  cases pc with
  | waiting =>
      simp only [loaderStep, Option.ite_none_right_eq_some] at h
      obtain ⟨hrun, h⟩ := h
      obtain ⟨k, hk', h⟩ := Option.bind_eq_some_iff.mp h
      obtain ⟨x, hx, h⟩ := Option.map_eq_some_iff.mp h
      obtain ⟨rfl, rfl⟩ := Prod.mk.inj h
      refine ⟨.refl j m, ⟨⟨hrun, hk'⟩, ?_⟩, hrun, ?_, Or.inl⟩
      · rw [Manager.curIndex, hx]
        rfl
      · simp [hrun]
  | indexed k i =>
      obtain ⟨x, hx, h⟩ := Option.map_eq_some_iff.mp h
      obtain ⟨⟨hrun, hbound⟩, hi⟩ := hk
      obtain rfl : x.curIndex = i := by
        simpa [Manager.curIndex, hx] using hi
      obtain ⟨d, hd⟩ := hs.current_ne hbound hx
      rw [hd] at h
      obtain ⟨rfl, rfl⟩ := Prod.mk.inj h
      refine ⟨.refl j m, ⟨hrun, hbound⟩, hrun, ?_, Or.inl⟩
      simp [hrun]
  | timing k d =>
      obtain ⟨rfl, rfl⟩ := Prod.mk.inj (Option.some.inj h)
      refine ⟨.refl j m, hk, hk.1, ?_, Or.inl⟩
      simp [hk.1]
  | stamping k d t =>
      obtain ⟨rfl, rfl⟩ := Prod.mk.inj (Option.some.inj h)
      refine ⟨.stamp j m k t, hk, hk.1, ?_, Or.inl⟩
      have hrun : (m.stamp k t).bthreads j = .running := hk.1
      simp [hrun]
  | loading k d =>
      obtain ⟨hrun, hbound⟩ := hk
      by_cases hload : o.load k = true
      · simp only [loaderStep, if_pos hload] at h
        obtain ⟨rfl, rfl⟩ := Prod.mk.inj (Option.some.inj h)
        refine ⟨.load j m d, ⟨k, ⟨hrun, hbound⟩, ?_⟩, hrun, ?_, Or.inl⟩
        · simp [ResultOf, hload]
        · have hrun' : (m.load d).bthreads j = .running := hrun
          simp [hrun']
      · simp only [loaderStep, if_neg hload] at h
        obtain ⟨rfl, rfl⟩ := Prod.mk.inj (Option.some.inj h)
        refine ⟨.refl j m, ⟨k, ⟨hrun, hbound⟩, ?_⟩, hrun, ?_, Or.inl⟩
        · simp [ResultOf, hload]
        · simp [hrun]
  | writing r =>
      obtain ⟨rfl, rfl⟩ := Prod.mk.inj (Option.some.inj h)
      obtain ⟨k, ⟨hrun, hbound⟩, hr⟩ := hk
      have hrun' : (m.setRet j r).bthreads j = .running := hrun
      refine ⟨.setRet j m r, ⟨k, ⟨hrun', ?_⟩, hr⟩, hrun, ?_, ?_⟩
      · rw [Manager.dictPtr_setRet, hbound]
      · simp [hrun']
      · intro hne
        right
        use k, hbound
        apply hr.load_of_ne
        simpa [Manager.ret_setRet] using hne
  | ending r =>
      obtain ⟨rfl, rfl⟩ := Prod.mk.inj (Option.some.inj h)
      obtain ⟨k, ⟨hrun, hbound⟩, hr⟩ := hk
      have hend : (m.setBthread j .finished).bthreads j = .finished := by
        simp [Manager.bthreads_setBthread]
      refine ⟨.setBthread j m .finished, ⟨hend, k, hbound, hr⟩, hrun, ?_, Or.inl⟩
      simp [hend]
  | ended r => cases h

/-- A step of a loader keeps what the slots say. -/
theorem SlotsBound.turn {j : ℕ} {pc' : LoaderPc} (h : SlotsBound o handlers m)
    (ht : LoaderTurn o j m m' pc') :
  SlotsBound o handlers m'
  := by
  have hm := ht.moves
  constructor
  · rw [hm.size]
    apply h.size
  · rw [hm.path]
    apply h.path
  · rw [hm.dictPtr, hm.current]
    exact h.bound
  · rw [hm.dictPtr]
    exact h.inj
  · intro i hi
    rw [hm.dictPtr]
    by_cases hij : i = j
    · subst hij
      apply h.started
      simp [ht.running]
    · apply h.started
      rwa [← hm.bthreads i hij]
  · intro i hi
    rw [hm.dictPtr]
    by_cases hij : i = j
    · subst hij
      rcases ht.honest hi with hne | ⟨k, hk, hload⟩
      · apply h.failed hne
      · use k, hk
        right
        apply hload
    · apply h.failed
      rwa [← hm.ret i hij]

/-! ### The starter -/

/-- The starter is past the handlers before `k`, for which it has handed out the slots before
`i`; only the slots before `n` are in use.  A slot handed out holds the failure of its start,
or its bthread has been started. -/
structure Scanned (o : Outcomes) (handlers : List (Option (String × String))) (m : Manager)
    (k i n : ℕ) : Prop where
  le : k ≤ handlers.length
  index : i ≤ k
  fresh : ∀ {j}, n ≤ j → m.dictPtr j = none ∧ m.bthreads j = .unstarted
  before : ∀ {j k'}, j < i → m.dictPtr j = some k' → k' < k
  begun : ∀ {j k'}, j < i → m.dictPtr j = some k' → o.start k' = 0 → m.bthreads j ≠ .unstarted
  kept : ∀ {j k'}, j < i → m.dictPtr j = some k' → o.start k' ≠ 0 → m.ret j = o.start k'
  all : ∀ {k'}, k' < k → Startable o handlers k' → ∃ j, j < i ∧ m.dictPtr j = some k'

variable {k i n : ℕ}

theorem Scanned.congr (h : Scanned o handlers m k i n) (hd : m'.dictPtr = m.dictPtr)
    (hb : m'.bthreads = m.bthreads) (hr : ∀ j, j < i → m'.ret j = m.ret j) :
  Scanned o handlers m' k i n
  := by
  refine ⟨h.le, h.index, ?_, ?_, ?_, ?_, ?_⟩
  · rw [hd, hb]
    exact h.fresh
  · rw [hd]
    exact h.before
  · rw [hd, hb]
    exact h.begun
  · intro j k' hj hk hne
    rw [hr j hj]
    rw [hd] at hk
    apply h.kept hj hk hne
  · rw [hd]
    exact h.all

/-- The steps of the loaders do not disturb what the starter knows of the slots. -/
theorem Scanned.turn {j : ℕ} {pc' : LoaderPc} (hs : SlotsBound o handlers m)
    (h : Scanned o handlers m k i n) (ht : LoaderTurn o j m m' pc') :
  Scanned o handlers m' k i n
  := by
  have hm := ht.moves
  refine ⟨h.le, h.index, ?_, ?_, ?_, ?_, ?_⟩
  · intro j' hj'
    have hne : j' ≠ j := by
      rintro rfl
      have hrun := ht.running
      simp [(h.fresh hj').2] at hrun
    rw [hm.dictPtr, hm.bthreads j' hne]
    apply h.fresh hj'
  · rw [hm.dictPtr]
    exact h.before
  · intro j' k' hj' hk' hstart
    by_cases hne : j' = j
    · subst hne
      apply ht.begun
    · rw [hm.bthreads j' hne]
      rw [hm.dictPtr] at hk'
      apply h.begun hj' hk' hstart
  · intro j' k' hj' hk' hstart
    rw [hm.dictPtr] at hk'
    by_cases hne : j' = j
    · subst hne
      obtain ⟨k, hk, hzero⟩ := hs.started (i := j') (by simp [ht.running])
      obtain rfl := Option.some.inj (hk.symm.trans hk')
      apply absurd hzero hstart
    · rw [hm.ret j' hne]
      apply h.kept hj' hk' hstart
  · rw [hm.dictPtr]
    exact h.all

/-- No slot is bound to the handler the starter has come to. -/
theorem Scanned.unbound (h : Scanned o handlers m k i i) (j : ℕ) :
  m.dictPtr j ≠ some k
  := by
  intro hj
  rcases Nat.lt_or_ge j i with hlt | hge
  · apply Nat.lt_irrefl k (h.before hlt hj)
  · rw [(h.fresh hge).1] at hj
    cases hj

/-- A handler that gets no slot is skipped. -/
theorem Scanned.skip (h : Scanned o handlers m k i i) (hk : k < handlers.length)
    (hskip : ¬ Startable o handlers k) :
  Scanned o handlers m (k + 1) i i
  := by
  refine ⟨hk, Nat.le_succ_of_le h.index, h.fresh, ?_, h.begun, h.kept, ?_⟩
  · intro j k' hj hk'
    apply Nat.lt_succ_of_lt (h.before hj hk')
  · intro k' hk' hstart
    rcases Nat.lt_succ_iff_lt_or_eq.mp hk' with hlt | rfl
    · apply h.all hlt hstart
    · apply absurd hstart hskip

/-- A handler whose slot is done with is passed. -/
theorem Scanned.pass (h : Scanned o handlers m k i (i + 1)) (hk : k < handlers.length)
    (hbound : m.dictPtr i = some k) (hbegun : o.start k = 0 → m.bthreads i ≠ .unstarted)
    (hkept : o.start k ≠ 0 → m.ret i = o.start k) :
  Scanned o handlers m (k + 1) (i + 1) (i + 1)
  := by
  have hlast : ∀ {j k'}, j < i + 1 → m.dictPtr j = some k' →
      (j < i ∧ k' < k) ∨ (j = i ∧ k' = k) := by
    intro j k' hj hk'
    rcases Nat.lt_succ_iff_lt_or_eq.mp hj with hlt | rfl
    · left
      use hlt, h.before hlt hk'
    · right
      use rfl
      apply Option.some.inj (hk'.symm.trans hbound)
  refine ⟨hk, Nat.succ_le_succ h.index, h.fresh, ?_, ?_, ?_, ?_⟩
  · intro j k' hj hk'
    rcases hlast hj hk' with ⟨-, hlt⟩ | ⟨-, rfl⟩
    · apply Nat.lt_succ_of_lt hlt
    · apply Nat.lt_succ_self
  · intro j k' hj hk' hstart
    rcases hlast hj hk' with ⟨hlt, -⟩ | ⟨rfl, rfl⟩
    · apply h.begun hlt hk' hstart
    · apply hbegun hstart
  · intro j k' hj hk' hstart
    rcases hlast hj hk' with ⟨hlt, -⟩ | ⟨rfl, rfl⟩
    · apply h.kept hlt hk' hstart
    · apply hkept hstart
  · intro k' hk' hstart
    rcases Nat.lt_succ_iff_lt_or_eq.mp hk' with hlt | rfl
    · obtain ⟨j, hj, hjk⟩ := h.all hlt hstart
      use j, Nat.lt_succ_of_lt hj
    · use i, Nat.lt_succ_self i

/-- The bthreads of the slots before `j` have ended, with the result 0. -/
def Joined (m : Manager) (j : ℕ) : Prop :=
  ∀ i, i < j → m.ret i = 0 ∧ m.bthreads i ≠ .running

theorem Joined.turn {j n : ℕ} {pc' : LoaderPc} (h : Joined m n) (ht : LoaderTurn o j m m' pc') :
  Joined m' n
  := by
  intro i hi
  have hne : i ≠ j := by
    rintro rfl
    apply (h i hi).2 ht.running
  rw [ht.moves.ret i hne, ht.moves.bthreads i hne]
  apply h i hi

/-- All slots handed out are those before `i`. -/
def AllScanned (o : Outcomes) (handlers : List (Option (String × String))) (m : Manager) :
    Prop :=
  ∃ i, Scanned o handlers m handlers.length i i

/-- What the starter may rely on where it stands. -/
def MainPc.Knows (o : Outcomes) (handlers : List (Option (String × String))) (m : Manager) :
    MainPc → Prop
  | .entering => Scanned o handlers m 0 0 0
  | .scanning k i => Scanned o handlers m k i i
  | .creating k i idx => Scanned o handlers m k i i ∧ m.curIndex k = some idx ∧
      ∃ h, handlers[k]? = some (some h) ∧ h.2.isEmpty = false
  | .binding k i => Scanned o handlers m k i i ∧ Startable o handlers k ∧ (m.current k).isSome
  | .spawning k i => Scanned o handlers m k i (i + 1) ∧ m.dictPtr i = some k ∧
      m.bthreads i = .unstarted
  | .assigning k i r => Scanned o handlers m k i (i + 1) ∧ m.dictPtr i = some k ∧
      r = o.start k ∧ (o.start k = 0 → m.bthreads i ≠ .unstarted)
  | .joining j => AllScanned o handlers m ∧ Joined m j
  | .testing j => AllScanned o handlers m ∧ Joined m j ∧ m.bthreads j ≠ .running
  | .loaded r => r = 0 ∧ AllScanned o handlers m ∧ Joined m handlers.length ∨
      r = -1 ∧ ∃ j, m.ret j ≠ 0 ∧ m.bthreads j ≠ .running
  | .returned _ => True

theorem Startable.lt (h : Startable o handlers k) :
  k < handlers.length
  := by
  obtain ⟨x, hx, -⟩ := h
  apply (List.getElem?_eq_some_iff.mp hx).1

theorem SlotsBound.cfunc (h : SlotsBound o handlers m) (k : ℕ) :
  SlotsBound o handlers (m.cfunc k)
  := ⟨h.size, h.path, h.bound, h.inj, h.started, h.failed⟩

/-- A write to the current slot of a handler no slot is bound to. -/
theorem SlotsBound.setSlot (h : SlotsBound o handlers m) (hk : ∀ j, m.dictPtr j ≠ some k)
    (i : Fin 2) (d : Option ℕ) :
  SlotsBound o handlers (m.setSlot k i d)
  := by
  refine ⟨h.size, ?_, ?_, h.inj, h.started, h.failed⟩
  · intro k'
    rw [Manager.path_setSlot]
    apply h.path
  · intro j k' hj
    have hne : k' ≠ k := by
      rintro rfl
      apply hk j hj
    rw [Manager.current_setSlot_of_ne m hne]
    apply h.bound hj

/-- A new slot is bound to a handler that has none. -/
theorem SlotsBound.bind (h : SlotsBound o handlers m) (hk : ∀ j, m.dictPtr j ≠ some k)
    (hi : m.dictPtr i = none) (hstart : Startable o handlers k) (hcur : (m.current k).isSome) :
  SlotsBound o handlers (m.bind i k)
  := by
  have hold : ∀ {j k'}, (m.bind i k).dictPtr j = some k' →
      (j = i ∧ k' = k) ∨ (j ≠ i ∧ m.dictPtr j = some k') := by
    intro j k' hj
    rw [Manager.dictPtr_bind] at hj
    split at hj
    · next heq => exact Or.inl ⟨heq, (Option.some.inj hj).symm⟩
    · next hne => exact Or.inr ⟨hne, hj⟩
  have hnew : ∀ {j k'}, m.dictPtr j = some k' → (m.bind i k).dictPtr j = some k' :=
    fun hj => m.dictPtr_bind_of_eq_some hi hj k
  refine ⟨h.size, h.path, ?_, ?_, ?_, ?_⟩
  · intro j k' hj
    rcases hold hj with ⟨-, rfl⟩ | ⟨-, hj⟩
    · exact ⟨hstart, hcur⟩
    · apply h.bound hj
  · intro j j' k' hj hj'
    rcases hold hj with ⟨hji, hkk⟩ | ⟨-, hmj⟩ <;> rcases hold hj' with ⟨hji', hkk'⟩ | ⟨-, hmj'⟩
    · rw [hji, hji']
    · rw [hkk] at hmj'
      apply absurd hmj' (hk j')
    · rw [hkk'] at hmj
      apply absurd hmj (hk j)
    · apply h.inj hmj hmj'
  · intro j hj
    obtain ⟨k', hk', hzero⟩ := h.started hj
    use k', hnew hk'
  · intro j hj
    rw [Manager.ret_bind] at hj
    obtain ⟨k', hk', hfail⟩ := h.failed hj
    use k', hnew hk'

/-- The bthread of a slot is started for the handler the slot is bound to. -/
theorem SlotsBound.setBthread (h : SlotsBound o handlers m) (hi : m.dictPtr i = some k)
    (hstart : o.start k = 0) (b : Bthread) :
  SlotsBound o handlers (m.setBthread i b)
  := by
  refine ⟨h.size, h.path, h.bound, h.inj, ?_, h.failed⟩
  intro j hj
  by_cases hij : j = i
  · subst hij
    use k
    constructor
    · apply hi
    · apply hstart
  · rw [Manager.bthreads_setBthread, if_neg hij] at hj
    apply h.started hj

/-- The result of the start is written to the slot. -/
theorem SlotsBound.setRet (h : SlotsBound o handlers m) (hi : m.dictPtr i = some k) :
  SlotsBound o handlers (m.setRet i (o.start k))
  := by
  refine ⟨h.size, h.path, ?_, ?_, ?_, ?_⟩
  · intro j k' hj
    rw [Manager.dictPtr_setRet] at hj
    apply h.bound hj
  · intro j j' k' hj hj'
    rw [Manager.dictPtr_setRet] at hj hj'
    apply h.inj hj hj'
  · intro j hj
    rw [Manager.dictPtr_setRet]
    apply h.started hj
  · intro j hj
    rw [Manager.dictPtr_setRet]
    rw [Manager.ret_setRet] at hj
    split at hj
    · next heq =>
        subst heq
        use k, hi
        left
        apply hj
    · apply h.failed hj

/-- What the step of the starter does: it keeps what the slots say, knows what it may rely on
next, and leaves the loaders what they know. -/
structure MainTurn (o : Outcomes) (handlers : List (Option (String × String)))
    (m m' : Manager) (pc' : MainPc) : Prop where
  bound : SlotsBound o handlers m'
  knows : pc'.Knows o handlers m'
  loaders : ∀ {j} {pc : LoaderPc}, pc.Knows o j m → pc.Knows o j m'

theorem LoaderPc.Knows.setSlot {j : ℕ} {pc : LoaderPc} (h : pc.Knows o j m) (k : ℕ)
    (i : Fin 2) (d : Option ℕ) :
  pc.Knows o j (m.setSlot k i d)
  := by
  apply h.congr
  · rfl
  · intro k' hk'
    apply hk'
  · funext k'
    apply Manager.curIndex_setSlot

theorem LoaderPc.Knows.setRet {j : ℕ} {pc : LoaderPc} (h : pc.Knows o j m) (i : ℕ) (r : ℤ) :
  pc.Knows o j (m.setRet i r)
  := by
  apply h.congr
  · rfl
  · intro k hk
    rw [Manager.dictPtr_setRet, hk]
  · rfl

theorem LoaderPc.Knows.bind {j : ℕ} {pc : LoaderPc} (h : pc.Knows o j m)
    (hi : m.dictPtr i = none) (k : ℕ) :
  pc.Knows o j (m.bind i k)
  := by
  apply h.congr
  · rfl
  · intro k' hk'
    apply Manager.dictPtr_bind_of_eq_some m hi hk'
  · rfl

/-- A loader whose bthread has not begun has not moved. -/
theorem LoaderPc.Knows.eq_waiting {j : ℕ} {pc : LoaderPc} (h : pc.Knows o j m)
    (hj : m.bthreads j = .unstarted) :
  pc = .waiting
  := by
  cases pc <;> simp_all [Knows, LoadsAt]

theorem LoaderPc.Knows.start {j : ℕ} {pc : LoaderPc} (h : pc.Knows o j m)
    (hi : m.bthreads i = .unstarted) :
  pc.Knows o j (m.setBthread i .running)
  := by
  by_cases hj : j = i
  · subst hj
    obtain rfl := h.eq_waiting hi
    simp [Knows, Manager.bthreads_setBthread]
  · apply h.congr
    · rw [Manager.bthreads_setBthread, if_neg hj]
    · intro k hk
      apply hk
    · rfl

theorem Scanned.cfunc (h : Scanned o handlers m k i n) (k' : ℕ) :
  Scanned o handlers (m.cfunc k') k i n
  := by
  apply h.congr
  · rfl
  · rfl
  · intro j hj
    rfl

theorem Scanned.setSlot (h : Scanned o handlers m k i n) (k' : ℕ) (idx : Fin 2)
    (d : Option ℕ) :
  Scanned o handlers (m.setSlot k' idx d) k i n
  := by
  apply h.congr
  · rfl
  · rfl
  · intro j hj
    rfl

/-- The first slot not handed out is bound to the handler the starter has come to. -/
theorem Scanned.bind (h : Scanned o handlers m k i i) :
  Scanned o handlers (m.bind i k) k i (i + 1)
  := by
  have hback : ∀ {j k'}, j < i → (m.bind i k).dictPtr j = some k' → m.dictPtr j = some k' := by
    intro j k' hj hk'
    rwa [Manager.dictPtr_bind, if_neg (Nat.ne_of_lt hj)] at hk'
  refine ⟨h.le, h.index, ?_, ?_, ?_, ?_, ?_⟩
  · intro j hj
    rw [Manager.dictPtr_bind, if_neg (Nat.ne_of_gt hj)]
    apply h.fresh (Nat.le_of_succ_le hj)
  · intro j k' hj hk'
    apply h.before hj (hback hj hk')
  · intro j k' hj hk'
    apply h.begun hj (hback hj hk')
  · intro j k' hj hk'
    rw [Manager.ret_bind]
    apply h.kept hj (hback hj hk')
  · intro k' hk' hstart
    obtain ⟨j, hj, hjk⟩ := h.all hk' hstart
    use j, hj
    apply Manager.dictPtr_bind_of_eq_some m (h.fresh (Nat.le_refl i)).1 hjk

/-- The bthread of the slot in hand is started. -/
theorem Scanned.start (h : Scanned o handlers m k i (i + 1)) :
  Scanned o handlers (m.setBthread i .running) k i (i + 1)
  := by
  have hold : ∀ {j}, j ≠ i → (m.setBthread i .running).bthreads j = m.bthreads j := by
    intro j hj
    rw [Manager.bthreads_setBthread, if_neg hj]
  refine ⟨h.le, h.index, ?_, h.before, ?_, h.kept, h.all⟩
  · intro j hj
    rw [hold (Nat.ne_of_gt hj)]
    apply h.fresh hj
  · intro j k' hj
    rw [hold (Nat.ne_of_lt hj)]
    apply h.begun hj

/-- The result of the start is written to the slot in hand. -/
theorem Scanned.assign (h : Scanned o handlers m k i (i + 1)) (hk : k < handlers.length)
    (hbound : m.dictPtr i = some k) (hbegun : o.start k = 0 → m.bthreads i ≠ .unstarted) :
  Scanned o handlers (m.setRet i (o.start k)) (k + 1) (i + 1) (i + 1)
  := by
  have hdict : (m.setRet i (o.start k)).dictPtr = m.dictPtr := by
    funext j
    apply Manager.dictPtr_setRet
  have hset : Scanned o handlers (m.setRet i (o.start k)) k i (i + 1) := by
    apply h.congr hdict
    · rfl
    · intro j hj
      rw [Manager.ret_setRet, if_neg (Nat.ne_of_lt hj)]
  apply hset.pass hk
  · rw [hdict, hbound]
  · apply hbegun
  · intro _
    rw [Manager.ret_setRet, if_pos rfl]

/-- The starter at the head of its first loop either leaves it, skips a handler or comes to
one that has a path. -/
theorem mainStep_scanning {pc' : MainPc} (hs : SlotsBound o handlers m)
    (hscan : Scanned o handlers m k i i) (h : mainStep o m (.scanning k i) = some (m', pc')) :
  MainTurn o handlers m m' pc'
  := by
  have hpath := hs.path k
  simp only [mainStep, hs.size] at h
  split at h
  · next hle =>
      obtain ⟨rfl, rfl⟩ := Prod.mk.inj (Option.some.inj h)
      obtain rfl : k = handlers.length := Nat.le_antisymm hscan.le hle
      refine ⟨hs, ⟨⟨i, hscan⟩, ?_⟩, id⟩
      intro j hj
      apply absurd hj (Nat.not_lt_zero j)
  · next hlt =>
      rw [Nat.not_le] at hlt
      cases hx : m.hander k with
      | none =>
          rw [hx] at h
          obtain ⟨rfl, rfl⟩ := Prod.mk.inj (Option.some.inj h)
          refine ⟨hs, hscan.skip hlt ?_, id⟩
          rintro ⟨x, hxk, -⟩
          simp [Manager.path, hx, hxk] at hpath
      | some x =>
          rw [hx] at h
          obtain ⟨rfl, rfl⟩ := Prod.mk.inj (Option.some.inj h)
          refine ⟨hs, ?_, id⟩
          rw [Manager.path, hx, Option.map_some, eq_comm, Option.map_eq_some_iff] at hpath
          obtain ⟨y, hy, hyx⟩ := hpath
          rw [Option.join_eq_some_iff] at hy
          split
          · next hempty =>
              apply hscan.skip hlt
              rintro ⟨z, hz, hne, -⟩
              obtain rfl : y = z := by simpa [hy] using hz
              simp [hyx, hempty] at hne
          · next hempty =>
              refine ⟨hscan, ?_, y, hy, ?_⟩
              · rw [Manager.curIndex, hx, Option.map_some]
              · rw [hyx]
                simpa using hempty

/-- The starter calls the creator and writes what it returns to the current slot. -/
theorem mainStep_creating {pc' : MainPc} {idx : Fin 2} (hs : SlotsBound o handlers m)
    (hk : (MainPc.creating k i idx).Knows o handlers m)
    (h : mainStep o m (.creating k i idx) = some (m', pc')) :
  MainTurn o handlers m m' pc'
  := by
  obtain ⟨hscan, hidx, x, hx, hne⟩ := hk
  have hlt : k < handlers.length := (List.getElem?_eq_some_iff.mp hx).1
  simp only [mainStep] at h
  split at h
  · next hok =>
      obtain ⟨rfl, rfl⟩ := Prod.mk.inj (Option.some.inj h)
      constructor
      · apply (hs.cfunc k).setSlot hscan.unbound
      · refine ⟨(hscan.cfunc k).setSlot k idx _, ⟨x, hx, hne, hok⟩, ?_⟩
        rw [Manager.current_setSlot_self _ (by exact hidx)]
        rfl
      · intro j pc hpc
        apply LoaderPc.Knows.setSlot
        apply hpc.congr
        · rfl
        · intro k' hk'
          apply hk'
        · rfl
  · next hok =>
      obtain ⟨rfl, rfl⟩ := Prod.mk.inj (Option.some.inj h)
      constructor
      · apply hs.setSlot hscan.unbound
      · apply Scanned.setSlot
        apply hscan.skip hlt
        rintro ⟨-, -, -, hok'⟩
        apply hok hok'
      · intro j pc hpc
        apply hpc.setSlot

/-- The starter starts the bthread of the slot in hand, if it can. -/
theorem mainStep_spawning {pc' : MainPc} (hs : SlotsBound o handlers m)
    (hk : (MainPc.spawning k i).Knows o handlers m)
    (h : mainStep o m (.spawning k i) = some (m', pc')) :
  MainTurn o handlers m m' pc'
  := by
  obtain ⟨hscan, hbound, hidle⟩ := hk
  obtain ⟨rfl, rfl⟩ := Prod.mk.inj (Option.some.inj h)
  split
  · next hzero =>
      constructor
      · apply hs.setBthread hbound hzero
      · refine ⟨hscan.start, hbound, rfl, ?_⟩
        simp [Manager.bthreads_setBthread]
      · intro j pc hpc
        apply hpc.start hidle
  · next hfail =>
      refine ⟨hs, ⟨hscan, hbound, rfl, ?_⟩, id⟩
      intro hzero
      apply absurd hzero hfail

/-- The starter in its second loop. -/
theorem mainStep_joining {pc' : MainPc} {j : ℕ} (hs : SlotsBound o handlers m)
    (hk : (MainPc.joining j).Knows o handlers m)
    (h : mainStep o m (.joining j) = some (m', pc')) :
  MainTurn o handlers m m' pc'
  := by
  obtain ⟨hall, hjoin⟩ := hk
  simp only [mainStep, hs.size] at h
  split at h
  · next hle =>
      obtain ⟨rfl, rfl⟩ := Prod.mk.inj (Option.some.inj h)
      refine ⟨hs, Or.inl ⟨rfl, hall, ?_⟩, id⟩
      intro i hi
      apply hjoin i (Nat.lt_of_lt_of_le hi hle)
  · split at h
    · cases h
    · next hdone =>
        obtain ⟨rfl, rfl⟩ := Prod.mk.inj (Option.some.inj h)
        exact ⟨hs, ⟨hall, hjoin, hdone⟩, id⟩

theorem mainStep_turn {pc pc' : MainPc} (hs : SlotsBound o handlers m)
    (hk : pc.Knows o handlers m) (h : mainStep o m pc = some (m', pc')) :
  MainTurn o handlers m m' pc'
  := by
  cases pc with
  | entering =>
      obtain ⟨rfl, rfl⟩ := Prod.mk.inj (Option.some.inj h)
      refine ⟨hs, ?_, id⟩
      split
      · next hz =>
          left
          have hlen : handlers.length = 0 := by rw [← hs.size, hz]
          rw [AllScanned, hlen]
          refine ⟨rfl, ⟨0, hk⟩, ?_⟩
          intro j hj
          apply absurd hj (Nat.not_lt_zero j)
      · apply hk
  | scanning k i => apply mainStep_scanning hs hk h
  | creating k i idx => apply mainStep_creating hs hk h
  | binding k i =>
      obtain ⟨hscan, hstart, hcur⟩ := hk
      obtain ⟨rfl, rfl⟩ := Prod.mk.inj (Option.some.inj h)
      obtain ⟨hfree, hidle⟩ := hscan.fresh (Nat.le_refl i)
      constructor
      · apply hs.bind hscan.unbound hfree hstart hcur
      · refine ⟨hscan.bind, ?_, hidle⟩
        rw [Manager.dictPtr_bind, if_pos rfl]
      · intro j pc hpc
        apply hpc.bind hfree
  | spawning k i => apply mainStep_spawning hs hk h
  | assigning k i r =>
      obtain ⟨hscan, hbound, rfl, hbegun⟩ := hk
      obtain ⟨rfl, rfl⟩ := Prod.mk.inj (Option.some.inj h)
      constructor
      · apply hs.setRet hbound
      · apply hscan.assign (hs.bound hbound).1.lt hbound hbegun
      · intro j pc hpc
        apply hpc.setRet
  | joining j => apply mainStep_joining hs hk h
  | testing j =>
      obtain ⟨hall, hjoin, hdone⟩ := hk
      obtain ⟨rfl, rfl⟩ := Prod.mk.inj (Option.some.inj h)
      refine ⟨hs, ?_, id⟩
      split
      · next hne => exact Or.inr ⟨rfl, j, hne, hdone⟩
      · next hzero =>
          use hall
          intro i hi
          rcases Nat.lt_succ_iff_lt_or_eq.mp hi with hlt | rfl
          · apply hjoin i hlt
          · exact ⟨Decidable.not_not.mp hzero, hdone⟩
  | loaded r =>
      simp only [mainStep, Option.some.injEq] at h
      split at h
      · obtain ⟨rfl, rfl⟩ := Prod.mk.inj h
        refine ⟨⟨hs.size, hs.path, hs.bound, hs.inj, hs.started, hs.failed⟩, trivial, ?_⟩
        intro j pc hpc
        apply hpc.congr
        · rfl
        · intro k hk
          apply hk
        · rfl
      · obtain ⟨rfl, rfl⟩ := Prod.mk.inj h
        exact ⟨hs, trivial, id⟩
  | returned r => cases h

/-- The starter writes a result only where it assigns that of a start. -/
theorem mainStep_ret {pc pc' : MainPc} (h : mainStep o m pc = some (m', pc')) (j : ℕ)
    (hj : ∀ k r, pc ≠ .assigning k j r) :
  m'.ret j = m.ret j
  := by
  cases mainStep_move h with
  | bind => apply Manager.ret_bind
  | assign =>
      rw [Manager.ret_setRet, if_neg]
      rintro rfl
      apply hj _ _ rfl
  | _ => rfl

/-- The starter comes to assign the result of a start from the start. -/
theorem mainStep_assigning {pc : MainPc} {r : ℤ}
    (h : mainStep o m pc = some (m', .assigning k i r)) :
  pc = .spawning k i
  := by
  cases pc <;> simp only [mainStep] at h <;> grind

/-- A loader that has written a failure has just written it, or had before. -/
theorem loaderStep_wrote {j : ℕ} {pc pc' : LoaderPc}
    (h : loaderStep o j m pc = some (m', pc'))
    (hw : Local.loader pc' = .loader (.ending (-1)) ∨ Local.loader pc' = .loader (.ended (-1))) :
  pc = .writing (-1) ∧ m' = m.setRet j (-1) ∨
    pc = .ending (-1) ∧ m' = m.setBthread j .finished
  := by
  rcases hw with hw | hw <;> obtain rfl := Local.loader.inj hw
  · left
    cases pc <;> simp only [loaderStep] at h <;>
      grind [Option.bind_eq_some_iff, Option.map_eq_some_iff]
  · right
    cases pc <;> simp only [loaderStep] at h <;>
      grind [Option.bind_eq_some_iff, Option.map_eq_some_iff]

/-! ### The proof outline -/

/-- What the starter and the loaders may rely on. -/
def Local.Knows (o : Outcomes) (handlers : List (Option (String × String))) (t : Tid)
    (m : Manager) (l : Local) : Prop :=
  match t, l with
  | .main, .main pc => pc.Knows o handlers m
  | .loader j, .loader pc => pc.Knows o j m
  | .checker, .checker _ _ => True
  | .writer, .writer => True
  | _, _ => False

/-- The steps of a loader leave the others what they know. -/
theorem Local.Knows.turn {j : ℕ} {pc' : LoaderPc} {t : Tid} {l : Local}
    (hs : SlotsBound o handlers m) (ht : LoaderTurn o j m m' pc') (hne : t ≠ .loader j)
    (h : l.Knows o handlers t m) :
  l.Knows o handlers t m'
  := by
  have hm := ht.moves
  cases t with
  | main =>
      cases l with
      | main pc =>
          cases pc with
          | entering => apply Scanned.turn hs h ht
          | scanning k i => apply Scanned.turn hs h ht
          | creating k i idx =>
              obtain ⟨hscan, hidx, hx⟩ := h
              refine ⟨hscan.turn hs ht, ?_, hx⟩
              rw [hm.curIndex, hidx]
          | binding k i =>
              obtain ⟨hscan, hstart, hcur⟩ := h
              refine ⟨hscan.turn hs ht, hstart, ?_⟩
              rw [hm.current]
              apply hcur
          | spawning k i =>
              obtain ⟨hscan, hbound, hidle⟩ := h
              refine ⟨hscan.turn hs ht, ?_, ?_⟩
              · rw [hm.dictPtr, hbound]
              · rw [hm.bthreads, hidle]
                rintro rfl
                have hrun := ht.running
                simp [hidle] at hrun
          | assigning k i r =>
              obtain ⟨hscan, hbound, hr, hbegun⟩ := h
              refine ⟨hscan.turn hs ht, ?_, hr, ?_⟩
              · rw [hm.dictPtr, hbound]
              · intro hzero
                by_cases hij : i = j
                · subst hij
                  apply ht.begun
                · rw [hm.bthreads i hij]
                  apply hbegun hzero
          | joining n =>
              obtain ⟨⟨i, hscan⟩, hjoin⟩ := h
              exact ⟨⟨i, hscan.turn hs ht⟩, hjoin.turn ht⟩
          | testing n =>
              obtain ⟨⟨i, hscan⟩, hjoin, hdone⟩ := h
              refine ⟨⟨i, hscan.turn hs ht⟩, hjoin.turn ht, ?_⟩
              rw [hm.bthreads]
              · apply hdone
              · rintro rfl
                apply hdone ht.running
          | loaded r =>
              rcases h with ⟨hr, ⟨i, hscan⟩, hjoin⟩ | ⟨hr, n, hfail, hdone⟩
              · exact Or.inl ⟨hr, ⟨i, hscan.turn hs ht⟩, hjoin.turn ht⟩
              · have hnj : n ≠ j := by
                  rintro rfl
                  apply hdone ht.running
                refine Or.inr ⟨hr, n, ?_, ?_⟩
                · rw [hm.ret n hnj]
                  apply hfail
                · rw [hm.bthreads n hnj]
                  apply hdone
          | returned r => trivial
      | _ => cases h
  | loader j' =>
      have hj : j' ≠ j := by
        rintro rfl
        apply hne rfl
      cases l with
      | loader pc =>
          apply LoaderPc.Knows.congr h
          · apply hm.bthreads j' hj
          · intro k hk
            rw [hm.dictPtr, hk]
          · apply hm.curIndex
      | _ => cases h
  | checker => cases l <;> apply h
  | writer => cases l <;> apply h

/-- A new version of a file is none of the business of the starter and the loaders. -/
theorem SlotsBound.write (h : SlotsBound o handlers m) (file : String) :
  SlotsBound o handlers (m.write file)
  := ⟨h.size, h.path, h.bound, h.inj, h.started, h.failed⟩

theorem Local.Knows.write {t : Tid} {l : Local} (h : l.Knows o handlers t m) (file : String) :
  l.Knows o handlers t (m.write file)
  := by
  have hscan : ∀ {k i n}, Scanned o handlers m k i n → Scanned o handlers (m.write file) k i n := by
    intro k i n hsc
    apply hsc.congr
    · rfl
    · rfl
    · intro j hj
      rfl
  cases t with
  | main =>
      cases l with
      | main pc =>
          cases pc with
          | entering => apply hscan h
          | scanning k i => apply hscan h
          | creating k i idx => exact ⟨hscan h.1, h.2⟩
          | binding k i => exact ⟨hscan h.1, h.2⟩
          | spawning k i => exact ⟨hscan h.1, h.2⟩
          | assigning k i r => exact ⟨hscan h.1, h.2⟩
          | joining n =>
              obtain ⟨⟨i, hsc⟩, hjoin⟩ := h
              exact ⟨⟨i, hscan hsc⟩, hjoin⟩
          | testing n =>
              obtain ⟨⟨i, hsc⟩, hjoin⟩ := h
              exact ⟨⟨i, hscan hsc⟩, hjoin⟩
          | loaded r =>
              rcases h with ⟨hr, ⟨i, hsc⟩, hjoin⟩ | hfail
              · exact Or.inl ⟨hr, ⟨i, hscan hsc⟩, hjoin⟩
              · exact Or.inr hfail
          | returned r => trivial
      | _ => cases h
  | loader j =>
      cases l with
      | loader pc =>
          apply LoaderPc.Knows.congr h
          · rfl
          · intro k hk
            apply hk
          · rfl
      | _ => cases h
  | checker => cases l <;> apply h
  | writer => cases l <;> apply h

/-- The outline of the manager until the check is started. -/
def starting (o : Outcomes) (handlers : List (Option (String × String))) :
    Threads.Outline (managing o) where
  shared m := m.checking = false → SlotsBound o handlers m
  own t m l := m.checking = false → l.Knows o handlers t m
  apart _ _ := True
  symm _ := trivial
  step := by
    intro t a m l m' l' hm hl h
    have hboth : m'.checking = false → SlotsBound o handlers m' ∧ l'.Knows o handlers t m' := by
      intro hc
      have hs := hm (managing_checking h hc)
      have hk := hl (managing_checking h hc)
      rcases managing_step h with ⟨rfl, pc, pc', rfl, rfl, hstep⟩ |
        ⟨j, rfl, pc, pc', rfl, rfl, hstep⟩ | ⟨rfl, k, pc, k', pc', rfl, rfl, hstep⟩ |
        ⟨rfl, rfl, rfl, rfl⟩
      · have ht := mainStep_turn hs hk hstep
        exact ⟨ht.bound, ht.knows⟩
      · have ht := loaderStep_turn hs hk hstep
        exact ⟨hs.turn ht, ht.knows⟩
      · rw [(checkerStep_checking hstep).2] at hc
        cases hc
      · exact ⟨hs.write _, trivial⟩
    exact ⟨fun hc => (hboth hc).1, fun hc => (hboth hc).2⟩
  free := by
    intro t a m l m' l' t' k hm hl h hne hk _
    refine ⟨fun hc => ?_, trivial⟩
    have hs := hm (managing_checking h hc)
    have hown := hl (managing_checking h hc)
    have hother := hk (managing_checking h hc)
    rcases managing_step h with ⟨rfl, pc, pc', rfl, rfl, hstep⟩ |
      ⟨j, rfl, pc, pc', rfl, rfl, hstep⟩ | ⟨rfl, i, pc, i', pc', rfl, rfl, hstep⟩ |
      ⟨rfl, rfl, rfl, rfl⟩
    · have ht := mainStep_turn hs hown hstep
      cases t' with
      | main => apply absurd rfl hne
      | loader j =>
          cases k with
          | loader pc => apply ht.loaders hother
          | _ => cases hother
      | checker => cases k <;> apply hother
      | writer => cases k <;> apply hother
    · apply hother.turn hs (loaderStep_turn hs hown hstep) hne.symm
    · rw [(checkerStep_checking hstep).2] at hc
      cases hc
    · apply hother.write

theorem starting_start (o : Outcomes) (handlers : List (Option (String × String))) :
  (starting o handlers).Holds (manageStart handlers)
  := by
  constructor
  · intro _
    refine ⟨rfl, ?_, ?_, ?_, ?_, ?_⟩
    · intro k
      cases hk : handlers[k]?.join <;>
        simp [Manager.path, manageStart, hk, DictHander.registered]
    · intro i k hk
      cases hk
    · intro i j k hk
      cases hk
    · intro i hi
      apply absurd rfl hi
    · intro i hi
      apply absurd rfl hi
  · intro t _
    cases t with
    | main =>
        refine ⟨Nat.zero_le _, Nat.le_refl 0, ?_, ?_, ?_, ?_, ?_⟩
        · intro j _
          exact ⟨rfl, rfl⟩
        all_goals
          intros
          omega
    | loader j =>
        intro h
        cases h
    | checker => trivial
    | writer => trivial
  · intros
    trivial

end Dict
