import CppFreshman.Dict.Check
import CppFreshman.Machine.Threads

/-!
# The dictionary manager

The threads of `DictManager`: the one that calls `run`, which loads all dictionaries through
`parallel_sync_load` and then starts the reload check; the bthreads that run
`load_dict_by_thread`, one for each slot of `load_args` handed out; the thread that runs
`check`; and a writer that stands for whoever replaces the files.  Every access to a handler,
to a slot of `load_args`, to a bthread or to a file is one step.

`Outcomes` holds what the calls made at start-up return: the creators, the starts of the
bthreads, the first `load()` of each dictionary and the start of the check; and the times at
which the versions of each file were written.  What `init()` returns is not used at start-up.
-/

namespace Dict

/-- What the calls at start-up return, by the position of the handler they are made for, and
the write time of each version of each file, if the file exists in that version. -/
structure Outcomes where
  cfunc : ℕ → Bool
  start : ℕ → ℤ
  load : ℕ → Bool
  thread : Bool
  files : String → ℕ → Option Time

/-- `get_file_last_mtime` of a file in its version `v`. -/
def Outcomes.mtime (o : Outcomes) (file : String) (v : ℕ) : Time :=
  getFileLastMtime file (o.files file v)

/-- `DictLoadArg`.  The bthread started with a slot is named by the slot, so `id` is not
kept. -/
structure DictLoadArg where
  dictPtr : Option ℕ
  ret : ℤ

/-- A bthread before its start, while it runs and after its end. -/
inductive Bthread where
  | unstarted
  | running
  | finished
  deriving DecidableEq

/-- The handlers of `dict_hander_vect` (a position may hold a null pointer), the instances, the
slots of `load_args` with their bthreads, whether the check was started, and the current
version of each file. -/
structure Manager where
  size : ℕ
  hander : ℕ → Option DictHander
  instances : ℕ → DictBase
  made : ℕ
  loadArgs : ℕ → DictLoadArg
  bthreads : ℕ → Bthread
  checking : Bool
  version : String → ℕ

namespace Manager

/-- A change of the handler at position `k`. -/
def modifyHander (m : Manager) (k : ℕ) (f : DictHander → DictHander) : Manager :=
  { m with hander := Function.update m.hander k ((m.hander k).map f) }

/-- `dicts[i] = d` in the handler at position `k`. -/
def setSlot (m : Manager) (k : ℕ) (i : Fin 2) (d : Option ℕ) : Manager :=
  m.modifyHander k fun h => { h with dicts := Function.update h.dicts i d }

/-- `cfunc()` of the handler at position `k`, which builds an instance numbered `m.made`. -/
def cfunc (m : Manager) (k : ℕ) : Manager :=
  { m with
    instances := Function.update m.instances m.made
      ⟨((m.hander k).map DictHander.dictFilePath).getD "", none⟩
    made := m.made + 1 }

/-- `args.dict_ptr = info` in the slot `i`, for the handler at position `k`. -/
def bind (m : Manager) (i k : ℕ) : Manager :=
  { m with loadArgs := Function.update m.loadArgs i { m.loadArgs i with dictPtr := some k } }

/-- `args.ret = r` in the slot `i`. -/
def setRet (m : Manager) (i : ℕ) (r : ℤ) : Manager :=
  { m with loadArgs := Function.update m.loadArgs i { m.loadArgs i with ret := r } }

/-- The bthread of the slot `i` is in the state `b`. -/
def setBthread (m : Manager) (i : ℕ) (b : Bthread) : Manager :=
  { m with bthreads := Function.update m.bthreads i b }

/-- `modify_time = t` in the handler at position `k`. -/
def stamp (m : Manager) (k : ℕ) (t : Time) : Manager :=
  m.modifyHander k fun h => { h with modifyTime := t }

/-- `load()` of `d` returns true, having read the current version of its file. -/
def load (m : Manager) (d : ℕ) : Manager :=
  { m with
    instances := Function.update m.instances d
      { m.instances d with loadedFrom := some (m.version (m.instances d).curFile) } }

/-- The handler `h` of the manager as a pass of the check sees it. -/
def memory (m : Manager) (h : DictHander) : Memory :=
  ⟨m.instances, m.made, h⟩

/-- The manager with what a pass made of the handler at position `k`. -/
def putMemory (m : Manager) (k : ℕ) (mem : Memory) : Manager :=
  { m with
    instances := mem.instances
    made := mem.made
    hander := Function.update m.hander k (some mem.hander) }

/-- A new version of a file. -/
def write (m : Manager) (file : String) : Manager :=
  { m with version := Function.update m.version file (m.version file + 1) }

end Manager

/-- Where the thread that calls `run` stands: in the loop of `parallel_sync_load` over the
handlers (`k` is the position, `i` the value of `index`), in its loop over `load_args`, with
the value it returned, or with the value `run` returned. -/
inductive MainPc where
  | entering
  | scanning (k i : ℕ)
  | creating (k i : ℕ) (idx : Fin 2)
  | binding (k i : ℕ)
  | spawning (k i : ℕ)
  | assigning (k i : ℕ) (r : ℤ)
  | joining (j : ℕ)
  | testing (j : ℕ)
  | loaded (r : ℤ)
  | returned (r : ℤ)
  deriving DecidableEq

/-- The next step of `run`.  The value of `parallel_sync_load` is not used after `loaded`. -/
def mainStep (o : Outcomes) (m : Manager) : MainPc → Option (Manager × MainPc)
  | .entering => some (m, if m.size = 0 then .loaded 0 else .scanning 0 0)
  | .scanning k i =>
      if m.size ≤ k then some (m, .joining 0)
      else
        match m.hander k with
        | none => some (m, .scanning (k + 1) i)
        | some h =>
            some (m, if h.dictFilePath.isEmpty then .scanning (k + 1) i
              else .creating k i h.curIndex)
  | .creating k i idx =>
      if o.cfunc k then some ((m.cfunc k).setSlot k idx (some m.made), .binding k i)
      else some (m.setSlot k idx none, .scanning (k + 1) i)
  | .binding k i => some (m.bind i k, .spawning k i)
  | .spawning k i =>
      some (if o.start k = 0 then m.setBthread i .running else m, .assigning k i (o.start k))
  | .assigning k i r => some (m.setRet i r, .scanning (k + 1) (i + 1))
  | .joining j =>
      if m.size ≤ j then some (m, .loaded 0)
      else if m.bthreads j = .running then none
      else some (m, .testing j)
  | .testing j => some (m, if (m.loadArgs j).ret ≠ 0 then .loaded (-1) else .joining (j + 1))
  | .loaded _ =>
      some (if o.thread then ({ m with checking := true }, .returned 0) else (m, .returned (-1)))
  | .returned _ => none

/-- Where `load_dict_by_thread` stands: not begun, with the handler and the index it read, with
the instance it copied, or with the result it writes. -/
inductive LoaderPc where
  | waiting
  | indexed (k : ℕ) (i : Fin 2)
  | timing (k d : ℕ)
  | stamping (k d : ℕ) (t : Time)
  | loading (k d : ℕ)
  | writing (r : ℤ)
  | ending (r : ℤ)
  | ended (r : ℤ)
  deriving DecidableEq

/-- The next step of `load_dict_by_thread` with the slot `j`. -/
def loaderStep (o : Outcomes) (j : ℕ) (m : Manager) : LoaderPc → Option (Manager × LoaderPc)
  | .waiting =>
      if m.bthreads j = .running then
        (m.loadArgs j).dictPtr.bind fun k =>
          (m.hander k).map fun h => (m, .indexed k h.curIndex)
      else none
  | .indexed k i =>
      (m.hander k).map fun h =>
        (m, match h.dicts i with
          | none => .writing (-1)
          | some d => .timing k d)
  | .timing k d =>
      some (m, .stamping k d
        (o.mtime (m.instances d).curFile (m.version (m.instances d).curFile)))
  | .stamping k d t => some (m.stamp k t, .loading k d)
  | .loading k d => some (if o.load k then (m.load d, .writing 0) else (m, .writing (-1)))
  | .writing r => some (m.setRet j r, .ending r)
  | .ending r => some (m.setBthread j .finished, .ended r)
  | .ended _ => none

/-- What is left open in a step: the clock and the outcome of a reload, for the check, and the
file that changes, for the writer. -/
structure Choice where
  now : Time
  init : Bool
  load : Bool
  finish : Time
  file : String

/-- What a pass of the check meets in the manager `m`. -/
def Manager.pass (o : Outcomes) (m : Manager) (a : Choice) : Pass where
  now := a.now
  mtime file := o.mtime file (m.version file)
  version := m.version
  init := a.init
  load := a.load
  finish := a.finish

/-- The position of the check after a step of its pass over the handler at `k`. -/
def nextCheck (k : ℕ) : CheckPc → ℕ × CheckPc
  | .top => (k + 1, .top)
  | pc => (k, pc)

/-- The next step of `check`, in its pass over the handler at position `k`. -/
def checkerStep (o : Outcomes) (a : Choice) (m : Manager) (k : ℕ) (pc : CheckPc) :
    Option (Manager × ℕ × CheckPc) :=
  if m.checking then
    if m.size ≤ k then some (m, 0, .top)
    else
      match m.hander k with
      | none => some (m, k + 1, .top)
      | some h =>
          let r := checkStep (m.pass o a) (m.memory h) pc
          some (m.putMemory k r.1, nextCheck k r.2)
  else none

/-- The threads of the manager. -/
inductive Tid where
  | main
  | loader (j : ℕ)
  | checker
  | writer
  deriving DecidableEq

/-- The local state of a thread. -/
inductive Local where
  | main (pc : MainPc)
  | loader (pc : LoaderPc)
  | checker (k : ℕ) (pc : CheckPc)
  | writer
  deriving DecidableEq

/-- The threads of the manager and the writer of the files. -/
def managing (o : Outcomes) : Threads Tid Manager Local Choice where
  step t a m l :=
    match t, l with
    | .main, .main pc => (mainStep o m pc).map fun r => (r.1, .main r.2)
    | .loader j, .loader pc => (loaderStep o j m pc).map fun r => (r.1, .loader r.2)
    | .checker, .checker k pc =>
        (checkerStep o a m k pc).map fun r => (r.1, .checker r.2.1 r.2.2)
    | .writer, .writer => some (m.write a.file, .writer)
    | _, _ => none

/-- A step of the manager is a step of the starter, of a loader, of the check or of the
writer. -/
theorem managing_step {o : Outcomes} {t : Tid} {a : Choice} {m m' : Manager} {l l' : Local}
    (h : (managing o).step t a m l = some (m', l')) :
  (t = .main ∧ ∃ pc pc', l = .main pc ∧ l' = .main pc' ∧ mainStep o m pc = some (m', pc')) ∨
    (∃ j, t = .loader j ∧ ∃ pc pc', l = .loader pc ∧ l' = .loader pc' ∧
      loaderStep o j m pc = some (m', pc')) ∨
    (t = .checker ∧ ∃ k pc k' pc', l = .checker k pc ∧ l' = .checker k' pc' ∧
      checkerStep o a m k pc = some (m', k', pc')) ∨
    (t = .writer ∧ l = .writer ∧ l' = .writer ∧ m' = m.write a.file)
  := by
  cases t with
  | main =>
      left
      cases l with
      | main pc =>
          obtain ⟨⟨n, pc'⟩, hs, heq⟩ := Option.map_eq_some_iff.mp h
          obtain ⟨rfl, rfl⟩ := Prod.mk.inj heq
          exact ⟨rfl, pc, pc', rfl, rfl, hs⟩
      | _ => cases h
  | loader j =>
      right
      left
      cases l with
      | loader pc =>
          obtain ⟨⟨n, pc'⟩, hs, heq⟩ := Option.map_eq_some_iff.mp h
          obtain ⟨rfl, rfl⟩ := Prod.mk.inj heq
          exact ⟨j, rfl, pc, pc', rfl, rfl, hs⟩
      | _ => cases h
  | checker =>
      right
      right
      left
      cases l with
      | checker k pc =>
          obtain ⟨⟨n, k', pc'⟩, hs, heq⟩ := Option.map_eq_some_iff.mp h
          obtain ⟨rfl, rfl⟩ := Prod.mk.inj heq
          exact ⟨rfl, k, pc, k', pc', rfl, rfl, hs⟩
      | _ => cases h
  | writer =>
      right
      right
      right
      cases l with
      | writer =>
          obtain ⟨rfl, rfl⟩ := Prod.mk.inj (Option.some.inj h)
          exact ⟨rfl, rfl, rfl, rfl⟩
      | _ => cases h

/-- A step of the check is taken only after the check was started. -/
theorem checkerStep_checking {o : Outcomes} {a : Choice} {m : Manager} {k : ℕ} {pc : CheckPc}
    {r : Manager × ℕ × CheckPc} (h : checkerStep o a m k pc = some r) :
  m.checking = true ∧ r.1.checking = true
  := by
  rw [checkerStep, Option.ite_none_right_eq_some] at h
  obtain ⟨hc, h⟩ := h
  use hc
  split at h
  · obtain rfl := Option.some.inj h
    apply hc
  · split at h
    · obtain rfl := Option.some.inj h
      apply hc
    · obtain rfl := Option.some.inj h
      apply hc

theorem checkerStep_bthreads {o : Outcomes} {a : Choice} {m m' : Manager} {k : ℕ}
    {pc : CheckPc} {r : ℕ × CheckPc} (h : checkerStep o a m k pc = some (m', r)) :
  m'.bthreads = m.bthreads
  := by
  rw [checkerStep, Option.ite_none_right_eq_some] at h
  obtain ⟨-, h⟩ := h
  split at h
  · rw [← (Prod.mk.inj (Option.some.inj h)).1]
  · split at h <;> rw [← (Prod.mk.inj (Option.some.inj h)).1]
    rfl

/-- What a step of the starter makes of the manager. -/
inductive MainMove (o : Outcomes) (m : Manager) : MainPc → Manager → Prop where
  | stay {pc : MainPc} (h : ∀ k i r, pc ≠ .assigning k i r) : MainMove o m pc m
  | create {k i : ℕ} {idx : Fin 2} (h : o.cfunc k = true) :
      MainMove o m (.creating k i idx) ((m.cfunc k).setSlot k idx (some m.made))
  | clear {k i : ℕ} {idx : Fin 2} : MainMove o m (.creating k i idx) (m.setSlot k idx none)
  | bind {k i : ℕ} : MainMove o m (.binding k i) (m.bind i k)
  | spawn {k i : ℕ} (h : o.start k = 0) :
      MainMove o m (.spawning k i) (m.setBthread i .running)
  | assign {k i : ℕ} {r : ℤ} : MainMove o m (.assigning k i r) (m.setRet i r)
  | start {r : ℤ} : MainMove o m (.loaded r) { m with checking := true }

theorem mainStep_move {o : Outcomes} {m m' : Manager} {pc pc' : MainPc}
    (h : mainStep o m pc = some (m', pc')) :
  MainMove o m pc m'
  := by
  cases pc with
  | scanning k i =>
      rw [mainStep] at h
      split at h
      · obtain ⟨rfl, rfl⟩ := Prod.mk.inj (Option.some.inj h)
        exact .stay (by simp)
      · split at h <;> obtain ⟨rfl, rfl⟩ := Prod.mk.inj (Option.some.inj h) <;>
          exact .stay (by simp)
  | creating k i idx =>
      rw [mainStep] at h
      split at h
      · next hok =>
          obtain ⟨rfl, rfl⟩ := Prod.mk.inj (Option.some.inj h)
          apply MainMove.create hok
      · obtain ⟨rfl, rfl⟩ := Prod.mk.inj (Option.some.inj h)
        apply MainMove.clear
  | binding k i =>
      obtain ⟨rfl, rfl⟩ := Prod.mk.inj (Option.some.inj h)
      apply MainMove.bind
  | spawning k i =>
      obtain ⟨rfl, rfl⟩ := Prod.mk.inj (Option.some.inj h)
      split
      · next hzero => apply MainMove.spawn hzero
      · exact .stay (by simp)
  | assigning k i r =>
      obtain ⟨rfl, rfl⟩ := Prod.mk.inj (Option.some.inj h)
      apply MainMove.assign
  | joining j =>
      rw [mainStep] at h
      split at h
      · obtain ⟨rfl, rfl⟩ := Prod.mk.inj (Option.some.inj h)
        exact .stay (by simp)
      · split at h
        · cases h
        · obtain ⟨rfl, rfl⟩ := Prod.mk.inj (Option.some.inj h)
          exact .stay (by simp)
  | loaded r =>
      have heq := Option.some.inj h
      split at heq <;> obtain ⟨rfl, rfl⟩ := Prod.mk.inj heq
      · apply MainMove.start
      · exact .stay (by simp)
  | returned r => cases h
  | _ =>
      obtain ⟨rfl, rfl⟩ := Prod.mk.inj (Option.some.inj h)
      exact .stay (by simp)

/-- A step of the starter leaves the check as it is, unless `run` starts it and returns. -/
theorem mainStep_checking {o : Outcomes} {m m' : Manager} {pc pc' : MainPc}
    (h : mainStep o m pc = some (m', pc')) :
  m'.checking = m.checking ∨ o.thread = true ∧ (∃ r, pc = .loaded r) ∧ pc' = .returned 0 ∧
    m' = { m with checking := true }
  := by
  cases mainStep_move h with
  | @start r =>
      have heq := Option.some.inj h
      split at heq
      · next hthread =>
          right
          exact ⟨hthread, ⟨r, rfl⟩, (Prod.mk.inj heq).2.symm, rfl⟩
      · left
        rw [← (Prod.mk.inj heq).1]
  | _ =>
      left
      rfl

theorem loaderStep_checking {o : Outcomes} {j : ℕ} {m m' : Manager} {pc pc' : LoaderPc}
    (h : loaderStep o j m pc = some (m', pc')) :
  m'.checking = m.checking
  := by
  cases pc with
  | waiting =>
      simp only [loaderStep, Option.ite_none_right_eq_some] at h
      obtain ⟨k, -, h⟩ := Option.bind_eq_some_iff.mp h.2
      obtain ⟨x, -, h⟩ := Option.map_eq_some_iff.mp h
      obtain ⟨rfl, rfl⟩ := Prod.mk.inj h
      rfl
  | indexed k i =>
      obtain ⟨x, -, h⟩ := Option.map_eq_some_iff.mp h
      obtain ⟨rfl, rfl⟩ := Prod.mk.inj h
      rfl
  | loading k d =>
      rw [loaderStep] at h
      have heq := Option.some.inj h
      split at heq <;> obtain ⟨rfl, rfl⟩ := Prod.mk.inj heq <;> rfl
  | ended r => cases h
  | _ =>
      obtain ⟨rfl, rfl⟩ := Prod.mk.inj (Option.some.inj h)
      rfl

/-- Once started, the check stays started. -/
theorem managing_checking {o : Outcomes} {t : Tid} {a : Choice} {m m' : Manager} {l l' : Local}
    (h : (managing o).step t a m l = some (m', l')) (hc : m'.checking = false) :
  m.checking = false
  := by
  by_contra hne
  rw [Bool.not_eq_false] at hne
  rcases managing_step h with ⟨-, pc, pc', -, -, hs⟩ | ⟨j, -, pc, pc', -, -, hs⟩ |
    ⟨-, k, pc, k', pc', -, -, hs⟩ | ⟨-, -, -, rfl⟩
  · rcases mainStep_checking hs with heq | ⟨-, -, -, rfl⟩
    · rw [heq, hne] at hc
      cases hc
    · cases hc
  · rw [loaderStep_checking hs, hne] at hc
    cases hc
  · rw [(checkerStep_checking hs).2] at hc
    cases hc
  · have heq : m.checking = false := hc
    rw [heq] at hne
    cases hne

/-- The configurations of the manager. -/
abbrev Managing := Threads.Config Tid Manager Local

/-- The manager with the registered handlers, given by name and path, before `run`.  No
dictionary, no slot of `load_args` and no bthread is there yet. -/
def manageStart (handers : List (Option (String × String))) : Managing where
  shared :=
    { size := handers.length
      hander := fun k => handers[k]?.join.map fun h => DictHander.registered h.1 h.2
      instances := fun _ => ⟨"", none⟩
      made := 0
      loadArgs := fun _ => ⟨none, 0⟩
      bthreads := fun _ => .unstarted
      checking := false
      version := fun _ => 0 }
  locals
    | .main => .main .entering
    | .loader _ => .loader .waiting
    | .checker => .checker 0 .top
    | .writer => .writer

end Dict
