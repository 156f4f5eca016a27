import Mathlib.Algebra.Ring.Nat
import Mathlib.Data.Fin.Basic
import Mathlib.Logic.Function.Basic

/-!
# Dictionaries and their handlers

A `DictHander` holds two slots for instances of one dictionary and the index of the slot the
readers use.  An instance is a number; `Memory` is a handler together with every instance
built so far, and the operations on it are the single reads and writes of the source.
-/

namespace Dict

/-- `time_t`. -/
abbrev Time := ℤ

/-- An instance of an implementation of `DictBase`: the path `get_cur_file()` returns and the
version of that file its last successful `load()` read, if there was one. -/
structure DictBase where
  curFile : String
  loadedFrom : Option ℕ

/-- `DictManager::DictHander`.  The creator `cfunc` builds an instance for `dictFilePath`. -/
structure DictHander where
  dictName : String
  dictFilePath : String
  dicts : Fin 2 → Option ℕ
  curIndex : Fin 2
  modifyTime : Time
  loadFinishTime : Time

/-- There is a first slot. -/
scoped instance two_slots : NeZero 2 :=
  ⟨by decide⟩

/-- A handler as `register_dict` leaves it. -/
def DictHander.registered (dictName dictFilePath : String) : DictHander where
  dictName := dictName
  dictFilePath := dictFilePath
  dicts := fun _ => none
  curIndex := 0
  modifyTime := 0
  loadFinishTime := 0

/-- `get_file_last_mtime(file)`, where `written` is the time the file was last written, if it
exists.  The source adds to it what the system clock is ahead of the clock of the files; the two
are taken to be read at one instant.  (When the system clock is read first, a time of whole
seconds comes out one second less.) -/
def getFileLastMtime (file : String) (written : Option Time) : Time :=
  if file.isEmpty then 0 else written.getD 0

/-- The other slot. -/
theorem one_sub_ne (i : Fin 2) :
  1 - i ≠ i
  := by
  decide +revert

/-- A handler and the instances: `instances d` for every `d < made`. -/
structure Memory where
  instances : ℕ → DictBase
  made : ℕ
  hander : DictHander

namespace Memory

/-- `dicts[i] = d`. -/
def store (m : Memory) (i : Fin 2) (d : Option ℕ) : Memory :=
  { m with hander.dicts := Function.update m.hander.dicts i d }

/-- `cfunc()`: a new instance, numbered `m.made`. -/
def cfunc (m : Memory) : Memory :=
  { m with
    instances := Function.update m.instances m.made ⟨m.hander.dictFilePath, none⟩
    made := m.made + 1 }

/-- `load()` of `d` returns true, having read version `v` of its file. -/
def load (m : Memory) (d v : ℕ) : Memory :=
  { m with
    instances := Function.update m.instances d { m.instances d with loadedFrom := some v } }

/-- `cur_index = i`. -/
def flip (m : Memory) (i : Fin 2) : Memory :=
  { m with hander.curIndex := i }

/-- `modify_time = t`. -/
def stamp (m : Memory) (t : Time) : Memory :=
  { m with hander.modifyTime := t }

/-- `load_finish_time = t`. -/
def finish (m : Memory) (t : Time) : Memory :=
  { m with hander.loadFinishTime := t }

/-- The instance `d` exists and its `load()` returned true. -/
def Loaded (m : Memory) (d : ℕ) : Prop :=
  d < m.made ∧ (m.instances d).loadedFrom.isSome

/-- The current slot holds an instance whose `load()` returned true. -/
def Serves (m : Memory) : Prop :=
  ∃ d, m.hander.dicts m.hander.curIndex = some d ∧ m.Loaded d

variable {m : Memory}

theorem store_dicts_self (i : Fin 2) (d : Option ℕ) :
  (m.store i d).hander.dicts i = d
  := by
  apply Function.update_self

theorem store_dicts_of_ne {i j : Fin 2} (h : j ≠ i) (d : Option ℕ) :
  (m.store i d).hander.dicts j = m.hander.dicts j
  := by
  apply Function.update_of_ne h

/-- A new instance leaves the loaded ones loaded. -/
theorem Loaded.cfunc {d : ℕ} (h : m.Loaded d) :
  m.cfunc.Loaded d
  := by
  obtain ⟨hlt, hsome⟩ := h
  constructor
  · apply Nat.lt_succ_of_lt hlt
  · simpa [Memory.cfunc, Function.update_of_ne (Nat.ne_of_lt hlt)] using hsome

/-- A successful `load()` leaves the loaded ones loaded. -/
theorem Loaded.load {d : ℕ} (h : m.Loaded d) (d' v : ℕ) :
  (m.load d' v).Loaded d
  := by
  use h.1
  by_cases hd : d = d'
  · subst hd
    simp [Memory.load]
  · simpa [Memory.load, Function.update_of_ne hd] using h.2

theorem loaded_load {d : ℕ} (h : d < m.made) (v : ℕ) :
  (m.load d v).Loaded d
  := by
  use h
  simp [Memory.load]

end Memory

end Dict
