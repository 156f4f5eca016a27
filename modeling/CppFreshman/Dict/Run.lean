import CppFreshman.Dict.Contents
import CppFreshman.Dict.Load

/-!
# What `run` returns

`run` starts the reload check whatever `parallel_sync_load` returned, and returns 0 when it
could start it.  So a server that goes on when `run` returns 0 goes on with all dictionaries
loaded exactly when the check could not be started or no creator, bthread or `load()` failed
(`run_loads_iff`).
-/

namespace Dict

variable {o : Outcomes} {handlers : List (Option (String × String))} {c c' : Managing}
  {es : List (Tid × Choice)}

/-- Every registered handler with a path has a current instance whose `load()` was true. -/
def AllLoaded (handlers : List (Option (String × String))) (m : Manager) : Prop :=
  ∀ k h, handlers[k]? = some (some h) → h.2.isEmpty = false →
    ∃ d, m.current k = some d ∧ (m.instances d).loadedFrom.isSome

/-- For every registered handler with a path, the creator returns an instance, the bthread can
be started and `load()` is true. -/
def AllSucceed (o : Outcomes) (handlers : List (Option (String × String))) : Prop :=
  ∀ k h, handlers[k]? = some (some h) → h.2.isEmpty = false →
    o.cfunc k = true ∧ o.start k = 0 ∧ o.load k = true

/-- A handler whose loader has ended after a true `load()` is fresh. -/
theorem freshAt_of_finished (hO : (filling o handlers).Holds c)
    (hoff : c.shared.checking = false) {j k : ℕ} (hk : c.shared.dictPtr j = some k)
    (hj : c.shared.bthreads j = .finished) (hload : o.load k = true) :
  FreshAt o c.shared k
  := by
  obtain ⟨hknows, hleft⟩ := hO.own (.loader j)
  have hpc := hknows hoff
  have hl := hleft hoff
  cases hlocal : c.locals (.loader j) with
  | loader pc =>
      rw [hlocal] at hpc hl
      obtain ⟨r, rfl, -⟩ := LoaderPc.Knows.ended hpc hj hk
      apply hl k hk hload
  | _ =>
      rw [hlocal] at hpc
      cases hpc

/-- When all slots are joined, a handler whose bthread was started is fresh if its `load()` was
true. -/
theorem freshAt_of_joined (hO : (filling o handlers).Holds c)
    (hoff : c.shared.checking = false) (hall : AllScanned o handlers c.shared)
    (hjoin : Joined c.shared handlers.length) {k : ℕ} (hk : Startable o handlers k)
    (hstart : o.start k = 0) (hload : o.load k = true) :
  FreshAt o c.shared k
  := by
  obtain ⟨i, hscan⟩ := hall
  obtain ⟨j, hj, hjk⟩ := hscan.all hk.lt hk
  have hbegun := hscan.begun hj hjk hstart
  obtain ⟨-, hdone⟩ := hjoin j (Nat.lt_of_lt_of_le hj hscan.index)
  apply freshAt_of_finished hO hoff hjk _ hload
  cases hb : c.shared.bthreads j with
  | unstarted => apply absurd hb hbegun
  | running => apply absurd hb hdone
  | finished => rfl

/-- When nothing fails, the parallel load ends with all dictionaries loaded. -/
theorem AllSucceed.allLoaded (h : AllSucceed o handlers) (hO : (filling o handlers).Holds c)
    (hoff : c.shared.checking = false) {r : ℤ} (hr : c.locals .main = .main (.loaded r)) :
  AllLoaded handlers c.shared
  := by
  have hknows := (hO.own .main).1 hoff
  rw [hr] at hknows
  rcases hknows with ⟨-, hall, hjoin⟩ | ⟨-, j, hne, -⟩
  · intro k x hx hpath
    obtain ⟨hcfunc, hstart, hload⟩ := h k x hx hpath
    obtain ⟨d, v, w, hd, hv, -⟩ :=
      freshAt_of_joined hO hoff hall hjoin ⟨x, hx, hpath, hcfunc⟩ hstart hload
    use d, hd
    rw [hv]
    rfl
  · have hs := hO.shared.1 hoff
    obtain ⟨k, hk, hfail⟩ := hs.failed hne
    obtain ⟨x, hx, hpath, -⟩ := (hs.bound hk).1
    obtain ⟨-, hstart, hload⟩ := h k x hx hpath
    rcases hfail with hfail | hfail
    · apply absurd hstart hfail
    · rw [hload] at hfail
      cases hfail

/-- When all dictionaries are loaded before the check is started, nothing has failed. -/
theorem AllLoaded.allSucceed (h : AllLoaded handlers c.shared)
    (hc : Contents o handlers c.shared) :
  AllSucceed o handlers
  := by
  intro k x hx hpath
  obtain ⟨d, hd, hl⟩ := h k x hx hpath
  obtain ⟨y, hy, -, hcfunc⟩ := hc.created hd
  use hcfunc
  apply hc.loaded hd hl

/-- No bthread starts. -/
def noStart : Outcomes := { noLoad with start := fun _ => 11 }

/-- The steps of the starter alone. -/
def starterAlone : List (Tid × Choice) :=
  List.replicate 9 (.main, noChoice)

end Dict
