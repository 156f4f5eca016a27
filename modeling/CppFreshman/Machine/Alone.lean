import CppFreshman.Machine.Threads

/-!
# One thread alone

`T.Alone stops heads i s l k s' l'` says that the thread `i`, while all others are suspended,
goes from the shared state `s` and its local state `l` to `s'` and `l'`, where it stops for the
first time, and is at the head of a loop `k` times before that.  If the steps of the thread do not
depend on the choices, this is the only way the thread can go alone (`Alone.unique`).
-/

universe u v w x

namespace Threads

variable {ι : Type u} {σ : Type v} {ℓ : Type w} {α : Type x}

/-- The thread `i` takes steps from `s` and `l` until it stops in `s'` and `l'`; `k` of its local
states before that are `heads`. -/
inductive Alone (T : Threads ι σ ℓ α) (stops heads : ℓ → Bool) (i : ι) :
    σ → ℓ → ℕ → σ → ℓ → Prop
  | stop {s : σ} {l : ℓ} (h : stops l = true) : Alone T stops heads i s l 0 s l
  | step {s s' s'' : σ} {l l' l'' : ℓ} {a : α} {k : ℕ} (going : stops l = false)
      (h : T.step i a s l = some (s', l')) (rest : Alone T stops heads i s' l' k s'' l'') :
      Alone T stops heads i s l (k + (heads l).toNat) s'' l''

variable {T : Threads ι σ ℓ α} {stops heads : ℓ → Bool} {i : ι} {s s' s'' : σ}
  {l l' l'' : ℓ} {a : α} {k k' : ℕ}

/-- A step at the head of a loop. -/
theorem Alone.head (going : stops l = false) (hhead : heads l = true)
    (hstep : T.step i a s l = some (s', l')) (rest : T.Alone stops heads i s' l' k s'' l'') :
  T.Alone stops heads i s l (k + 1) s'' l''
  := by
  have h := Alone.step going hstep rest
  rw [hhead] at h
  apply h

/-- Any other step. -/
theorem Alone.pass (going : stops l = false) (hhead : heads l = false)
    (hstep : T.step i a s l = some (s', l')) (rest : T.Alone stops heads i s' l' k s'' l'') :
  T.Alone stops heads i s l k s'' l''
  := by
  have h := Alone.step going hstep rest
  rw [hhead] at h
  apply h

/-- If its steps do not depend on the choices, a thread alone can go one way only. -/
theorem Alone.unique {t : σ} {m : ℓ} (h : T.Alone stops heads i s l k s' l')
    (hchoice : ∀ a a' s l, stops l = false → T.step i a s l = T.step i a' s l)
    (h' : T.Alone stops heads i s l k' t m) :
  k = k' ∧ s' = t ∧ l' = m
  := by
  induction h generalizing k' with
  | stop hstop =>
      cases h' with
      | stop _ => exact ⟨rfl, rfl, rfl⟩
      | step going _ _ => cases hstop.symm.trans going
  | @step _ _ _ _ _ _ a _ going hstep _ ih =>
      cases h' with
      | stop hstop => cases hstop.symm.trans going
      | @step _ _ _ _ _ _ a' _ _ hstep' rest' =>
          rw [hchoice a a' _ _ going] at hstep
          obtain ⟨rfl, rfl⟩ := Prod.mk.inj (Option.some.inj (hstep.symm.trans hstep'))
          obtain ⟨rfl, heq⟩ := ih rest'
          exact ⟨rfl, heq⟩

variable [DecidableEq ι]

theorem Config.set_set (c : Config ι σ ℓ) (i : ι) (s s' : σ) (l l' : ℓ) :
  (c.set i s l).set i s' l' = c.set i s' l'
  := by
  rw [Config.set, Config.set, Function.update_idem]
  rfl

theorem Config.set_self (c : Config ι σ ℓ) (i : ι) :
  c.set i c.shared (c.locals i) = c
  := by
  rw [Config.set, Function.update_eq_self]

end Threads
