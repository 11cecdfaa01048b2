import Mathlib.Data.Option.Basic

/-!
# A recursive mutex

`std::recursive_mutex`: free, or held by one thread some number of times. The number stored is one
less than the number of times, so that a held mutex always has an owner and a positive depth.
-/

namespace Aveo.Lib

/-- A recursive mutex over threads `τ`: its owner and how many times beyond the first it locked. -/
abbrev RecMutex (τ : Type) := Option (τ × Nat)

namespace RecMutex

variable {τ : Type}

def free : RecMutex τ := none

/-- How many times the thread holds the mutex. -/
def depth [DecidableEq τ] (m : RecMutex τ) (t : τ) : Nat :=
  match m with
  | none => 0
  | some (o, k) => if o = t then k + 1 else 0

/-- `try_lock`: succeeds unless another thread is the owner. A blocking `lock` is the same step,
taken when it succeeds. -/
def tryLock [DecidableEq τ] (m : RecMutex τ) (t : τ) : Option (RecMutex τ) :=
  match m with
  | none => some (some (t, 0))
  | some (o, k) => if o = t then some (some (t, k + 1)) else none

/-- `unlock` by the owner; it has no meaning for another thread. -/
def unlock [DecidableEq τ] (m : RecMutex τ) (t : τ) : Option (RecMutex τ) :=
  match m with
  | none => none
  | some (o, k) => if o = t then some (if k = 0 then none else some (t, k - 1)) else none

variable [DecidableEq τ] {m m' : RecMutex τ} {t u : τ}

@[simp] theorem depth_none : depth (none : RecMutex τ) t = 0 := rfl

@[simp] theorem depth_free : (free : RecMutex τ).depth t = 0 := rfl

theorem depth_tryLock (h : m.tryLock t = some m') : m'.depth t = m.depth t + 1 := by
  rcases m with _ | ⟨o, k⟩
  · cases Option.some.inj h
    simp [depth]
  · by_cases ho : o = t
    · subst ho
      simp only [tryLock, if_true, Option.some.injEq] at h
      subst h
      simp [depth]
    · simp [tryLock, ho] at h

theorem depth_tryLock_ne (h : m.tryLock t = some m') (hne : u ≠ t) : m'.depth u = m.depth u := by
  rcases m with _ | ⟨o, k⟩
  · cases Option.some.inj h
    simp [depth, hne.symm]
  · by_cases ho : o = t
    · subst ho
      simp only [tryLock, if_true, Option.some.injEq] at h
      subst h
      simp [depth, hne.symm]
    · simp [tryLock, ho] at h

theorem depth_unlock (h : m.unlock t = some m') : m.depth t = m'.depth t + 1 := by
  rcases m with _ | ⟨o, k⟩
  · cases h
  · by_cases ho : o = t
    · subst ho
      simp only [unlock, if_true, Option.some.injEq] at h
      subst h
      rcases Nat.eq_zero_or_pos k with hk | hk
      · simp [hk, depth]
      · simp only [Nat.ne_of_gt hk, if_false, depth, if_true]
        omega
    · simp [unlock, ho] at h

theorem depth_unlock_ne (h : m.unlock t = some m') (hne : u ≠ t) : m'.depth u = m.depth u := by
  rcases m with _ | ⟨o, k⟩
  · cases h
  · by_cases ho : o = t
    · subst ho
      simp only [unlock, if_true, Option.some.injEq] at h
      subst h
      by_cases hk : k = 0
      · simp [hk, depth, hne.symm]
      · simp [hk, depth, hne.symm]
    · simp [unlock, ho] at h

/-- The last `unlock` frees the mutex. -/
theorem unlock_of_depth_eq_one (h : m.depth t = 1) : m.unlock t = some none := by
  rcases m with _ | ⟨o, k⟩
  · cases h
  · by_cases ho : o = t
    · simp only [depth, if_pos ho, Nat.add_eq_right] at h
      simp only [unlock, if_pos ho, if_pos h]
    · simp [depth, ho] at h

/-- At most one thread holds the mutex. -/
theorem owner_unique (ht : 0 < m.depth t) (hu : 0 < m.depth u) : t = u := by
  rcases m with _ | ⟨o, k⟩
  · simp at ht
  · simp only [depth] at ht hu
    split at ht
    · split at hu
      · rename_i ho hu'
        exact ho.symm.trans hu'
      · omega
    · omega

/-- A thread can lock only if no other thread holds the mutex. -/
theorem depth_pos_of_tryLock {v : τ} (hlock : m.tryLock t = some m') (hv : 0 < m.depth v) : v = t := by
  by_contra hne
  rw [← depth_tryLock_ne hlock hne] at hv
  have ht : 0 < m'.depth t := by
    rw [depth_tryLock hlock]
    exact Nat.succ_pos _
  exact hne (owner_unique hv ht)

end RecMutex

end Aveo.Lib
