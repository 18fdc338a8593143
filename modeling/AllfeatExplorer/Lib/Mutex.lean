import Mathlib.Logic.Function.Basic

/-!
# A lock and who holds it

A lock names the task that holds it, and each task knows on its own
whether it does. The two agree; a task that takes a free lock, releases
the lock it holds, or goes on without touching it keeps them so. At most
one task is then in any part of its code that it runs with the lock held.
-/

namespace AllfeatExplorer

namespace Mutex

variable {τ : Type*} {lock : Option τ} {holds holds' : τ → Bool} {t u : τ}

/-- **The lock names just the tasks that hold it.** -/
def Agree (lock : Option τ) (holds : τ → Bool) : Prop := ∀ t, lock = some t ↔ holds t = true

/-- **Two holders are one.** -/
theorem Agree.unique (h : Agree lock holds) (ht : holds t = true) (hu : holds u = true) :
    t = u := by
  have hlock := (h t).mpr ht
  rw [(h u).mpr hu] at hlock
  exact (Option.some.inj hlock).symm

theorem Agree.holds_eq_false (h : Agree none holds) : holds t = false := by
  rcases ht : holds t with _ | _
  · rfl
  · exact absurd ((h t).mpr ht) (by simp)

variable [DecidableEq τ]

/-- A task that goes on, and holds the lock just if it did. -/
theorem Agree.keep (h : Agree lock holds) {b : Bool} (hb : holds t = b)
    (hholds : holds' = Function.update holds t b) : Agree lock holds' := by
  have heq : holds' = holds := by rw [hholds, ← hb, Function.update_eq_self]
  exact heq ▸ h

/-- A task that takes the lock, which is free. -/
theorem Agree.take (h : Agree none holds) (hholds : holds' = Function.update holds t true) :
    Agree (some t) holds' := by
  intro u
  rw [hholds, Option.some.injEq]
  rcases eq_or_ne u t with rfl | hne
  · rw [Function.update_self]
    exact ⟨fun _ => rfl, fun _ => rfl⟩
  · rw [Function.update_of_ne hne, h.holds_eq_false]
    exact ⟨fun heq => absurd heq.symm hne, nofun⟩

/-- The task that holds the lock, and releases it. -/
theorem Agree.release (h : Agree lock holds) (ht : holds t = true)
    (hholds : holds' = Function.update holds t false) : Agree none holds' := by
  intro u
  rw [hholds]
  rcases eq_or_ne u t with rfl | hne
  · rw [Function.update_self]
    exact ⟨nofun, nofun⟩
  · rw [Function.update_of_ne hne]
    exact ⟨nofun, fun hu => absurd (h.unique hu ht) hne⟩

end Mutex

end AllfeatExplorer
