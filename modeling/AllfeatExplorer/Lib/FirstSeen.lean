import Mathlib.Data.List.Induction
import Mathlib.Data.List.Nodup

/-!
# First occurrences

The loop that keeps a list of what it has seen and appends what is new.
It leaves each element of its input once, in the order of their first
occurrences.
-/

namespace AllfeatExplorer

variable {α : Type*} [DecidableEq α]

/-- Appends `a` unless it is there. -/
def pushNew (out : List α) (a : α) : List α :=
  if a ∈ out then out else out ++ [a]

/-- **The elements of a list, each once**, in the order they first occur. -/
def firstSeen (l : List α) : List α :=
  l.foldl pushNew []

variable {l : List α} {a : α}

theorem firstSeen_append_singleton : firstSeen (l ++ [a]) = pushNew (firstSeen l) a :=
  List.foldl_append

@[simp] theorem mem_pushNew {out : List α} {b : α} : b ∈ pushNew out a ↔ b ∈ out ∨ b = a := by
  unfold pushNew
  split
  · rename_i h
    constructor
    · exact Or.inl
    · rintro (hb | rfl)
      · exact hb
      · exact h
  · simp

@[simp] theorem mem_firstSeen {b : α} : b ∈ firstSeen l ↔ b ∈ l := by
  induction l using List.reverseRecOn with
  | nil => simp [firstSeen]
  | append_singleton l a ih => rw [firstSeen_append_singleton, mem_pushNew, ih]; simp

theorem nodup_firstSeen : (firstSeen l).Nodup := by
  induction l using List.reverseRecOn with
  | nil => exact List.nodup_nil
  | append_singleton l a ih =>
    rw [firstSeen_append_singleton]
    unfold pushNew
    split
    · exact ih
    · rename_i h
      refine List.nodup_append.mpr ⟨ih, List.nodup_singleton a, ?_⟩
      intro b hb c hc hbc
      rw [List.mem_singleton.mp hc] at hbc
      exact h (hbc ▸ hb)

/-- **The order is that of the first occurrences.** -/
theorem pairwise_firstSeen : (firstSeen l).Pairwise fun b c => l.idxOf b < l.idxOf c := by
  induction l using List.reverseRecOn with
  | nil => exact List.Pairwise.nil
  | append_singleton l a ih =>
    -- An old element's first occurrence is where it was.
    have hold : (firstSeen l).Pairwise fun b c => (l ++ [a]).idxOf b < (l ++ [a]).idxOf c := by
      refine ih.imp_of_mem ?_
      intro b c hb hc hbc
      rw [List.idxOf_append_of_mem (mem_firstSeen.mp hb),
        List.idxOf_append_of_mem (mem_firstSeen.mp hc)]
      exact hbc
    rw [firstSeen_append_singleton]
    unfold pushNew
    split
    · exact hold
    · rename_i hnew
      refine List.pairwise_append.mpr ⟨hold, List.pairwise_singleton _ _, ?_⟩
      intro b hb c hc
      obtain rfl := List.mem_singleton.mp hc
      rw [mem_firstSeen] at hnew hb
      rw [List.idxOf_append_of_mem hb, List.idxOf_append_of_notMem hnew]
      have hlt := List.idxOf_lt_length_of_mem hb
      omega

end AllfeatExplorer
