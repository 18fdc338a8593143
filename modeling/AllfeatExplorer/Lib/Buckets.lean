import Mathlib.Logic.Function.Basic
import Mathlib.Data.List.Basic

/-!
# Buckets

A hash map from a key to the list of what was pushed under it, which is
how a flat list of rows is grouped. A key nothing was pushed under is
absent, and within a bucket the order is the order of the pushes:
`getD_ofRows` reads a bucket off the rows it was made of.
-/

namespace AllfeatExplorer

/-- `HashMap<κ, Vec<α>>`. -/
structure Buckets (κ α : Type*) where
  /-- `m.get(&k)`. -/
  get : κ → Option (List α)

namespace Buckets

variable {κ α ρ : Type*} [DecidableEq κ]

/-- `HashMap::new()`. -/
def empty : Buckets κ α := ⟨fun _ => none⟩

/-- `m.entry(k).or_default().push(a)`. -/
def push (m : Buckets κ α) (k : κ) (a : α) : Buckets κ α :=
  ⟨Function.update m.get k (some ((m.get k).getD [] ++ [a]))⟩

/-- What `m.remove(&k)` leaves. -/
def remove (m : Buckets κ α) (k : κ) : Buckets κ α := ⟨Function.update m.get k none⟩

/-- **Rows grouped by key**, in the order they come. -/
def ofRows (key : ρ → κ) (val : ρ → α) (rows : List ρ) : Buckets κ α :=
  rows.foldl (fun m r => m.push (key r) (val r)) empty

variable {m : Buckets κ α} {k k' : κ} {a : α} {key : ρ → κ} {val : ρ → α} {rows : List ρ}

theorem getD_push :
    ((m.push k a).get k').getD [] = (m.get k').getD [] ++ if k' = k then [a] else [] := by
  simp only [push]
  by_cases h : k' = k
  · subst h
    rw [Function.update_self, if_pos rfl]
    rfl
  · rw [Function.update_of_ne h, if_neg h, List.append_nil]

/-- Removing a bucket leaves the others. -/
theorem get_remove_of_ne (h : k' ≠ k) : (m.remove k).get k' = m.get k' :=
  Function.update_of_ne h _ _

theorem getD_foldl_push :
    ((rows.foldl (fun m r => m.push (key r) (val r)) m).get k).getD [] =
      (m.get k).getD [] ++ (rows.filter fun r => key r = k).map val := by
  induction rows generalizing m with
  | nil => simp
  | cons r rows ih =>
    rw [List.foldl_cons, ih, getD_push, List.append_assoc]
    congr 1
    by_cases h : k = key r
    · subst h
      simp
    · rw [if_neg h, List.filter_cons_of_neg (by simpa using Ne.symm h), List.nil_append]

/-- **A bucket holds the rows of its key**, in their order. -/
theorem getD_ofRows :
    ((ofRows key val rows).get k).getD [] = (rows.filter fun r => key r = k).map val := by
  unfold ofRows
  rw [getD_foldl_push]
  rfl

end Buckets

end AllfeatExplorer
