import Mathlib.Data.List.Induction
import Mathlib.Logic.Function.Basic

/-!
# Maps filled by writes

A hash map is the function of what it finds. Filled by a list of writes,
it keeps for each key the last one: a later write to a key replaces what
an earlier one put there.
-/

namespace AllfeatExplorer

variable {κ ν : Type*} [DecidableEq κ]

/-- The map after the writes, in order. -/
def writeAll (m : κ → Option ν) (kvs : List (κ × ν)) : κ → Option ν :=
  kvs.foldl (fun m kv => Function.update m kv.1 (some kv.2)) m

/-- A map filled from nothing. -/
def ofWrites (kvs : List (κ × ν)) : κ → Option ν := writeAll (fun _ => none) kvs

variable {m : κ → Option ν} {kvs : List (κ × ν)} {k : κ} {v : ν}

@[simp] theorem writeAll_nil : writeAll m [] = m := rfl

theorem writeAll_cons {kv : κ × ν} :
    writeAll m (kv :: kvs) = writeAll (Function.update m kv.1 (some kv.2)) kvs := rfl

theorem writeAll_append {more : List (κ × ν)} :
    writeAll m (kvs ++ more) = writeAll (writeAll m kvs) more :=
  List.foldl_append

/-- One write more. -/
theorem writeAll_concat {kv : κ × ν} :
    writeAll m (kvs ++ [kv]) = Function.update (writeAll m kvs) kv.1 (some kv.2) :=
  writeAll_append

theorem ofWrites_append {more : List (κ × ν)} :
    ofWrites (kvs ++ more) = writeAll (ofWrites kvs) more :=
  writeAll_append

/-- **What a map finds is the last write to the key.** -/
theorem ofWrites_eq_some_iff :
    ofWrites kvs k = some v ↔ ∃ pre post, kvs = pre ++ (k, v) :: post ∧ ∀ kv ∈ post, kv.1 ≠ k := by
  induction kvs using List.reverseRecOn with
  | nil => simp [ofWrites]
  | append_singleton kvs kv ih =>
    rw [ofWrites, writeAll_concat]
    by_cases hk : kv.1 = k
    · obtain ⟨k', v'⟩ := kv
      obtain rfl : k' = k := hk
      rw [Function.update_self, Option.some.injEq]
      constructor
      · rintro rfl
        exact ⟨kvs, [], rfl, by simp⟩
      · rintro ⟨pre, post, heq, hpost⟩
        rcases List.eq_nil_or_concat post with rfl | ⟨post', last, rfl⟩
        · have hlast := List.append_inj_right' heq rfl
          exact congrArg Prod.snd (List.singleton_inj.1 hlast)
        · rw [List.concat_eq_append, ← List.cons_append, ← List.append_assoc] at heq
          have hlast := List.singleton_inj.1 (List.append_inj_right' heq rfl)
          exact absurd (congrArg Prod.fst hlast).symm (hpost last (by simp))
    · rw [Function.update_of_ne (Ne.symm hk), show writeAll _ kvs k = ofWrites kvs k from rfl, ih]
      constructor
      · rintro ⟨pre, post, rfl, hpost⟩
        refine ⟨pre, post ++ [kv], by simp, fun other hother => ?_⟩
        rcases List.mem_append.1 hother with hin | hin
        · exact hpost other hin
        · rwa [List.mem_singleton.1 hin]
      · rintro ⟨pre, post, heq, hpost⟩
        rcases List.eq_nil_or_concat post with rfl | ⟨post', last, rfl⟩
        · have hlast := List.singleton_inj.1 (List.append_inj_right' heq rfl)
          exact absurd (congrArg Prod.fst hlast) hk
        · rw [List.concat_eq_append, ← List.cons_append, ← List.append_assoc] at heq
          refine ⟨pre, post', List.append_inj_left' heq rfl, fun other hother => ?_⟩
          exact hpost other (by simp [hother])

/-- Writes over a map hide it where they write. -/
theorem writeAll_eq_or : writeAll m kvs k = (ofWrites kvs k).or (m k) := by
  induction kvs using List.reverseRecOn with
  | nil => rfl
  | append_singleton kvs kv ih =>
    rw [ofWrites, writeAll_concat, writeAll_concat]
    by_cases hk : kv.1 = k
    · subst hk
      rw [Function.update_self, Function.update_self, Option.some_or]
    · rw [Function.update_of_ne (Ne.symm hk), Function.update_of_ne (Ne.symm hk), ih, ofWrites]

/-- **The keys of a map are those written.** -/
theorem ofWrites_isSome_iff : (ofWrites kvs k).isSome ↔ ∃ kv ∈ kvs, kv.1 = k := by
  induction kvs using List.reverseRecOn with
  | nil => simp [ofWrites]
  | append_singleton kvs kv ih =>
    rw [ofWrites, writeAll_concat]
    by_cases hk : kv.1 = k
    · subst hk
      rw [Function.update_self]
      exact ⟨fun _ => ⟨kv, by simp, rfl⟩, fun _ => rfl⟩
    · rw [Function.update_of_ne (Ne.symm hk), show writeAll _ kvs k = ofWrites kvs k from rfl, ih]
      simp [or_and_right, exists_or, hk]

end AllfeatExplorer
