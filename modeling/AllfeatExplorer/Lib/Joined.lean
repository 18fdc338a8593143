import Mathlib.Data.List.Basic

/-!
# Joined lists

What can be read back from a list put together of others: the places
where a separator can split it, `split_compare`, the pieces between the
separators, `intercalate_inj`, and the symbols whose codes follow one
another, `flatMap_inj`.

A list split at a separator in two ways has one of its two first parts
begin the other, so a part without the separator leaves one way only.
-/

namespace AllfeatExplorer

variable {α β : Type*} {sep : α} {a a' b b' : List α}

/-! ## Splits at a separator -/

/-- **Two splits at a separator are one, or the separator of each stands
in a part of the other.** -/
theorem split_compare (h : a ++ sep :: b = a' ++ sep :: b') :
    (a' = a ∧ b' = b) ∨ (∃ x, a' = a ++ sep :: x ∧ b = x ++ sep :: b') ∨
      ∃ x, a = a' ++ sep :: x ∧ b' = x ++ sep :: b := by
  rcases List.append_eq_append_iff.1 h with ⟨x, hx, hb⟩ | ⟨x, hx, hb⟩
  · rcases List.cons_eq_append_iff.1 hb with ⟨rfl, hrest⟩ | ⟨x', rfl, hrest⟩
    · exact Or.inl ⟨by rw [hx, List.append_nil], (List.cons.inj hrest).2⟩
    · exact Or.inr (Or.inl ⟨x', hx, hrest⟩)
  · rcases List.cons_eq_append_iff.1 hb with ⟨rfl, hrest⟩ | ⟨x', rfl, hrest⟩
    · exact Or.inl ⟨by rw [hx, List.append_nil], (List.cons.inj hrest).2.symm⟩
    · exact Or.inr (Or.inr ⟨x', hx, hrest⟩)

/-- The first separator is at or before the place of any split. -/
theorem split_first (ha : sep ∉ a) (h : a ++ sep :: b = a' ++ sep :: b') :
    (a' = a ∧ b' = b) ∨ ∃ x, a' = a ++ sep :: x ∧ b = x ++ sep :: b' := by
  rcases split_compare h with heq | hlonger | ⟨x, rfl, -⟩
  · exact Or.inl heq
  · exact Or.inr hlonger
  · exact absurd (by simp) ha

/-- The last separator splits in one way. -/
theorem split_last (hb : sep ∉ b) (hb' : sep ∉ b') (h : a ++ sep :: b = a' ++ sep :: b') :
    a' = a ∧ b' = b := by
  rcases split_compare h with heq | ⟨x, -, rfl⟩ | ⟨x, -, rfl⟩
  · exact heq
  · exact absurd (by simp) hb
  · exact absurd (by simp) hb'

/-- An element is at most the last one when no split at it leaves a rest. -/
theorem notMem_dropLast_iff : sep ∉ a.dropLast ↔ ∀ x y, a = x ++ sep :: y → y = [] := by
  constructor
  · rintro hnot x y rfl
    by_contra hne
    exact hnot (by rw [List.dropLast_append_cons, List.dropLast_cons_of_ne_nil hne]; simp)
  · intro h hmem
    obtain ⟨x, y, hxy⟩ := List.append_of_mem hmem
    have hne : a ≠ [] := by rintro rfl; simp at hmem
    have ha := List.dropLast_append_getLast hne
    rw [hxy, List.append_assoc, List.cons_append] at ha
    exact absurd (h x _ ha.symm) (by simp)

/-! ## Pieces between separators -/

/-- **The pieces between separators can be read back.** -/
theorem intercalate_inj {ps qs : List (List α)} (hp : ∀ p ∈ ps, sep ∉ p) (hq : ∀ q ∈ qs, sep ∉ q)
    (hpne : ps ≠ []) (hqne : qs ≠ []) (h : [sep].intercalate ps = [sep].intercalate qs) :
    ps = qs := by
  classical
  rw [← List.splitOn_intercalate sep hp hpne, ← List.splitOn_intercalate sep hq hqne, h]

/-- What two or more pieces make, the first apart. -/
theorem intercalate_cons {p : List α} {ps : List (List α)} (hne : ps ≠ []) :
    [sep].intercalate (p :: ps) = p ++ sep :: [sep].intercalate ps := by
  obtain ⟨q, qs, rfl⟩ := List.exists_cons_of_ne_nil hne
  simp

/-! ## Codes one after another -/

/-- **A code that can be read off the front**: `next` gives the symbol
whose code the list begins with. -/
structure ReadsNext (code : α → List β) (next : List β → Option α) : Prop where
  nil : next [] = none
  code (a : α) (rest : List β) : next (code a ++ rest) = some a

/-- **Symbols coded one after another can be read back.** -/
theorem ReadsNext.flatMap_inj {code : α → List β} {next : List β → Option α}
    (hreads : ReadsNext code next) {l l' : List α} (h : l.flatMap code = l'.flatMap code) :
    l = l' := by
  induction l generalizing l' with
  | nil =>
    cases l' with
    | nil => rfl
    | cons a l' =>
      have hnext := hreads.code a (l'.flatMap code)
      rw [← List.flatMap_cons, ← h, List.flatMap_nil, hreads.nil] at hnext
      cases hnext
  | cons a l ih =>
    cases l' with
    | nil =>
      have hnext := hreads.code a (l.flatMap code)
      rw [← List.flatMap_cons, h, List.flatMap_nil, hreads.nil] at hnext
      cases hnext
    | cons a' l' =>
      rw [List.flatMap_cons, List.flatMap_cons] at h
      have hhead : some a = some a' := by
        rw [← hreads.code a (l.flatMap code), h, hreads.code]
      obtain rfl := Option.some.inj hhead
      rw [ih (List.append_cancel_left h)]

end AllfeatExplorer
