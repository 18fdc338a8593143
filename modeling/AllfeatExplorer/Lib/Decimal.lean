import Mathlib.Data.Nat.Basic
import Mathlib.Data.List.Basic

/-!
# Decimal text

Unsigned integers written and read back in decimal, and fields joined by
a separator. The reader is the one of Rust's `FromStr`: at least one
digit, a leading `+` allowed, leading zeros allowed, and a value over the
type's maximum is refused.

What was written reads back as itself, `readDec_showDec`, and a joined
text splits at the separator that joined it, `splitOnce_append`, since no
digit is a separator.
-/

namespace AllfeatExplorer

namespace Decimal

/-- An unsigned integer in decimal. -/
def showDec (n : ℕ) : List Char := Nat.toDigits 10 n

/-- Without the leading `+`. -/
def stripPlus : List Char → List Char
  | '+' :: rest => rest
  | cs => cs

/-- **`str::parse`** for an unsigned type whose greatest value is `max`. -/
def readDec (max : ℕ) (cs : List Char) : Option ℕ :=
  let digits := stripPlus cs
  if digits = [] ∨ digits.all Char.isDigit = false then none
  else
    let n := Nat.ofDigitChars 10 digits 0
    if n ≤ max then some n else none

/-- **`str::split_once`**: what stands before the first `sep`, and what
after it. -/
def splitOnce (sep : Char) : List Char → Option (List Char × List Char)
  | [] => none
  | c :: cs =>
    if c = sep then some ([], cs)
    else (splitOnce sep cs).map fun p => (c :: p.1, p.2)

/-! ## What is written reads back -/

variable {max n : ℕ} {sep : Char} {l r : List Char}

theorem isDigit_of_mem_showDec {c : Char} (h : c ∈ showDec n) : c.isDigit = true :=
  Nat.isDigit_of_mem_toDigits (by omega) (by omega) h

/-- A separator that is no digit is not in a number. -/
theorem not_mem_showDec (hsep : sep.isDigit = false) : sep ∉ showDec n := by
  intro h
  rw [isDigit_of_mem_showDec h] at hsep
  exact Bool.noConfusion hsep

theorem showDec_ne_nil : showDec n ≠ [] := Nat.toDigits_ne_nil

theorem all_isDigit_showDec : (showDec n).all Char.isDigit = true :=
  List.all_eq_true.mpr fun _ h => isDigit_of_mem_showDec h

/-- No number starts with a `+`. -/
theorem stripPlus_showDec : stripPlus (showDec n) = showDec n := by
  unfold stripPlus
  split
  · rename_i rest heq
    have hplus : '+' ∈ showDec n := by
      rw [heq]
      exact List.mem_cons_self
    exact absurd hplus (not_mem_showDec (by decide))
  · rfl

theorem ofDigitChars_showDec : Nat.ofDigitChars 10 (showDec n) 0 = n :=
  Nat.ofDigitChars_ten_toDigits

/-- **A number in range reads back as itself.** -/
theorem readDec_showDec (h : n ≤ max) : readDec max (showDec n) = some n := by
  have hbad : ¬(showDec n = [] ∨ (showDec n).all Char.isDigit = false) := by
    rw [all_isDigit_showDec]
    rintro (hnil | hfalse)
    · exact showDec_ne_nil hnil
    · exact Bool.noConfusion hfalse
  simp only [readDec, stripPlus_showDec, if_neg hbad, ofDigitChars_showDec, if_pos h]

/-- **The first separator is the one that joined the text.** -/
theorem splitOnce_append (h : sep ∉ l) : splitOnce sep (l ++ sep :: r) = some (l, r) := by
  induction l with
  | nil => simp only [splitOnce, List.nil_append, if_true]
  | cons c l ih =>
    have hc : c ≠ sep := fun heq => h (heq ▸ List.mem_cons_self)
    have hl : sep ∉ l := fun hmem => h (List.mem_cons_of_mem c hmem)
    rw [List.cons_append, splitOnce, if_neg hc, ih hl]
    rfl

end Decimal

end AllfeatExplorer
