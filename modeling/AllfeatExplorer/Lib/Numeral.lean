import Mathlib.Algebra.Order.Field.Rat
import Mathlib.Data.List.DropRight
import Mathlib.Tactic.FieldSimp
import Mathlib.Tactic.Positivity
import Mathlib.Tactic.Ring
import AllfeatExplorer.Lib.Decimal

/-!
# Grouped numerals

Decimal numerals whose whole part is parted by commas, three digits to a
group, with an optional fraction and an optional minus sign. The reader
gives the number a numeral denotes, and refuses every other text: a group
of another size, a leading zero, a fraction with a trailing zero.
-/

namespace AllfeatExplorer

namespace Decimal

/-! ## Writing -/

/-- A comma after each third digit that others follow, from the least
significant. -/
def groupRev : List Char → List Char
  | a :: b :: c :: d :: rest => a :: b :: c :: ',' :: groupRev (d :: rest)
  | cs => cs

/-- **The digits in groups of three.** -/
def group (cs : List Char) : List Char := (groupRev cs.reverse).reverse

/-- `s.padStart(n, '0')`. -/
def padZeros (n : ℕ) (cs : List Char) : List Char := List.replicate (n - cs.length) '0' ++ cs

/-- `s.replace(/0+$/, '')`. -/
def trimZeros (cs : List Char) : List Char := cs.rdropWhile fun c => c = '0'

/-! ## Reading -/

/-- The digits of a grouped text, from the least significant. -/
def ungroupRev : List Char → Option (List Char)
  | a :: b :: c :: ',' :: rest =>
    if [a, b, c].all Char.isDigit then (ungroupRev rest).map fun ds => a :: b :: c :: ds
    else none
  | cs => if cs ≠ [] ∧ cs.length ≤ 3 ∧ cs.all Char.isDigit then some cs else none

/-- The whole part of a numeral: grouped digits with no leading zero. -/
def readWhole (cs : List Char) : Option ℕ :=
  (ungroupRev cs.reverse).bind fun ds =>
    if ds.getLast? = some '0' ∧ 1 < ds.length then none
    else some (Nat.ofDigitChars 10 ds.reverse 0)

/-- What digits denote after the point. -/
def fraction (ds : List Char) : ℚ := Nat.ofDigitChars 10 ds 0 / 10 ^ ds.length

/-- The fraction of a numeral: nothing, or a point and digits with no
trailing zero. -/
def readFraction : List Char → Option ℚ
  | [] => some 0
  | c :: ds =>
    if c = '.' ∧ ds ≠ [] ∧ ds.all Char.isDigit ∧ ds.getLast? ≠ some '0' then some (fraction ds)
    else none

/-- A numeral without sign. -/
def readUnsigned (cs : List Char) : Option ℚ :=
  (readWhole (cs.takeWhile fun c => c ≠ '.')).bind fun whole =>
    (readFraction (cs.dropWhile fun c => c ≠ '.')).map fun part => whole + part

/-- **The number a numeral denotes.** -/
def readNumeral : List Char → Option ℚ
  | [] => none
  | c :: cs => if c = '-' then (readUnsigned cs).map fun v => -v else readUnsigned (c :: cs)

/-! ## The whole part -/

variable {n k : ℕ} {cs ds : List Char} {v : ℚ}

/-- **Grouping is undone.** -/
theorem ungroupRev_groupRev (hne : ds ≠ []) (hdigits : ∀ c ∈ ds, c.isDigit = true) :
    ungroupRev (groupRev ds) = some ds := by
  induction ds using groupRev.induct with
  | case1 a b c d rest ih =>
    have hrest := ih (List.cons_ne_nil _ _) fun x hx => hdigits x (by simp [List.mem_cons.mp hx])
    have habc : [a, b, c].all Char.isDigit = true := by
      simp [hdigits a (by simp), hdigits b (by simp), hdigits c (by simp)]
    rw [groupRev, ungroupRev, if_pos habc, hrest, Option.map_some]
  | case2 ds hshort =>
    have hlength : ds.length ≤ 3 := by
      rcases ds with - | ⟨a, - | ⟨b, - | ⟨c, - | ⟨d, rest⟩⟩⟩⟩
      · exact absurd rfl hne
      · simp
      · simp
      · simp
      · exact (hshort a b c d rest rfl).elim
    have hgroup : groupRev ds = ds := by
      unfold groupRev
      split
      · exact (hshort _ _ _ _ _ rfl).elim
      · rfl
    rw [hgroup]
    unfold ungroupRev
    split
    · -- Four characters are more than three.
      simp only [List.length_cons] at hlength
      omega
    · rw [if_pos ⟨hne, hlength, List.all_eq_true.mpr hdigits⟩]

/-- A number that is not zero has no leading zero. -/
theorem head_showDec (h : 0 < n) : (showDec n).head? ≠ some '0' := by
  have hdigit : ∀ m < 10, 0 < m → Nat.digitChar m ≠ '0' := by decide
  induction n using Nat.strongRecOn with
  | ind n ih =>
    by_cases hn : n < 10
    · rw [showDec, Nat.toDigits_of_lt_base hn, List.head?_cons]
      exact fun hzero => hdigit n hn h (Option.some.inj hzero)
    · have hdigits : showDec n = showDec (n / 10) ++ [Nat.digitChar (n % 10)] :=
        Nat.toDigits_of_base_le (by decide) (by omega)
      rw [hdigits, List.head?_append_of_ne_nil _ showDec_ne_nil]
      exact ih (n / 10) (by omega) (by omega)

theorem not_leadingZero : ¬ ((showDec n).head? = some '0' ∧ 1 < (showDec n).length) := by
  rintro ⟨hhead, hlength⟩
  rcases Nat.eq_zero_or_pos n with rfl | hpos
  · exact absurd hlength (by decide)
  · exact head_showDec hpos hhead

/-- **A whole part written in groups reads back as itself.** -/
theorem readWhole_group : readWhole (group (showDec n)) = some n := by
  have hne : (showDec n).reverse ≠ [] := by simpa using showDec_ne_nil
  have hdigits : ∀ c ∈ (showDec n).reverse, c.isDigit = true := fun c hc =>
    isDigit_of_mem_showDec (List.mem_reverse.mp hc)
  rw [readWhole, group, List.reverse_reverse, ungroupRev_groupRev hne hdigits, Option.bind_some,
    List.getLast?_reverse, List.length_reverse, List.reverse_reverse,
    if_neg not_leadingZero, ofDigitChars_showDec]

/-- Grouping puts in commas, and nothing else. -/
theorem not_mem_groupRev {sep : Char} (hcomma : sep ≠ ',') (h : sep ∉ ds) : sep ∉ groupRev ds := by
  induction ds using groupRev.induct with
  | case1 a b c d rest ih =>
    simp only [List.mem_cons, not_or] at h ih
    rw [groupRev]
    simp only [List.mem_cons, not_or]
    exact ⟨h.1, h.2.1, h.2.2.1, hcomma, ih h.2.2.2⟩
  | case2 ds hshort =>
    unfold groupRev
    split
    · exact (hshort _ _ _ _ _ rfl).elim
    · exact h

theorem not_mem_group {sep : Char} (hsep : sep.isDigit = false) (hcomma : sep ≠ ',') :
    sep ∉ group (showDec n) := by
  rw [group, List.mem_reverse]
  refine not_mem_groupRev hcomma ?_
  rw [List.mem_reverse]
  exact not_mem_showDec hsep

theorem group_ne_nil : group (showDec n) ≠ [] := by
  intro hnil
  have hread := readWhole_group (n := n)
  rw [hnil] at hread
  cases hread

/-! ## The fraction -/

/-- **The value of digits**, the first of them weighing most. -/
theorem ofDigitChars_append (cs ds : List Char) :
    Nat.ofDigitChars 10 (cs ++ ds) 0 =
      Nat.ofDigitChars 10 cs 0 * 10 ^ ds.length + Nat.ofDigitChars 10 ds 0 := by
  rw [Nat.ofDigitChars_append, Nat.ofDigitChars_eq_ofDigitChars_zero, Nat.mul_comm]

theorem ofDigitChars_lt (h : ∀ c ∈ ds, c.isDigit = true) :
    Nat.ofDigitChars 10 ds 0 < 10 ^ ds.length := by
  induction ds with
  | nil => simp
  | cons c ds ih =>
    have hrest := ih fun x hx => h x (List.mem_cons_of_mem c hx)
    have hc : c.toNat - '0'.toNat ≤ 9 := by
      have := h c List.mem_cons_self
      simp only [Char.isDigit, Bool.and_eq_true, decide_eq_true_eq] at this
      have hle : c.toNat ≤ 57 := this.2
      have : '0'.toNat = 48 := rfl
      omega
    rw [Nat.ofDigitChars_cons, Nat.ofDigitChars_eq_ofDigitChars_zero, List.length_cons, pow_succ]
    have hmul := Nat.mul_le_mul_left (10 ^ ds.length) hc
    rw [Nat.mul_zero, Nat.zero_add]
    omega

/-- **The first digits** are the value without the last ones. -/
theorem ofDigitChars_take (h : ∀ c ∈ ds, c.isDigit = true) (k : ℕ) :
    Nat.ofDigitChars 10 (ds.take k) 0 = Nat.ofDigitChars 10 ds 0 / 10 ^ (ds.length - k) := by
  have hsplit := ofDigitChars_append (ds.take k) (ds.drop k)
  have hdigits : ∀ c ∈ ds.drop k, c.isDigit = true := fun c hc => h c (List.mem_of_mem_drop hc)
  have hlt := ofDigitChars_lt hdigits
  rw [List.take_append_drop, List.length_drop] at hsplit
  rw [List.length_drop] at hlt
  rw [hsplit, Nat.mul_comm, Nat.mul_add_div (Nat.pow_pos (by decide)), Nat.div_eq_of_lt hlt,
    Nat.add_zero]

/-- Padding leaves the value. -/
theorem ofDigitChars_padZeros : Nat.ofDigitChars 10 (padZeros k (showDec n)) 0 = n := by
  rw [padZeros, Nat.ofDigitChars_append, Nat.ofDigitChars_replicate_zero, Nat.mul_zero,
    ofDigitChars_showDec]

theorem length_padZeros (h : (showDec n).length ≤ k) : (padZeros k (showDec n)).length = k := by
  rw [padZeros, List.length_append, List.length_replicate]
  omega

theorem isDigit_of_mem_padZeros {c : Char} (h : c ∈ padZeros k (showDec n)) :
    c.isDigit = true := by
  rcases List.mem_append.mp h with h | h
  · rw [List.eq_of_mem_replicate h]
    rfl
  · exact isDigit_of_mem_showDec h

/-- **Zeros at the end of a fraction** add nothing. -/
theorem fraction_trimZeros : fraction (trimZeros ds) = fraction ds := by
  induction ds using List.reverseRecOn with
  | nil => rfl
  | append_singleton ds c ih =>
    by_cases hc : c = '0'
    · subst hc
      have htrim : trimZeros (ds ++ ['0']) = trimZeros ds :=
        List.rdropWhile_concat_pos _ _ _ (by simp)
      rw [htrim, ih, fraction, fraction, ofDigitChars_append, List.length_append]
      have hzero : Nat.ofDigitChars 10 ['0'] 0 = 0 := rfl
      rw [hzero, List.length_singleton, Nat.add_zero, pow_succ]
      push_cast
      field_simp
      ring
    · have htrim : trimZeros (ds ++ [c]) = ds ++ [c] :=
        List.rdropWhile_concat_neg _ _ _ (by simpa using hc)
      rw [htrim]

/-- **Nothing is left of a fraction** exactly if it is zero. -/
theorem trimZeros_eq_nil_iff (h : ∀ c ∈ ds, c.isDigit = true) :
    trimZeros ds = [] ↔ fraction ds = 0 := by
  constructor
  · intro hnil
    rw [← fraction_trimZeros, hnil]
    simp [fraction]
  · intro hzero
    rw [fraction, div_eq_zero_iff] at hzero
    have hvalue : Nat.ofDigitChars 10 ds 0 = 0 := by
      rcases hzero with hzero | hpow
      · exact_mod_cast hzero
      · exact absurd hpow (by positivity)
    induction ds using List.reverseRecOn with
    | nil => rfl
    | append_singleton ds c ih =>
      rw [ofDigitChars_append] at hvalue
      have hlast : Nat.ofDigitChars 10 [c] 0 = c.toNat - '0'.toNat := by
        rw [Nat.ofDigitChars_cons, Nat.ofDigitChars_nil, Nat.mul_zero, Nat.zero_add]
      have hc : c = '0' := by
        have hdigit := h c (by simp)
        simp only [Char.isDigit, Bool.and_eq_true, decide_eq_true_eq] at hdigit
        have hge : 48 ≤ c.toNat := hdigit.1
        have hzero : '0'.toNat = 48 := rfl
        refine Char.toNat_inj.mp ?_
        omega
      subst hc
      have hfront : Nat.ofDigitChars 10 ds 0 = 0 := by
        rw [List.length_singleton] at hvalue
        omega
      have htrim : trimZeros (ds ++ ['0']) = trimZeros ds :=
        List.rdropWhile_concat_pos _ _ _ (by simp)
      rw [htrim]
      refine ih (fun c hc => h c (List.mem_append_left _ hc)) (.inl ?_) hfront
      rw [hfront, Nat.cast_zero]

theorem fraction_nonneg : 0 ≤ fraction ds := by
  unfold fraction
  positivity

/-- The fraction as it is written. -/
def pointed (ds : List Char) : List Char := if ds = [] then [] else '.' :: ds

/-- **A trimmed fraction reads back.** -/
theorem readFraction_pointed (h : ∀ c ∈ ds, c.isDigit = true) :
    readFraction (pointed (trimZeros ds)) = some (fraction ds) := by
  by_cases hnil : trimZeros ds = []
  · rw [pointed, if_pos hnil, readFraction, ← fraction_trimZeros, hnil]
    simp [fraction]
  · have hlast : (trimZeros ds).getLast? ≠ some '0' := by
      intro hzero
      have := List.rdropWhile_last_not (p := fun c => c = '0') ds hnil
      rw [List.getLast?_eq_some_getLast hnil] at hzero
      exact this (by simpa [trimZeros] using Option.some.inj hzero)
    have hdigits : (trimZeros ds).all Char.isDigit = true :=
      List.all_eq_true.mpr fun c hc => h c ((List.rdropWhile_prefix _ _).subset hc)
    rw [pointed, if_neg hnil, readFraction, if_pos ⟨rfl, hnil, hdigits, hlast⟩, fraction_trimZeros]

/-! ## Numerals -/

/-- **A numeral reads back**: its whole part and its fraction. -/
theorem readUnsigned_append (h : ∀ c ∈ ds, c.isDigit = true) :
    readUnsigned (group (showDec n) ++ pointed (trimZeros ds)) = some (n + fraction ds) := by
  have hall : ∀ c ∈ group (showDec n), decide (c ≠ '.') = true := fun c hc =>
    decide_eq_true fun heq => not_mem_group (by decide) (by decide) (heq ▸ hc)
  have hwhole : (group (showDec n) ++ pointed (trimZeros ds)).takeWhile (fun c => c ≠ '.') =
      group (showDec n) := by
    rw [List.takeWhile_append_of_pos hall]
    unfold pointed
    split <;> simp
  have hrest : (group (showDec n) ++ pointed (trimZeros ds)).dropWhile (fun c => c ≠ '.') =
      pointed (trimZeros ds) := by
    rw [List.dropWhile_append_of_pos hall]
    unfold pointed
    split <;> simp
  rw [readUnsigned, hwhole, hrest, readWhole_group, readFraction_pointed h]
  rfl

/-- The sign of a numeral, as it is written. -/
def signed (neg : Bool) (cs : List Char) : List Char := if neg then '-' :: cs else cs

/-- **A signed numeral reads back.** -/
theorem readNumeral_signed (neg : Bool) (h : ∀ c ∈ ds, c.isDigit = true) :
    readNumeral (signed neg (group (showDec n) ++ pointed (trimZeros ds))) =
      some (if neg then -(n + fraction ds) else n + fraction ds) := by
  cases neg
  · obtain ⟨c, cs, hcons⟩ := List.exists_cons_of_ne_nil (group_ne_nil (n := n))
    have hc : c ≠ '-' := by
      rintro rfl
      exact not_mem_group (n := n) (by decide) (by decide) (hcons ▸ List.mem_cons_self)
    have hread := readUnsigned_append (n := n) h
    rw [hcons, List.cons_append] at hread
    rw [signed, if_neg Bool.false_ne_true, hcons, List.cons_append, readNumeral, if_neg hc, hread]
    rfl
  · rw [signed, if_pos rfl, readNumeral, if_pos rfl, readUnsigned_append h]
    rfl

end Decimal

end AllfeatExplorer
