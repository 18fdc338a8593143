import Mathlib.Tactic.Positivity
import AllfeatExplorer.Lib.Rounding
import AllfeatExplorer.Web.Model.Format

/-!
# What an amount's text denotes

`fmtAFT` adds half a unit, divides, and cuts the digits of the remainder:
the text denotes the amount rounded half up to the unit it cuts at. The
whole part and the fraction are the two parts of one quotient, so a carry
into the whole part needs no care of its own; and the thresholds at which
the unit grows are whole numbers, which no rounding crosses.
-/

namespace AllfeatExplorer

namespace Format

open Decimal

variable {abs decimals fix : ℕ} {planck planck' : Planck} {p : ℤ} {s s' : List Char} {v v' : ℚ}

/-! ## Amounts given as integers -/

theorem digitValue_of_isDigit {c : Char} (h : c.isDigit = true) :
    digitValue c = c.toNat - '0'.toNat ∧ digitValue c < 10 := by
  have hdigit := h
  simp only [Char.isDigit, Bool.and_eq_true, decide_eq_true_eq] at hdigit
  have hle : c.toNat ≤ 57 := hdigit.2
  have hzero : '0'.toNat = 48 := rfl
  rw [digitValue, if_pos h]
  omega

/-- Decimal digits read back as the number they write. -/
theorem readRadix_showDec (n : ℕ) : readRadix 10 (showDec n) = some (n : ℤ) := by
  have hvalue : ∀ (ds : List Char) (m : ℕ), (∀ c ∈ ds, c.isDigit = true) →
      ds.foldl (fun n c => 10 * n + digitValue c) m = Nat.ofDigitChars 10 ds m := by
    intro ds
    induction ds with
    | nil => exact fun m _ => rfl
    | cons c ds ih =>
      intro m h
      rw [List.foldl_cons, Nat.ofDigitChars_cons, ih _ fun x hx => h x (List.mem_cons_of_mem c hx),
        (digitValue_of_isDigit (h c List.mem_cons_self)).1]
  have hdigits : ∀ c ∈ showDec n, c.isDigit = true := fun c hc => isDigit_of_mem_showDec hc
  have hall : (showDec n).all (fun c => digitValue c < 10) = true :=
    List.all_eq_true.mpr fun c hc => decide_eq_true (digitValue_of_isDigit (hdigits c hc)).2
  rw [readRadix, if_pos ⟨showDec_ne_nil, hall⟩, hvalue _ _ hdigits, ofDigitChars_showDec]

/-- Digits and signs are no white space and announce no radix. -/
theorem plain_of_isDigit {c : Char} (h : c.isDigit = true ∨ c = '-') :
    jsSpace c = false ∧ radixOf c = none := by
  rcases h with h | rfl
  · have hdigit := h
    simp only [Char.isDigit, Bool.and_eq_true, decide_eq_true_eq] at hdigit
    have hge : 48 ≤ c.toNat := hdigit.1
    have hle : c.toNat ≤ 57 := hdigit.2
    have hne (x : Char) (hx : x.isDigit = false) : c ≠ x := by
      rintro rfl
      exact Bool.noConfusion (hx.symm.trans h)
    constructor
    · simp only [jsSpace, List.mem_cons, List.not_mem_nil, or_false, Bool.or_eq_false_iff,
        Bool.and_eq_false_iff, decide_eq_false_iff_not]
      omega
    · rw [radixOf, if_neg (not_or.mpr ⟨hne _ rfl, hne _ rfl⟩),
        if_neg (not_or.mpr ⟨hne _ rfl, hne _ rfl⟩), if_neg (not_or.mpr ⟨hne _ rfl, hne _ rfl⟩)]
  · decide

/-- A literal without a prefix is a signed one. -/
theorem readLiteral_of_plain (h : ∀ c ∈ s, radixOf c = none) : readLiteral s = readSigned s := by
  rcases s with - | ⟨c, - | ⟨x, ds⟩⟩
  · rfl
  · rfl
  · simp only [readLiteral, h x (by simp)]

/-- An integer as its decimal text. -/
def integerText (p : ℤ) : List Char := signed (decide (p < 0)) (showDec p.natAbs)

theorem plain_integerText {c : Char} (h : c ∈ integerText p) : c.isDigit = true ∨ c = '-' := by
  rw [integerText, signed] at h
  split at h
  · rcases List.mem_cons.mp h with rfl | h
    · exact .inr rfl
    · exact .inl (isDigit_of_mem_showDec h)
  · exact .inl (isDigit_of_mem_showDec h)

theorem readSigned_integerText (p : ℤ) : readSigned (integerText p) = some p := by
  rw [integerText, signed]
  by_cases hneg : p < 0
  · rw [if_pos (decide_eq_true hneg), readSigned, if_pos rfl, readRadix_showDec, Option.map_some]
    congr 1
    omega
  · rw [if_neg (by simpa using hneg)]
    obtain ⟨c, ds, hcons⟩ := List.exists_cons_of_ne_nil (showDec_ne_nil (n := p.natAbs))
    have hc : c.isDigit = true := isDigit_of_mem_showDec (n := p.natAbs) (by rw [hcons]; simp)
    have hminus : c ≠ '-' := by
      rintro rfl
      exact absurd hc (by decide)
    have hplus : c ≠ '+' := by
      rintro rfl
      exact absurd hc (by decide)
    rw [hcons, readSigned, if_neg hminus, if_neg hplus, ← hcons, readRadix_showDec]
    congr 1
    omega

theorem stringToBigInt_integerText (p : ℤ) : stringToBigInt (integerText p) = some p := by
  have hplain : ∀ c ∈ integerText p, jsSpace c = false ∧ radixOf c = none := fun c hc =>
    plain_of_isDigit (plain_integerText hc)
  have hne : integerText p ≠ [] := by
    intro hnil
    have hread := readSigned_integerText p
    rw [hnil] at hread
    cases hread
  -- There is nothing to trim at either end.
  have hdrop : (integerText p).dropWhile jsSpace = integerText p := by
    obtain ⟨c, ds, hcons⟩ := List.exists_cons_of_ne_nil hne
    have hc := (hplain c (by rw [hcons]; simp)).1
    rw [hcons, List.dropWhile_cons_of_neg (by simp [hc])]
  have hrdrop : (integerText p).rdropWhile jsSpace = integerText p :=
    List.rdropWhile_eq_self_iff.mpr fun h => by simp [(hplain _ (List.getLast_mem h)).1]
  rw [stringToBigInt, hdrop, hrdrop, if_neg hne,
    readLiteral_of_plain fun c hc => (hplain c hc).2, readSigned_integerText]

/-- **An integer comes through in each of the forms it may be given in.** -/
theorem toBigIntSafe_integer (p : ℤ) :
    toBigIntSafe (some (.bigint p)) = p ∧ toBigIntSafe (some (.number p)) = p ∧
      toBigIntSafe (some (.string (integerText p))) = p := by
  refine ⟨rfl, ?_, ?_⟩
  · simp only [toBigIntSafe, mathTrunc]
    split
    · exact Rat.floor_intCast p
    · exact Rat.ceil_intCast p
  · rw [toBigIntSafe, stringToBigInt_integerText, Option.getD_some]

/-! ## The parts of the text -/

/-- The unit the digits are cut at, in plancks, is ten to this. -/
def dropDigits (abs decimals fix : ℕ) : ℕ := decimals - effectiveFix (abs / 10 ^ decimals) fix

theorem dropDigits_le : dropDigits abs decimals fix ≤ decimals := Nat.sub_le _ _

/-- **The amount in units**, rounded. -/
def units (abs decimals fix : ℕ) : ℕ := halfUp abs (10 ^ dropDigits abs decimals fix)

/-- **What the text of an amount denotes**, its sign apart. -/
def shown (abs decimals fix : ℕ) : ℚ :=
  units abs decimals fix / 10 ^ (decimals - dropDigits abs decimals fix)

/-- A unit is one planck, or an even number of them. -/
theorem unit_even (d : ℕ) : (10 : ℕ) ^ d = 1 ∨ 2 ∣ 10 ^ d ∧ 0 < 10 ^ d := by
  rcases Nat.eq_zero_or_pos d with rfl | hd
  · exact .inl rfl
  · exact .inr ⟨dvd_pow (by decide) (by omega), Nat.pow_pos (by decide)⟩

theorem halfUnit_eq (d : ℕ) : (if 0 < d then 10 ^ (d - 1) * 5 else 0) = 10 ^ d / 2 := by
  cases d with
  | zero => rfl
  | succ d =>
    rw [if_pos (Nat.succ_pos d), Nat.add_sub_cancel, pow_succ]
    omega

/-- **Whole part and fraction are one quotient.** -/
theorem whole_add_fraction (rounded decimals drop fix : ℕ) (hdrop : drop = decimals - fix) :
    ((rounded / 10 ^ decimals : ℕ) : ℚ) +
        fraction ((padZeros decimals (showDec (rounded % 10 ^ decimals))).take fix) =
      ((rounded / 10 ^ drop : ℕ) : ℚ) / 10 ^ (decimals - drop) := by
  have hbase : (10 : ℕ) ^ decimals = 10 ^ drop * 10 ^ (decimals - drop) := by
    rw [← pow_add, Nat.add_sub_cancel' (by omega)]
  have hwhole : rounded / 10 ^ decimals = rounded / 10 ^ drop / 10 ^ (decimals - drop) := by
    rw [hbase, Nat.div_div_eq_div_mul]
  have hfrac : rounded % 10 ^ decimals / 10 ^ drop =
      rounded / 10 ^ drop % 10 ^ (decimals - drop) := by
    rw [hbase, Nat.mod_mul_right_div_self]
  have hpart : fraction ((padZeros decimals (showDec (rounded % 10 ^ decimals))).take fix) =
      ((rounded / 10 ^ drop % 10 ^ (decimals - drop) : ℕ) : ℚ) / 10 ^ (decimals - drop) := by
    rw [fraction, ofDigitChars_take fun c hc => isDigit_of_mem_padZeros hc, ofDigitChars_padZeros]
    rcases Nat.eq_zero_or_pos decimals with rfl | hpos
    · -- With no decimals the remainder is zero, and shown as one digit.
      simp [Nat.mod_one]
    · have hlength : (padZeros decimals (showDec (rounded % 10 ^ decimals))).length = decimals :=
        length_padZeros ((Nat.length_toDigits_le_iff (by decide) hpos).mpr
          (Nat.mod_lt _ (Nat.pow_pos (by decide))))
      rw [List.length_take, hlength, ← hdrop, hfrac,
        show min fix decimals = decimals - drop by omega]
  have hparts := Nat.div_add_mod (rounded / 10 ^ drop) (10 ^ (decimals - drop))
  have hpow : (0 : ℚ) < 10 ^ (decimals - drop) := by positivity
  rw [hwhole, hpart]
  generalize rounded / 10 ^ drop = q at hparts ⊢
  rw [eq_div_iff hpow.ne', add_mul, div_mul_cancel₀ _ hpow.ne']
  exact_mod_cast (Nat.mul_comm _ _ ▸ hparts)

/-- **The text of an amount other than zero**: that of its units, or the
fallback where it has none. -/
theorem fmtAFT_cases (decimals fix : ℕ) (hvalue : toBigIntSafe (some planck) = p) (hp : p ≠ 0) :
    (units p.natAbs decimals fix = 0 ∧
        fmtAFT planck decimals fix = approxText (decide (p < 0)) p.natAbs (10 ^ decimals)) ∨
      (units p.natAbs decimals fix ≠ 0 ∧ ∃ (whole : ℕ) (ds : List Char),
        (∀ c ∈ ds, c.isDigit = true) ∧
        (whole : ℚ) + fraction ds = shown p.natAbs decimals fix ∧
        fmtAFT planck decimals fix =
          .text (signed (decide (p < 0)) (group (showDec whole) ++ pointed (trimZeros ds)))) := by
  simp only [fmtAFT, hvalue, if_neg hp, halfUnit_eq, toLocaleString]
  generalize p.natAbs = abs
  have hparts := whole_add_fraction (abs + 10 ^ dropDigits abs decimals fix / 2) decimals
    (dropDigits abs decimals fix) (effectiveFix (abs / 10 ^ decimals) fix) rfl
  rw [← halfUp, ← units, ← shown, dropDigits] at hparts
  generalize (abs + 10 ^ (decimals - effectiveFix (abs / 10 ^ decimals) fix) / 2) / 10 ^ decimals =
    whole at hparts ⊢
  have hdigits : ∀ c ∈ (padZeros decimals (showDec ((abs +
      10 ^ (decimals - effectiveFix (abs / 10 ^ decimals) fix) / 2) % 10 ^ decimals))).take
        (effectiveFix (abs / 10 ^ decimals) fix), c.isDigit = true := fun c hc =>
    isDigit_of_mem_padZeros (List.mem_of_mem_take hc)
  generalize (padZeros decimals (showDec ((abs +
      10 ^ (decimals - effectiveFix (abs / 10 ^ decimals) fix) / 2) % 10 ^ decimals))).take
        (effectiveFix (abs / 10 ^ decimals) fix) = ds at hparts hdigits ⊢
  -- No whole part and no digits left is no units.
  have hzero : (whole = 0 ∧ trimZeros ds = []) ↔ units abs decimals fix = 0 := by
    have hpow : (10 : ℚ) ^ (decimals - dropDigits abs decimals fix) ≠ 0 := by positivity
    have hshown : shown abs decimals fix = 0 ↔ units abs decimals fix = 0 := by
      rw [shown, div_eq_zero_iff, or_iff_left hpow, Nat.cast_eq_zero]
    rw [← hshown, ← hparts, trimZeros_eq_nil_iff hdigits,
      add_eq_zero_iff_of_nonneg (Nat.cast_nonneg whole) fraction_nonneg, Nat.cast_eq_zero]
  by_cases hunits : units abs decimals fix = 0
  · exact .inl ⟨hunits, if_pos (hzero.mpr hunits)⟩
  · exact .inr ⟨hunits, whole, ds, hdigits, hparts, if_neg (mt hzero.mp hunits)⟩

/-- **The amount overflows in the fallback**: it rounds to nothing, and is
no finite double. -/
def Overflows (abs decimals fix : ℕ) : Prop :=
  doubleOverflow ≤ abs ∧ 2 * abs < 10 ^ (decimals - fix)

instance : Decidable (Overflows abs decimals fix) := inferInstanceAs (Decidable (_ ∧ _))

theorem doubleOverflow_pos : 0 < doubleOverflow := by
  decide +kernel

/-- Less than half a unit is below one whole. -/
theorem lt_base (h : 2 * abs < 10 ^ (decimals - fix)) : abs < 10 ^ decimals := by
  have hle : (10 : ℕ) ^ (decimals - fix) ≤ 10 ^ decimals :=
    Nat.pow_le_pow_right (by decide) (Nat.sub_le _ _)
  omega

/-- What rounds to nothing is less than half a unit. -/
theorem units_eq_zero_iff : units abs decimals fix = 0 ↔ 2 * abs < 10 ^ (decimals - fix) := by
  rw [units, halfUp_eq_zero_iff (unit_even _), dropDigits]
  -- Such an amount is below one whole, where the unit is the one asked for.
  have hsmall (d : ℕ) (h : 2 * abs < 10 ^ (decimals - d)) :
      effectiveFix (abs / 10 ^ decimals) fix = fix := by
    rw [Nat.div_eq_of_lt (lt_base h)]
    rfl
  exact ⟨fun h => by rwa [hsmall _ h] at h, fun h => by rwa [hsmall _ h]⟩

theorem units_zero : units 0 decimals fix = 0 := by
  rw [units_eq_zero_iff]
  exact Nat.pow_pos (by decide)

/-- What the text of an amount denotes, with its sign. -/
def denoted (p : ℤ) (decimals fix : ℕ) : ℚ :=
  if p < 0 then -shown p.natAbs decimals fix else shown p.natAbs decimals fix

theorem denoted_of_units_eq_zero (h : units p.natAbs decimals fix = 0) :
    denoted p decimals fix = 0 := by
  rw [denoted, shown, h]
  simp

/-- **Where the amount overflows** the text is no number. -/
theorem fmtAFT_overflows (hvalue : toBigIntSafe (some planck) = p)
    (h : Overflows p.natAbs decimals fix) :
    fmtAFT planck decimals fix = .text (signed (decide (p < 0)) ['N', 'a', 'N']) := by
  have hp : p ≠ 0 := by
    rintro rfl
    exact absurd h.1 (Nat.not_le_of_lt doubleOverflow_pos)
  have hbase : p.natAbs < 10 ^ decimals := lt_base h.2
  have hinfinite : numberIsInfinite p.natAbs = true := decide_eq_true h.1
  have hinfinite' : numberIsInfinite (10 ^ decimals) = true := decide_eq_true (h.1.trans hbase.le)
  obtain ⟨-, hfmt⟩ | ⟨hunits, -⟩ := fmtAFT_cases decimals fix hvalue hp
  · rw [hfmt, approxText, if_pos hinfinite', if_pos hinfinite]
  · exact absurd (units_eq_zero_iff.mpr h.2) hunits

/-- **What a text reads as**: nothing where the amount overflowed, and
elsewhere the amount's units. -/
theorem readNumeral_fmtAFT (hvalue : toBigIntSafe (some planck) = p)
    (htext : fmtAFT planck decimals fix = .text s) :
    readNumeral s =
      if Overflows p.natAbs decimals fix then none else some (denoted p decimals fix) := by
  by_cases hp : p = 0
  · subst hp
    have hs : AftText.text ['0'] = .text s := by
      rw [← htext, fmtAFT, hvalue, if_pos rfl]
    obtain rfl := AftText.text.inj hs
    rw [if_neg fun h => absurd h.1 (Nat.not_le_of_lt doubleOverflow_pos),
      denoted_of_units_eq_zero (p := 0) units_zero]
    decide +kernel
  obtain ⟨hunits, hfmt⟩ | ⟨hunits, whole, ds, hdigits, hparts, hfmt⟩ :=
    fmtAFT_cases decimals fix hvalue hp
  · have hhalf := units_eq_zero_iff.mp hunits
    rw [denoted_of_units_eq_zero hunits]
    rw [hfmt] at htext
    by_cases hinfinite : doubleOverflow ≤ p.natAbs
    · have hover : Overflows p.natAbs decimals fix := ⟨hinfinite, hhalf⟩
      rw [← hfmt, fmtAFT_overflows hvalue hover] at htext
      obtain rfl := AftText.text.inj htext
      rw [if_pos hover]
      cases decide (p < 0) <;> rfl
    · have habs : numberIsInfinite p.natAbs = false := decide_eq_false hinfinite
      rw [approxText, habs] at htext
      rw [if_neg fun h => hinfinite h.1]
      split at htext
      · obtain rfl := AftText.text.inj htext
        cases decide (p < 0) <;> decide +kernel
      · cases htext
  · rw [if_neg fun h => hunits (units_eq_zero_iff.mpr h.2)]
    rw [hfmt] at htext
    obtain rfl := AftText.text.inj htext
    rw [readNumeral_signed _ hdigits, hparts, denoted]
    simp only [decide_eq_true_eq]

/-! ## Rounding -/

/-- **What is shown is the amount rounded.** -/
theorem roundsTo_shown (abs decimals fix : ℕ) :
    RoundsTo (effectiveFix (abs / 10 ^ decimals) fix) ((abs : ℚ) / 10 ^ decimals)
      (shown abs decimals fix) := by
  rw [shown, units, dropDigits]
  generalize effectiveFix (abs / 10 ^ decimals) fix = d
  rcases Nat.lt_or_ge d decimals with h | h
  · rw [Nat.sub_sub_self (le_of_lt h)]
    exact roundsTo_halfUp h
  · rw [Nat.sub_eq_zero_of_le h, halfUp, Nat.pow_zero, Nat.div_one, Nat.sub_zero]
    exact roundsTo_self h

theorem roundsTo_denoted :
    RoundsTo (effectiveFix (p.natAbs / 10 ^ decimals) fix) ((p : ℚ) / 10 ^ decimals)
      (denoted p decimals fix) := by
  have habs := roundsTo_shown p.natAbs decimals fix
  rw [denoted]
  by_cases hneg : p < 0
  · have hp : (p : ℚ) / 10 ^ decimals = -((p.natAbs : ℚ) / 10 ^ decimals) := by
      rw [Nat.cast_natAbs, abs_of_neg hneg]
      push_cast
      ring
    rw [if_pos hneg, hp]
    exact habs.neg
  · have hp : (p : ℚ) = (p.natAbs : ℚ) := by
      rw [Nat.cast_natAbs, abs_of_nonneg (not_lt.mp hneg)]
    rw [if_neg hneg, hp]
    exact habs

/-! ## Order -/

/-- The amount, as a number of base units, in units. -/
theorem shown_le {k : ℕ} (h : abs ≤ k * 10 ^ decimals) : shown abs decimals fix ≤ k := by
  have hpow : (0 : ℚ) < 10 ^ (decimals - dropDigits abs decimals fix) := by positivity
  have hunits : units abs decimals fix ≤
      k * 10 ^ (decimals - dropDigits abs decimals fix) := by
    refine halfUp_le (Nat.pow_pos (by decide)) ?_
    rwa [Nat.mul_assoc, ← pow_add, Nat.sub_add_cancel dropDigits_le]
  rw [shown, div_le_iff₀ hpow]
  exact_mod_cast hunits

theorem le_shown {k : ℕ} (h : k * 10 ^ decimals ≤ abs) : (k : ℚ) ≤ shown abs decimals fix := by
  have hpow : (0 : ℚ) < 10 ^ (decimals - dropDigits abs decimals fix) := by positivity
  have hunits : k * 10 ^ (decimals - dropDigits abs decimals fix) ≤
      units abs decimals fix := by
    refine le_halfUp (Nat.pow_pos (by decide)) ?_
    rwa [Nat.mul_assoc, ← pow_add, Nat.sub_add_cancel dropDigits_le]
  rw [shown, le_div_iff₀ hpow]
  exact_mod_cast hunits

/-- **Two amounts are shown in the same unit, or a threshold lies between
them.** -/
theorem same_or_threshold (decimals fix : ℕ) {a b : ℕ} (h : a ≤ b) :
    effectiveFix (a / 10 ^ decimals) fix = effectiveFix (b / 10 ^ decimals) fix ∨
      ∃ k, a ≤ k * 10 ^ decimals ∧ k * 10 ^ decimals ≤ b := by
  have hpow : 0 < 10 ^ decimals := Nat.pow_pos (by decide)
  have hle : a / 10 ^ decimals ≤ b / 10 ^ decimals := Nat.div_le_div_right h
  have hbetween (k : ℕ) (ha : a / 10 ^ decimals < k) (hb : k ≤ b / 10 ^ decimals) :
      ∃ k, a ≤ k * 10 ^ decimals ∧ k * 10 ^ decimals ≤ b :=
    ⟨k, ((Nat.div_lt_iff_lt_mul hpow).mp ha).le, (Nat.le_div_iff_mul_le hpow).mp hb⟩
  unfold effectiveFix
  rcases Nat.lt_or_ge (a / 10 ^ decimals) 1000 with ha | ha
  · rcases Nat.lt_or_ge (b / 10 ^ decimals) 1000 with hb | hb
    · left
      rw [if_neg (by omega), if_neg (by omega), if_neg (by omega), if_neg (by omega)]
    · exact .inr (hbetween 1000 ha hb)
  · rcases Nat.lt_or_ge (a / 10 ^ decimals) 1000000 with ha' | ha'
    · rcases Nat.lt_or_ge (b / 10 ^ decimals) 1000000 with hb | hb
      · left
        rw [if_neg (by omega), if_pos ha, if_neg (by omega), if_pos (ha.trans hle)]
      · exact .inr (hbetween 1000000 ha' hb)
    · left
      rw [if_pos ha', if_pos (ha'.trans hle)]

/-- **More is never shown as less**, also across a threshold. -/
theorem shown_mono {a b : ℕ} (h : a ≤ b) : shown a decimals fix ≤ shown b decimals fix := by
  rcases same_or_threshold decimals fix h with hsame | ⟨k, ha, hb⟩
  · rw [shown, shown, units, units, dropDigits, dropDigits, hsame]
    refine div_le_div_of_nonneg_right ?_ (by positivity)
    exact_mod_cast halfUp_mono h
  · exact (shown_le ha).trans (le_shown hb)

theorem shown_nonneg : 0 ≤ shown abs decimals fix := by
  unfold shown
  positivity

theorem denoted_mono {q : ℤ} (h : p ≤ q) : denoted p decimals fix ≤ denoted q decimals fix := by
  unfold denoted
  by_cases hp : p < 0
  · by_cases hq : q < 0
    · rw [if_pos hp, if_pos hq]
      exact neg_le_neg (shown_mono (by omega))
    · rw [if_pos hp, if_neg hq]
      exact (neg_nonpos.mpr shown_nonneg).trans shown_nonneg
  · rw [if_neg hp, if_neg (by omega)]
    exact shown_mono (by omega)

/-! ## The result -/

/-- The text with a minus sign before it. -/
def AftText.minus : AftText → AftText
  | .text s => .text ('-' :: s)
  | .exponential _ abs base => .exponential true abs base

theorem minus_approxText (abs base : ℕ) :
    (approxText false abs base).minus = approxText true abs base := by
  unfold approxText
  split
  · split <;> rfl
  · split <;> rfl

/-- **A text of the negative amount** is that of the positive one behind a
minus sign. -/
theorem fmtAFT_neg (hpos : 0 < toBigIntSafe (some planck))
    (hneg : toBigIntSafe (some planck') = -toBigIntSafe (some planck)) :
    fmtAFT planck' decimals fix = (fmtAFT planck decimals fix).minus := by
  simp only [fmtAFT, hneg, Int.natAbs_neg, neg_eq_zero, if_neg (ne_of_gt hpos),
    decide_eq_true (neg_neg_of_pos hpos), decide_eq_false (not_lt.mpr hpos.le)]
  rw [apply_ite AftText.minus, minus_approxText]
  rfl

/-- **The amount is shown rounded**: in exponential notation, or as a
grouped numeral that denotes it rounded to the digits its size allows, a
tie away from zero. -/
def RoundsCorrectly (planck : Planck) (decimals fix : ℕ) : Prop :=
  match fmtAFT planck decimals fix with
  | .exponential _ _ _ => True
  | .text s => ∃ v, readNumeral s = some v ∧
    RoundsTo (effectiveFix ((toBigIntSafe (some planck)).natAbs / 10 ^ decimals) fix)
      ((toBigIntSafe (some planck) : ℚ) / 10 ^ decimals) v

theorem roundsCorrectly_iff (planck : Planck) (decimals fix : ℕ) :
    RoundsCorrectly planck decimals fix ↔
      ¬ Overflows (toBigIntSafe (some planck)).natAbs decimals fix := by
  unfold RoundsCorrectly
  constructor
  · rintro h hover
    have htext := fmtAFT_overflows rfl hover
    rw [htext] at h
    obtain ⟨v, hread, -⟩ := h
    rw [readNumeral_fmtAFT rfl htext, if_pos hover] at hread
    cases hread
  · intro hover
    split
    · trivial
    · rename_i s htext
      exact ⟨_, by rw [readNumeral_fmtAFT rfl htext, if_neg hover], roundsTo_denoted⟩

/-- **Amounts are rounded correctly** exactly if they do not overflow in
the fallback; the text of an amount is that of its negative but for the
sign, and a larger amount never reads as less. -/
theorem fmtAFT_rounds_iff (planck : Planck) (decimals fix : ℕ) :
    (RoundsCorrectly planck decimals fix ↔
      ¬ Overflows (toBigIntSafe (some planck)).natAbs decimals fix) ∧
    (∀ planck', 0 < toBigIntSafe (some planck) →
      toBigIntSafe (some planck') = -toBigIntSafe (some planck) →
        fmtAFT planck' decimals fix = (fmtAFT planck decimals fix).minus) ∧
    (∀ planck' s s' v v', toBigIntSafe (some planck) ≤ toBigIntSafe (some planck') →
      fmtAFT planck decimals fix = .text s → fmtAFT planck' decimals fix = .text s' →
        readNumeral s = some v → readNumeral s' = some v' → v ≤ v') ∧
    ∀ p : ℤ, toBigIntSafe (some (.bigint p)) = p ∧ toBigIntSafe (some (.number p)) = p ∧
      toBigIntSafe (some (.string (integerText p))) = p := by
  refine ⟨roundsCorrectly_iff planck decimals fix, fun _ => fmtAFT_neg, ?_,
    toBigIntSafe_integer⟩
  intro planck' s s' v v' hle htext htext' hread hread'
  rw [readNumeral_fmtAFT rfl htext] at hread
  rw [readNumeral_fmtAFT rfl htext'] at hread'
  split at hread
  · cases hread
  · split at hread'
    · cases hread'
    · obtain rfl := Option.some.inj hread
      obtain rfl := Option.some.inj hread'
      exact denoted_mono hle

theorem overflows_least : Overflows doubleOverflow 400 4 := by
  have hhalf : 2 * doubleOverflow < 10 ^ (400 - 4) := by decide +kernel
  exact ⟨Nat.le_refl doubleOverflow, hhalf⟩

/-- **The least amount that overflows**, of a token with 400 decimals. -/
theorem fmtAFT_notNumber :
    fmtAFT (.bigint doubleOverflow) 400 4 = .text ['N', 'a', 'N'] ∧
      ¬ RoundsCorrectly (.bigint doubleOverflow) 400 4 := by
  have hvalue : (toBigIntSafe (some (.bigint doubleOverflow))).natAbs = doubleOverflow :=
    Int.natAbs_natCast doubleOverflow
  refine ⟨by decide +kernel, (roundsCorrectly_iff _ _ _).not.mpr (not_not.mpr ?_)⟩
  rw [hvalue]
  exact overflows_least

end Format

end AllfeatExplorer
