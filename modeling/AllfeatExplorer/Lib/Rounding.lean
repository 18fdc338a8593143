import Mathlib.Algebra.Order.Field.Rat
import Mathlib.Tactic.FieldSimp
import Mathlib.Tactic.Linarith
import Mathlib.Tactic.Positivity
import Mathlib.Tactic.Ring

/-!
# Rounding to decimal digits

A number of small units rounded to a number of larger ones, half a unit
up, and what that is as a rounding of fractions: the nearest multiple,
the one away from zero on a tie. Rounding keeps the order, and does not
cross a whole number of units; so two roundings, to different units, of
numbers on two sides of one keep their order too.
-/

namespace AllfeatExplorer

/-- **Rounding half up**: the number of units `u` nearest to `a`. -/
def halfUp (a u : ℕ) : ℕ := (a + u / 2) / u

variable {a b u k d e : ℕ} {x v : ℚ}

/-- Rounding is within half a unit, and less than that downwards. -/
theorem halfUp_near (hu : u = 1 ∨ 2 ∣ u ∧ 0 < u) :
    2 * (halfUp a u * u) ≤ 2 * a + u ∧ 2 * a < 2 * (halfUp a u * u) + u := by
  rcases hu with rfl | ⟨⟨h, rfl⟩, hpos⟩
  · rw [halfUp, Nat.div_one, Nat.mul_one]
    omega
  · have hlow := Nat.div_mul_le_self (a + 2 * h / 2) (2 * h)
    have hhigh := Nat.lt_div_mul_add (a := a + 2 * h / 2) hpos
    rw [halfUp]
    omega

theorem halfUp_mono (h : a ≤ b) : halfUp a u ≤ halfUp b u :=
  Nat.div_le_div_right (Nat.add_le_add_right h _)

/-- **Rounding does not cross a whole number of units**, from below. -/
theorem halfUp_le (hpos : 0 < u) (h : a ≤ k * u) : halfUp a u ≤ k := by
  have hlt : a + u / 2 < (k + 1) * u := by
    rw [Nat.add_mul, Nat.one_mul]
    have : u / 2 < u := Nat.div_lt_self hpos (by decide)
    omega
  exact Nat.lt_succ_iff.mp ((Nat.div_lt_iff_lt_mul hpos).mpr hlt)

/-- Nor from above. -/
theorem le_halfUp (hpos : 0 < u) (h : k * u ≤ a) : k ≤ halfUp a u :=
  (Nat.le_div_iff_mul_le hpos).mpr (h.trans (Nat.le_add_right _ _))

/-- **What is less than half a unit rounds to nothing.** -/
theorem halfUp_eq_zero_iff (hu : u = 1 ∨ 2 ∣ u ∧ 0 < u) : halfUp a u = 0 ↔ 2 * a < u := by
  obtain ⟨hup, hdown⟩ := halfUp_near (a := a) hu
  constructor
  · intro hzero
    rw [hzero, Nat.zero_mul] at hdown
    omega
  · intro hlt
    by_contra hne
    have hmul : 1 * u ≤ halfUp a u * u := Nat.mul_le_mul_right u (Nat.pos_of_ne_zero hne)
    omega

/-! ## Roundings of fractions -/

/-- **`v` is `x` rounded to `d` decimal digits**, a tie away from zero. -/
structure RoundsTo (d : ℕ) (x v : ℚ) : Prop where
  digits : ∃ k : ℤ, v = k / 10 ^ d
  near : |v - x| ≤ 1 / 2 / 10 ^ d
  away : |v - x| = 1 / 2 / 10 ^ d → |x| < |v|

theorem RoundsTo.neg (h : RoundsTo d x v) : RoundsTo d (-x) (-v) where
  digits := by
    obtain ⟨k, rfl⟩ := h.digits
    exact ⟨-k, by push_cast; ring⟩
  near := by
    rw [neg_sub_neg, abs_sub_comm]
    exact h.near
  away := by
    rw [neg_sub_neg, abs_sub_comm, abs_neg, abs_neg]
    exact h.away

/-- What is written with `d` digits at most is its own rounding. -/
theorem roundsTo_self (h : e ≤ d) : RoundsTo d ((a : ℚ) / 10 ^ e) ((a : ℚ) / 10 ^ e) where
  digits := by
    refine ⟨a * 10 ^ (d - e), ?_⟩
    have hpow : (10 : ℚ) ^ d = 10 ^ (d - e) * 10 ^ e := by rw [← pow_add, Nat.sub_add_cancel h]
    push_cast
    rw [hpow, mul_comm (a : ℚ), mul_div_mul_left _ _ (by positivity)]
  near := by
    rw [sub_self, abs_zero]
    positivity
  away := by
    intro htie
    rw [sub_self, abs_zero] at htie
    have : (0 : ℚ) < 1 / 2 / 10 ^ d := by positivity
    exact absurd htie (ne_of_lt this)

/-- **Rounding half up is rounding to digits**: `a` units of `10 ^ -e` to
`d` digits. -/
theorem roundsTo_halfUp (h : d < e) :
    RoundsTo d ((a : ℚ) / 10 ^ e) ((halfUp a (10 ^ (e - d)) : ℚ) / 10 ^ d) := by
  have hu : (10 : ℕ) ^ (e - d) = 1 ∨ 2 ∣ 10 ^ (e - d) ∧ 0 < 10 ^ (e - d) :=
    .inr ⟨dvd_pow (by decide) (by omega), Nat.pos_of_ne_zero (by positivity)⟩
  obtain ⟨hup, hdown⟩ := halfUp_near (a := a) hu
  generalize halfUp a (10 ^ (e - d)) = q at hup hdown ⊢
  have hpow : (10 : ℚ) ^ e = 10 ^ (e - d) * 10 ^ d := by
    rw [← pow_add, Nat.sub_add_cancel (le_of_lt h)]
  have hunit : (0 : ℚ) < 10 ^ (e - d) := by positivity
  have hdigit : (0 : ℚ) < 10 ^ d := by positivity
  have hupQ : 2 * ((q : ℚ) * 10 ^ (e - d)) ≤ 2 * a + 10 ^ (e - d) := by exact_mod_cast hup
  have hdownQ : 2 * (a : ℚ) < 2 * (q * 10 ^ (e - d)) + 10 ^ (e - d) := by exact_mod_cast hdown
  -- Measured in small units, the distance is that of `q` larger ones to `a`.
  have hdist : (q : ℚ) / 10 ^ d - a / 10 ^ e = (q * 10 ^ (e - d) - a) / 10 ^ e := by
    rw [hpow]
    field_simp
  have hhalf : (1 : ℚ) / 2 / 10 ^ d = (10 ^ (e - d) / 2) / 10 ^ e := by
    rw [hpow]
    field_simp
  have hscale : (0 : ℚ) < 10 ^ e := by positivity
  refine ⟨⟨q, by push_cast; rfl⟩, ?_, fun htie => ?_⟩
  · rw [hdist, hhalf, abs_div, abs_of_pos hscale]
    refine div_le_div_of_nonneg_right (abs_le.mpr ⟨?_, ?_⟩) hscale.le <;> linarith
  · rw [hdist, hhalf, abs_div, abs_of_pos hscale, div_left_inj' hscale.ne'] at htie
    have hq : (0 : ℚ) ≤ q / 10 ^ d := by positivity
    have ha : (0 : ℚ) ≤ a / 10 ^ e := by positivity
    rw [abs_of_nonneg hq, abs_of_nonneg ha, ← sub_pos, hdist]
    -- A tie is half a unit up: downwards it would be less.
    rcases abs_cases ((q : ℚ) * 10 ^ (e - d) - a) with ⟨habs, -⟩ | ⟨habs, -⟩
    · refine div_pos ?_ hscale
      linarith
    · linarith

end AllfeatExplorer
