import Mathlib.Data.Int.Basic
import Mathlib.Tactic.Linarith

/-!
# Machine integers

The indexer counts in `u64` and `u32` and stores `BIGINT` and `INT`. The
casts between the two wrap, so a block number from `2^63` on is stored
as a negative number; every comparison the database makes is on the
stored side. Unsigned values are `ℕ` here and stored ones `ℤ`.

The bounds are written out as numerals, which is what `omega` reads.
-/

namespace AllfeatExplorer

/-- `u128::MAX`. -/
def u128Max : ℕ := 340282366920938463463374607431768211455

/-- `u64::MAX`. -/
def u64Max : ℕ := 18446744073709551615

/-- `u32::MAX`. -/
def u32Max : ℕ := 4294967295

/-- `i64::MAX`. -/
def i64Max : ℕ := 9223372036854775807

/-- `i32::MAX`. -/
def i32Max : ℕ := 2147483647

/-- `n as i64`: the two's complement reading of the low 64 bits. -/
def asI64 (n : ℕ) : ℤ :=
  if n % 18446744073709551616 ≤ 9223372036854775807 then n % 18446744073709551616
  else n % 18446744073709551616 - 18446744073709551616

/-- `v as u64`. -/
def asU64 (v : ℤ) : ℕ := (v % 18446744073709551616).toNat

/-- `n as i32`. -/
def asI32 (n : ℕ) : ℤ :=
  if n % 4294967296 ≤ 2147483647 then n % 4294967296
  else n % 4294967296 - 4294967296

/-- `v as u32`. -/
def asU32 (v : ℤ) : ℕ := (v % 4294967296).toNat

/-- `n as u32` of a wider unsigned value. -/
def wrapU32 (n : ℕ) : ℕ := n % 4294967296

/-- `n as i128`. -/
def asI128 (n : ℕ) : ℤ :=
  if n % 340282366920938463463374607431768211456 < 170141183460469231731687303715884105728 then
    n % 340282366920938463463374607431768211456
  else
    n % 340282366920938463463374607431768211456 - 340282366920938463463374607431768211456

/-- `-v` on `i128`, which wraps at `i128::MIN` in a release build. -/
def negI128 (v : ℤ) : ℤ :=
  if v = -170141183460469231731687303715884105728 then v else -v

/-- `a.saturating_add(b)` on `u64`. -/
def satAddU64 (a b : ℕ) : ℕ := min (a + b) u64Max

/-- `a.saturating_add(b)` on `u32`. -/
def satAddU32 (a b : ℕ) : ℕ := min (a + b) u32Max

theorem asI64_of_le {n : ℕ} (h : n ≤ i64Max) : asI64 n = n := by
  simp only [asI64, i64Max] at *
  split <;> omega

theorem asI32_of_le {n : ℕ} (h : n ≤ i32Max) : asI32 n = n := by
  simp only [asI32, i32Max] at *
  split <;> omega

/-- **A stored number reads back.** -/
theorem asU64_asI64 {n : ℕ} (h : n ≤ u64Max) : asU64 (asI64 n) = n := by
  simp only [asI64, asU64, u64Max] at *
  split <;> omega

theorem asU32_asI32 {n : ℕ} (h : n ≤ u32Max) : asU32 (asI32 n) = n := by
  simp only [asI32, asU32, u32Max] at *
  split <;> omega

/-- A number read back from the database is stored again as itself. -/
theorem asI64_asU64_asI64 (n : ℕ) : asI64 (asU64 (asI64 n)) = asI64 n := by
  simp only [asI64, asU64]
  split <;> split <;> omega

theorem asU64_le (v : ℤ) : asU64 v ≤ u64Max := by
  simp only [asU64, u64Max]
  omega

theorem wrapU32_of_le {n : ℕ} (h : n ≤ u32Max) : wrapU32 n = n :=
  Nat.mod_eq_of_lt (Nat.lt_succ_of_le h)

theorem wrapU32_le (n : ℕ) : wrapU32 n ≤ u32Max := by
  simp only [wrapU32, u32Max]
  omega

/-- A number reads no higher as stored. -/
theorem asI64_le (n : ℕ) : asI64 n ≤ n := by
  simp only [asI64]
  split <;> omega

theorem asI32_le (n : ℕ) : asI32 n ≤ n := by
  simp only [asI32]
  split <;> omega

/-- A number as stored is in the range of its column. -/
theorem asI64_le_max (n : ℕ) : asI64 n ≤ i64Max := by
  simp only [asI64, i64Max]
  split <;> omega

theorem asI32_le_max (n : ℕ) : asI32 n ≤ i32Max := by
  simp only [asI32, i32Max]
  split <;> omega

theorem asI64_inj {m n : ℕ} (hm : m ≤ u64Max) (hn : n ≤ u64Max) :
    asI64 m = asI64 n ↔ m = n :=
  ⟨fun h => by rw [← asU64_asI64 hm, h, asU64_asI64 hn], fun h => by rw [h]⟩

theorem asI32_inj {m n : ℕ} (hm : m ≤ u32Max) (hn : n ≤ u32Max) :
    asI32 m = asI32 n ↔ m = n :=
  ⟨fun h => by rw [← asU32_asI32 hm, h, asU32_asI32 hn], fun h => by rw [h]⟩

theorem satAddU64_of_le {a b : ℕ} (h : a + b ≤ u64Max) : satAddU64 a b = a + b :=
  min_eq_left h

theorem toNat_le_u64Max (n : UInt64) : n.toNat ≤ u64Max := by
  have h := n.toNat_lt
  simp only [u64Max]
  omega

theorem toNat_le_u32Max (n : UInt32) : n.toNat ≤ u32Max := by
  have h := n.toNat_lt
  simp only [u32Max]
  omega

/-- `u64` values stored alike are equal. -/
@[simp] theorem asI64_toNat_inj {m n : UInt64} : asI64 m.toNat = asI64 n.toNat ↔ m = n := by
  rw [asI64_inj (toNat_le_u64Max m) (toNat_le_u64Max n), UInt64.toNat_inj]

/-- `u32` values stored alike are equal. -/
@[simp] theorem asI32_toNat_inj {m n : UInt32} : asI32 m.toNat = asI32 n.toNat ↔ m = n := by
  rw [asI32_inj (toNat_le_u32Max m) (toNat_le_u32Max n), UInt32.toNat_inj]

end AllfeatExplorer
