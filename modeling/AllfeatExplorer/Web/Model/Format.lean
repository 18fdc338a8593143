import Mathlib.Data.Rat.Floor
import AllfeatExplorer.Lib.Numeral

/-!
# Amounts as text

`format.ts`: a planck amount, which comes as a number, a string or a
bigint, and the AFT text shown for it. Text is a list of characters. The
only floating point is in the fallback for amounts that round to zero;
of it the model has which quotients are no finite number.
-/

namespace AllfeatExplorer

namespace Format

open Decimal

/-! ## `toBigIntSafe` -/

/-- `number | string | bigint`, the number finite. -/
inductive Planck where
  | number (v : ℚ)
  | string (s : List Char)
  | bigint (n : ℤ)

/-- `Math.trunc`. -/
def mathTrunc (v : ℚ) : ℤ := if 0 ≤ v then v.floor else v.ceil

/-- White space and line terminators, which `BigInt` skips around a
string. -/
def jsSpace (c : Char) : Bool :=
  let n := c.toNat
  n ∈ [0x9, 0xA, 0xB, 0xC, 0xD, 0x20, 0xA0, 0x1680, 0x2028, 0x2029, 0x202F, 0x205F, 0x3000,
      0xFEFF] ||
    (decide (0x2000 ≤ n) && decide (n ≤ 0x200A))

/-- The value of a digit in any radix up to sixteen. -/
def digitValue (c : Char) : ℕ :=
  if c.isDigit then c.toNat - 48
  else if 97 ≤ c.toNat ∧ c.toNat ≤ 102 then c.toNat - 87
  else if 65 ≤ c.toNat ∧ c.toNat ≤ 70 then c.toNat - 55
  else 16

/-- One or more digits of a radix. -/
def readRadix (radix : ℕ) (ds : List Char) : Option ℤ :=
  if ds ≠ [] ∧ ds.all fun c => digitValue c < radix then
    some (ds.foldl (fun n c => radix * n + digitValue c) 0 : ℕ)
  else none

/-- The radix that `0b`, `0o` or `0x` announces. -/
def radixOf (c : Char) : Option ℕ :=
  if c = 'b' ∨ c = 'B' then some 2
  else if c = 'o' ∨ c = 'O' then some 8
  else if c = 'x' ∨ c = 'X' then some 16
  else none

/-- Decimal digits with an optional sign. -/
def readSigned : List Char → Option ℤ
  | [] => none
  | c :: ds =>
    if c = '-' then (readRadix 10 ds).map fun n => -n
    else if c = '+' then readRadix 10 ds
    else readRadix 10 (c :: ds)

/-- A prefixed literal, or a decimal one. -/
def readLiteral : List Char → Option ℤ
  | c :: x :: ds =>
    match radixOf x with
    | some radix => if c = '0' then readRadix radix ds else none
    | none => readSigned (c :: x :: ds)
  | cs => readSigned cs

/-- `BigInt(s)`; `none` where it throws. -/
def stringToBigInt (s : List Char) : Option ℤ :=
  let trimmed := (s.dropWhile jsSpace).rdropWhile jsSpace
  if trimmed = [] then some 0 else readLiteral trimmed

/-- **`toBigIntSafe`**; `none` is `undefined` or `null`. -/
def toBigIntSafe : Option Planck → ℤ
  | none => 0
  | some (.bigint n) => n
  | some (.number v) => mathTrunc v
  | some (.string s) => (stringToBigInt s).getD 0

/-! ## `fmtAFT` -/

/-- What `fmtAFT` returns: a text, or `Number(abs) / Number(base)` in
exponential notation, behind the sign. -/
inductive AftText where
  | text (s : List Char)
  | exponential (neg : Bool) (abs base : ℕ)
deriving DecidableEq

/-- The least integer that is no finite double: halfway from the greatest
one to the power of two above it. -/
def doubleOverflow : ℕ := 2 ^ 1024 - 2 ^ 970

/-- `Number(n)` is `Infinity`. -/
def numberIsInfinite (n : ℕ) : Bool := decide (doubleOverflow ≤ n)

/-- **The fallback**: `approx === 0 ? '0' : approx.toExponential(2)`. A
finite number over `Infinity` is 0, `Infinity` over itself is `NaN`; a
positive integer over a finite number is never small enough to be 0. -/
def approxText (neg : Bool) (abs base : ℕ) : AftText :=
  if numberIsInfinite base then
    if numberIsInfinite abs then .text (signed neg ['N', 'a', 'N']) else .text (signed neg ['0'])
  else if numberIsInfinite abs then .text (signed neg ['I', 'n', 'f', 'i', 'n', 'i', 't', 'y'])
  else .exponential neg abs base

/-- `effectiveFix`, from the whole part before rounding. -/
def effectiveFix (wholeUnrounded fix : ℕ) : ℕ :=
  if 1000000 ≤ wholeUnrounded then 0
  else if 1000 ≤ wholeUnrounded then min fix 2
  else fix

/-- `n.toLocaleString('en-US')`. -/
def toLocaleString (n : ℕ) : List Char := group (showDec n)

/-- **`fmtAFT`.** -/
def fmtAFT (planck : Planck) (decimals fix : ℕ) : AftText :=
  let bi := toBigIntSafe (some planck)
  if bi = 0 then .text ['0']
  else
    let neg := decide (bi < 0)
    let abs := bi.natAbs
    let base := 10 ^ decimals
    let wholeUnrounded := abs / base
    let effectiveFix := effectiveFix wholeUnrounded fix
    let dropDigits := decimals - effectiveFix
    let halfUnit := if 0 < dropDigits then 10 ^ (dropDigits - 1) * 5 else 0
    let rounded := abs + halfUnit
    let whole := rounded / base
    let frac := rounded % base
    let fracStr := (padZeros decimals (showDec frac)).take effectiveFix
    let fracTrimmed := trimZeros fracStr
    if whole = 0 ∧ fracTrimmed = [] then approxText neg abs base
    else .text (signed neg (toLocaleString whole ++ pointed fracTrimmed))

end Format

end AllfeatExplorer
