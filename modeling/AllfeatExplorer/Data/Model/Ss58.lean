import AllfeatExplorer.Lib.Radix
import AllfeatExplorer.Common.Chain

/-!
# Addresses

The server's SS58 encoder: prefix bytes, account bytes and two checksum
bytes, in base 58. The base-58 text and the BLAKE2b digest are packages
of the server, taken as parameters, with what they are documented to
compute stated apart.
-/

namespace AllfeatExplorer

namespace Ss58

/-- The characters of a base-58 text, by digit. -/
def base58Alphabet : List Char :=
  "123456789ABCDEFGHJKLMNPQRSTUVWXYZabcdefghijkmnopqrstuvwxyz".toList

theorem base58Alphabet_length : base58Alphabet.length = 58 := by
  decide

theorem base58Alphabet_nodup : base58Alphabet.Nodup := by
  decide +kernel

/-- Numerals are read as bytes. -/
theorem byte_neZero : NeZero 256 :=
  ⟨by decide⟩

attribute [local instance] byte_neZero

/-- `CHECKSUM_PREFIX`: `b"SS58PRE"`. -/
def checksumPrefix : List Byte := [0x53, 0x53, 0x35, 0x38, 0x50, 0x52, 0x45]

/-- `CHECKSUM_LEN`. -/
def checksumLen : ℕ := 2

/-- **The packages the server's encoder calls**: `ToBase58` and
`Blake2b512`. -/
structure Crates where
  toBase58 : List Byte → List Char
  blake2b512 : List Byte → List Byte

/-- **What the packages are documented to compute**: the base-58 text of
the bytes, a `1` for each zero byte in front, and a digest of 64 bytes. -/
structure Crates.Documented (crates : Crates) : Prop where
  toBase58_eq : ∀ bytes, crates.toBase58 bytes = Radix.write base58Alphabet bytes
  digest_length : ∀ data, (crates.blake2b512 data).length = 64

/-- `encode_prefix`: one byte below 64, and two otherwise, which keep the
low 14 bits of the prefix. -/
def encodePrefix (p : UInt16) : List Byte :=
  if p < 64 then [p.toUInt8.toFin]
  else
    let p := p &&& 0x3fff
    let first := ((p &&& 0x00fc) >>> 2).toUInt8 ||| 0x40
    let second := (p >>> 8).toUInt8 ||| ((p &&& 0x0003).toUInt8 <<< 6)
    [first.toFin, second.toFin]

/-- `encode_ss58`. -/
def encodeSs58 (crates : Crates) (accountBytes : AccountId) (p : UInt16) : List Char :=
  let buf := encodePrefix p ++ accountBytes.bytes
  let checksum := crates.blake2b512 (checksumPrefix ++ buf)
  crates.toBase58 (buf ++ checksum.take checksumLen)

end Ss58

end AllfeatExplorer
