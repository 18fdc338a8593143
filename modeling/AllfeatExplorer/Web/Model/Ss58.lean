import AllfeatExplorer.Data.Model.Ss58

/-!
# Addresses in the browser

`utils/ss58.ts`: the browser's own codec, which shows an address under
another prefix without asking the server. Its base-58 and BLAKE2b modules
are parameters; what it throws is the message of an `Except`.
-/

namespace AllfeatExplorer

namespace WebSs58

/-- **The modules the codec imports**: `base58` of `@scure/base` and
`blake2b` of `@noble/hashes`. -/
structure Modules where
  base58Encode : List Byte → List Char
  base58Decode : List Char → Except String (List Byte)
  blake2b : List Byte → List Byte

/-- **What the modules are documented to compute.** -/
structure Modules.Documented (modules : Modules) : Prop where
  encode_eq : ∀ bytes, modules.base58Encode bytes = Radix.write Ss58.base58Alphabet bytes
  decode_iff : ∀ text bytes, modules.base58Decode text = .ok bytes ↔
    Radix.read 256 Ss58.base58Alphabet text = some bytes
  digest_length : ∀ data, (modules.blake2b data).length = 64

attribute [local instance] Ss58.byte_neZero

/-- `SS58_PRE`. -/
def ss58Pre : List Byte := [0x53, 0x53, 0x35, 0x38, 0x50, 0x52, 0x45]

/-- `ss58Checksum`. -/
def ss58Checksum (modules : Modules) (payload : List Byte) : List Byte :=
  (modules.blake2b (ss58Pre ++ payload)).take 2

/-- `encodePrefix`, of a whole number. -/
def encodePrefix (p : ℤ) : Except String (List Byte) :=
  if p < 0 ∨ 16383 < p then .error s!"SS58 prefix out of range: {p}"
  else
    let p := p.toNat
    if p < 64 then .ok [byte p]
    else
      let lo := ((p &&& 0x00fc) >>> 2) ||| 0x40
      let hi := (p >>> 8) ||| ((p &&& 0x0003) <<< 6)
      .ok [byte lo, byte hi]

/-- `decodePrefix`: the prefix, and how many bytes it takes. -/
def decodePrefix (bytes : List Byte) : Except String (ℕ × ℕ) :=
  match bytes[0]? with
  | none => .error "SS58: empty payload"
  | some b0 =>
    if b0.val < 64 then .ok (b0.val, 1)
    else if b0.val < 128 then
      match bytes[1]? with
      | none => .error "SS58: truncated 2-byte prefix"
      | some b1 =>
        .ok (((b0.val &&& 0x3f) <<< 2) ||| (b1.val >>> 6) ||| ((b1.val &&& 0x3f) <<< 8), 2)
    else .error s!"SS58: invalid leading byte 0x{String.ofList (Nat.toDigits 16 b0.val)}"

/-- `{ publicKey, prefix }`. -/
structure Decoded where
  publicKey : List Byte
  ss58Prefix : ℕ
deriving DecidableEq

/-- `decodeSs58`. -/
def decodeSs58 (modules : Modules) (addr : List Char) : Except String Decoded := do
  let raw ← modules.base58Decode addr
  let (p, prefixLen) ← decodePrefix raw
  if raw.length < prefixLen + 2 then throw "SS58: address too short"
  let payload := raw.take (raw.length - 2)
  let checksum := raw.drop (raw.length - 2)
  let expected := ss58Checksum modules payload
  if checksum[0]? ≠ expected[0]? ∨ checksum[1]? ≠ expected[1]? then
    throw "SS58: checksum mismatch"
  return ⟨payload.drop prefixLen, p⟩

/-- `encodeSs58`. -/
def encodeSs58 (modules : Modules) (publicKey : List Byte) (p : ℤ) :
    Except String (List Char) := do
  let prefixBytes ← encodePrefix p
  let payload := prefixBytes ++ publicKey
  let checksum := ss58Checksum modules payload
  return modules.base58Encode (payload ++ checksum)

/-- `reencodeSs58`. -/
def reencodeSs58 (modules : Modules) (addr : List Char) (p : ℤ) : Except String (List Char) := do
  let decoded ← decodeSs58 modules addr
  encodeSs58 modules decoded.publicKey p

end WebSs58

end AllfeatExplorer
