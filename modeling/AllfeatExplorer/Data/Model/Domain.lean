import AllfeatExplorer.Common.Machine
import AllfeatExplorer.Common.Chain
import AllfeatExplorer.Lib.Decimal

/-!
# What the read side shows

The domain values the endpoints answer with, and the texts put into them:
hex, short labels, `block-index` ids. SS58 addresses and decoded fields
come from third-party codecs at a network's own prefix and metadata;
`Network` stands for them.
-/

namespace AllfeatExplorer

/-! ## `domain` -/

/-- `domain::Block`. -/
structure Block where
  number : ℕ
  hash : String
  parentHash : String
  stateRoot : String
  extrinsicsRoot : String
  timestampMs : ℤ
  finalized : Bool
  extrinsicCount : ℕ
  eventCount : ℕ
  author : String
  authorName : String
  refTime : ℕ
  refTimePct : ℕ
  proofSize : ℕ
  specVersion : ℕ
  sizeBytes : ℕ
deriving DecidableEq

/-- `domain::EventField`. -/
structure EventField where
  name : Option String
  value : String
deriving DecidableEq

/-- `domain::EventRef`. -/
structure EventRef where
  module : String
  name : String
  fields : List EventField
deriving DecidableEq

/-- `domain::CallField`. -/
structure CallField where
  name : Option String
  typeName : Option String
  value : String
deriving DecidableEq

/-- `domain::ExtrinsicArgs`. -/
inductive ExtrinsicArgs where
  | decoded (fields : List CallField)
  | raw (hex : String)
deriving DecidableEq

/-- `domain::CallResult`. -/
inductive CallResult where
  | success
  | failed
deriving DecidableEq

/-- `domain::Extrinsic`. -/
structure Extrinsic where
  id : String
  blockNumber : ℕ
  index : ℕ
  hash : String
  module : String
  call : String
  signed : Bool
  signer : Option String
  args : ExtrinsicArgs
  result : CallResult
  nonce : Option ℕ
  tip : ℕ
  fee : ℕ
  timestampMs : ℤ
  events : List EventRef
deriving DecidableEq

/-- `x.events = evs`. -/
def Extrinsic.setEvents (x : Extrinsic) (evs : List EventRef) : Extrinsic :=
  { x with events := evs }

/-- `domain::EventPhase`. -/
inductive EventPhase where
  | initialization
  | applyExtrinsic (index : ℕ)
  | finalization
deriving DecidableEq

/-- `domain::BlockEvent`. -/
structure BlockEvent where
  blockNumber : ℕ
  index : ℕ
  phase : EventPhase
  module : String
  name : String
  fields : List EventField
  timestampMs : ℤ
deriving DecidableEq

/-- `domain::Transfer`. -/
structure Transfer where
  extrinsic : Extrinsic
  fromAddr : String
  toAddr : String
  amount : ℕ
deriving DecidableEq

/-- `domain::AtsVersion`. -/
structure AtsVersion where
  versionIndex : ℕ
  commitment : String
  protocolVersion : ℕ
  createdAtMs : ℤ
  blockNumber : ℕ
  extrinsicIndex : ℕ
  extrinsicId : String
  fee : ℕ
  signer : String
deriving DecidableEq

/-- `domain::Deposit`. -/
structure Deposit where
  address : String
  amount : ℕ
deriving DecidableEq

/-- `VERSION_DEPOSIT`. -/
def versionDeposit : ℕ := 500000000000

/-- `domain::AtsRecord`. -/
structure AtsRecord where
  atsId : ℕ
  owner : String
  createdAtMs : ℤ
  createdAtBlock : ℕ
  versionCount : ℕ
  deposits : List Deposit
  totalDeposit : ℕ
  versions : List AtsVersion
deriving DecidableEq

/-- `domain::AtsFeedItem`. -/
structure AtsFeedItem where
  atsId : ℕ
  owner : String
  versionIndex : ℕ
  isInitial : Bool
  isLatest : Bool
  versionCount : ℕ
  commitment : String
  protocolVersion : ℕ
  blockNumber : ℕ
  extrinsicId : String
  timestampMs : ℤ
  signer : String
deriving DecidableEq

/-- `ats_id_u32`: ids above `u32::MAX` are shown as it. -/
def atsIdU32 (id : ℕ) : ℕ := if id ≤ u32Max then id else u32Max

/-! ## Texts -/

/-- The digits of one byte in `hex_bytes`. -/
def hexByte (b : Byte) : List Char :=
  [Nat.digitChar (b.val / 16), Nat.digitChar (b.val % 16)]

/-- `hex_bytes`: `0x` and lowercase hex. -/
def hexBytes (bytes : List Byte) : String :=
  String.ofList ('0' :: 'x' :: bytes.flatMap hexByte)

/-- `hash_string`. -/
def hashString (h : Bytes32) : String := hexBytes h.bytes

/-- `short_label`: six characters, an ellipsis, four. -/
def shortLabel (ss58 : String) : String :=
  let cs := ss58.toList
  if cs.length ≤ 12 then ss58
  else String.ofList (cs.take 6 ++ '…' :: (cs.reverse.take 4).reverse)

/-- `extrinsic_id`. -/
def extrinsicId (block index : ℕ) : String :=
  String.ofList (Decimal.showDec block ++ '-' :: Decimal.showDec index)

/-- `parse_extrinsic_id`. -/
def parseExtrinsicId (id : String) : Option (ℕ × ℕ) := do
  let (b, i) ← Decimal.splitOnce '-' id.toList
  let block ← Decimal.readDec u64Max b
  let index ← Decimal.readDec u32Max i
  pure (block, index)

/-- The value of a hex digit, in either case. -/
def hexVal (c : Char) : Option ℕ :=
  if '0' ≤ c ∧ c ≤ '9' then some (c.toNat - '0'.toNat)
  else if 'a' ≤ c ∧ c ≤ 'f' then some (c.toNat - 'a'.toNat + 10)
  else if 'A' ≤ c ∧ c ≤ 'F' then some (c.toNat - 'A'.toNat + 10)
  else none

/-- `hex::decode`. -/
def hexDecode : List Char → Option (List Byte)
  | [] => some []
  | [_] => none
  | hi :: lo :: rest => do
    let hi ← hexVal hi
    let lo ← hexVal lo
    let bytes ← hexDecode rest
    pure (byte (hi * 16 + lo) :: bytes)

/-- `decode_hex32`: 64 hex digits, with or without `0x`. -/
def decodeHex32 (s : String) : Option Bytes32 :=
  let trimmed := match s.toList with
    | '0' :: 'x' :: rest => rest
    | cs => cs
  (hexDecode trimmed).bind fun bytes =>
    if h : bytes.length = 32 then some ⟨bytes, h⟩ else none

/-- An id splits at its dash. -/
theorem splitOnce_extrinsicId {b i : ℕ} :
    Decimal.splitOnce '-' (extrinsicId b i).toList =
      some (Decimal.showDec b, Decimal.showDec i) := by
  unfold extrinsicId
  rw [String.toList_ofList]
  exact Decimal.splitOnce_append (Decimal.not_mem_showDec (by decide))

/-- **The id of an extrinsic reads back.** -/
theorem parseExtrinsicId_extrinsicId {b i : ℕ} (hb : b ≤ u64Max) (hi : i ≤ u32Max) :
    parseExtrinsicId (extrinsicId b i) = some (b, i) := by
  have hblock : Decimal.readDec u64Max (Decimal.showDec b) = some b := Decimal.readDec_showDec hb
  have hindex : Decimal.readDec u32Max (Decimal.showDec i) = some i := Decimal.readDec_showDec hi
  simp only [parseExtrinsicId, splitOnce_extrinsicId, Option.bind_eq_bind, Option.bind_some,
    hblock, hindex]
  rfl

/-! ## A network's codecs -/

/-- **What a network's codecs make of bytes**: `encode_ss58` at its
prefix, and `decode_call_fields` and `decode_event_fields` at its runtime
metadata, which answer no field where they cannot decode. -/
structure Network where
  encodeSs58 : AccountId → String
  decodeCallFields : String → String → List Byte → List CallField
  decodeEventFields : String → String → List Byte → List EventField

/-- A network that shows every account alike, and decodes no field. -/
def plainNetwork : Network where
  encodeSs58 := fun _ => "account"
  decodeCallFields := fun _ _ _ => []
  decodeEventFields := fun _ _ _ => []

namespace Network

/-- `decode_call_args`: the two bytes that name the call are dropped, and
what does not decode is shown as hex. -/
def decodeCallArgs (net : Network) (pallet call : String) (data : List Byte) : ExtrinsicArgs :=
  if data.length < 2 then .raw (hexBytes data)
  else
    let argsOnly := data.drop 2
    let fields := net.decodeCallFields pallet call argsOnly
    if fields.isEmpty && !argsOnly.isEmpty then .raw (hexBytes data) else .decoded fields

/-- The address shown for a block's author, and its label. -/
def authorLabels (net : Network) (author : Option AccountId) : String × String :=
  match author with
  | some account => (net.encodeSs58 account, shortLabel (net.encodeSs58 account))
  | none => ("unknown", "unknown")

/-- The `EventRef` of an event's names and bytes. -/
def eventRef (net : Network) (pallet variant : String) (data : List Byte) : EventRef :=
  { module := pallet, name := variant, fields := net.decodeEventFields pallet variant data }

end Network

end AllfeatExplorer
