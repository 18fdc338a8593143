import AllfeatExplorer.Lib.Table
import Mathlib.Order.Fin.Basic
import Mathlib.Data.List.Lex
import Mathlib.Data.Prod.Lex

/-!
# The chain a node serves

What the indexer reads of a block: header, extrinsics, events and the
`System::Account` map, each value as the node's decoder hands it over. A
read or a decode that fails is a fault of the step that reads, not a
value here.

An event is one constructor for each variant the projections match on,
and `other` for the rest; the pallet and event names they match are
read off the constructor.
-/

namespace AllfeatExplorer

/-- A byte. -/
abbrev Byte := Fin 256

/-- The byte of a value below 256. -/
def byte (n : ℕ) : Byte := Fin.ofNat 256 n

/-- **`[u8; 32]`**: an account, a hash, a commitment. -/
structure Bytes32 where
  bytes : List Byte
  length_eq : bytes.length = 32
deriving DecidableEq

namespace Bytes32

theorem bytes_injective : Function.Injective Bytes32.bytes := by
  rintro ⟨a, ha⟩ ⟨b, hb⟩ h
  cases h
  rfl

/-- The order of a `BYTEA` column: bytewise, left to right. -/
instance : LinearOrder Bytes32 := LinearOrder.lift' Bytes32.bytes bytes_injective

/-- `[b; 32]`. -/
def fill (b : ℕ) : Bytes32 := ⟨List.replicate 32 (byte b), List.length_replicate⟩

end Bytes32

/-- An account id. -/
abbrev AccountId := Bytes32

/-- `AccountSnapshot`: one absolute `System::Account` reading. -/
structure AccountSnapshot where
  free : ℕ
  reserved : ℕ
  frozen : ℕ
  nonce : ℕ
deriving DecidableEq

/-- `AccountSnapshot::default()`: what an account with no storage entry
reads as. -/
instance : Inhabited AccountSnapshot := ⟨⟨0, 0, 0, 0⟩⟩

/-- The part of block execution an event was deposited in. -/
inductive Phase where
  | applyExtrinsic (i : ℕ)
  | finalization
  | initialization
deriving DecidableEq

/-- **An event's decoded fields**, by variant. -/
inductive EventBody where
  | transfer (fromAcct toAcct : AccountId) (amount : ℕ)
  | deposit (who : AccountId) (amount : ℕ)
  | withdraw (who : AccountId) (amount : ℕ)
  | slashed (who : AccountId) (amount : ℕ)
  | reserved (who : AccountId) (amount : ℕ)
  | unreserved (who : AccountId) (amount : ℕ)
  | reserveRepatriated (fromAcct toAcct : AccountId) (amount : ℕ)
  | burned (who : AccountId) (amount : ℕ)
  | minted (who : AccountId) (amount : ℕ)
  | frozen (who : AccountId) (amount : ℕ)
  | thawed (who : AccountId) (amount : ℕ)
  | locked (who : AccountId) (amount : ℕ)
  | unlocked (who : AccountId) (amount : ℕ)
  | held (who : AccountId) (amount : ℕ)
  | released (who : AccountId) (amount : ℕ)
  | burnedHeld (who : AccountId) (amount : ℕ)
  | transferAndHold (source dest : AccountId) (transferred : ℕ)
  | transferOnHold (source dest : AccountId) (amount : ℕ)
  | endowed (account : AccountId) (freeBalance : ℕ)
  | dustLost (account : AccountId) (amount : ℕ)
  | restored (who : AccountId) (amount : ℕ)
  | suspended (who : AccountId) (amount : ℕ)
  | balanceSet (who : AccountId)
  | upgraded (who : AccountId)
  | transactionFeePaid (who : AccountId) (actualFee : ℕ)
  | atsCreated (atsId : UInt64) (owner : AccountId) (commitment : Bytes32) (protocolVersion : ℕ)
  | atsUpdated (atsId : UInt64) (version : UInt32) (commitment : Bytes32) (protocolVersion : ℕ)
  | atsRevoked (atsId : UInt64)
  | extrinsicFailed
  | other (pallet variant : String)
deriving DecidableEq

namespace EventBody

/-- `evt.pallet_name()`. -/
def palletName : EventBody → String
  | transactionFeePaid .. => "TransactionPayment"
  | atsCreated .. | atsUpdated .. | atsRevoked .. => "Ats"
  | extrinsicFailed => "System"
  | other pallet _ => pallet
  | _ => "Balances"

/-- `evt.event_name()`. -/
def eventName : EventBody → String
  | transfer .. => "Transfer"
  | deposit .. => "Deposit"
  | withdraw .. => "Withdraw"
  | slashed .. => "Slashed"
  | reserved .. => "Reserved"
  | unreserved .. => "Unreserved"
  | reserveRepatriated .. => "ReserveRepatriated"
  | burned .. => "Burned"
  | minted .. => "Minted"
  | frozen .. => "Frozen"
  | thawed .. => "Thawed"
  | locked .. => "Locked"
  | unlocked .. => "Unlocked"
  | held .. => "Held"
  | released .. => "Released"
  | burnedHeld .. => "BurnedHeld"
  | transferAndHold .. => "TransferAndHold"
  | transferOnHold .. => "TransferOnHold"
  | endowed .. => "Endowed"
  | dustLost .. => "DustLost"
  | restored .. => "Restored"
  | suspended .. => "Suspended"
  | balanceSet .. => "BalanceSet"
  | upgraded .. => "Upgraded"
  | transactionFeePaid .. => "TransactionFeePaid"
  | atsCreated .. => "AtsCreated"
  | atsUpdated .. => "AtsUpdated"
  | atsRevoked .. => "AtsRevoked"
  | extrinsicFailed => "ExtrinsicFailed"
  | other _ variant => variant

end EventBody

/-- One event of a block. -/
structure NodeEvent where
  phase : Phase
  body : EventBody
  /-- `evt.field_bytes()`. -/
  fieldBytes : List Byte
deriving DecidableEq

/-- `MultiAddress<AccountId32, u32>`. -/
inductive MultiAddress where
  | id (account : AccountId)
  | index (i : ℕ)
  | raw (bytes : List Byte)
  | address32 (bytes : Bytes32)
  | address20 (bytes : List Byte)
deriving DecidableEq

/-- One extrinsic of a block. -/
structure NodeExtrinsic where
  hash : Bytes32
  palletName : String
  callName : String
  /-- `ext.address_bytes()`, absent on an unsigned extrinsic, and what they
  decode to, absent on bytes that do not. -/
  addressBytes : Option (Option MultiAddress)
  nonce : Option ℕ
  tip : Option ℕ
  callData : List Byte
  /-- `ext.bytes().len()`. -/
  byteLength : ℕ
deriving DecidableEq

namespace NodeExtrinsic

/-- `ext.is_signed()`. -/
def isSigned (ext : NodeExtrinsic) : Bool := ext.addressBytes.isSome

/-- The signing address, where there is one and it decodes. -/
def address (ext : NodeExtrinsic) : Option MultiAddress := ext.addressBytes.join

end NodeExtrinsic

/-- **One block as the node serves it.** -/
structure NodeBlock where
  hash : Bytes32
  parentHash : Bytes32
  stateRoot : Bytes32
  extrinsicsRoot : Bytes32
  /-- The validator the block's slot falls to. -/
  author : Option AccountId
  /-- `Timestamp::Now`, absent at genesis. -/
  now : Option ℕ
  specVersion : ℕ
  refTime : ℕ
  proofSize : ℕ
  refTimePct : ℕ
  /-- `header.encoded_size()`. -/
  headerSize : ℕ
  extrinsics : List NodeExtrinsic
  events : List NodeEvent
  /-- `System::Account` at the block's hash. -/
  systemAccount : Table AccountId AccountSnapshot

/-- **The finalized chain**: the node serves one block a number. A read
above the head fails, which is a fault of the read. -/
abbrev Chain := ℕ → NodeBlock

/-- A chain of blocks with nothing in them, told apart by their hashes
up to number 255. -/
def bareChain : Chain := fun n =>
  { hash := .fill n
    parentHash := .fill 0
    stateRoot := .fill 0
    extrinsicsRoot := .fill 0
    author := none
    now := none
    specVersion := 1
    refTime := 0
    proofSize := 0
    refTimePct := 0
    headerSize := 0
    extrinsics := []
    events := []
    systemAccount := .empty }

end AllfeatExplorer
