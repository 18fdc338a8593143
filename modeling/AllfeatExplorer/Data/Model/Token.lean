import AllfeatExplorer.Lib.Buckets
import AllfeatExplorer.Data.Model.Domain

/-!
# The token pallet

`mappers::token` and the vesting arithmetic of `domain`: what the pallet
stores of allocations and envelopes, and the overview, the details and an
account's list made of it. Amounts are `u128` and saturate where the
source says so; blocks are `u64`.
-/

namespace AllfeatExplorer

namespace Token

/-! ## Envelopes -/

/-- `domain::EnvelopeId`. -/
inductive EnvelopeId where
  | teams
  | koL
  | private1
  | private2
  | public1
  | public2
  | public3
  | public4
  | airdrop
  | communityRewards
  | listing
  | researchDevelopment
  | reserve
deriving DecidableEq

namespace EnvelopeId

/-- `EnvelopeId::label`. -/
def label : EnvelopeId → String
  | teams => "Teams"
  | koL => "KoL"
  | private1 => "Private Sale 1"
  | private2 => "Private Sale 2"
  | public1 => "Public Sale 1"
  | public2 => "Public Sale 2"
  | public3 => "Public Sale 3"
  | public4 => "Public Sale 4"
  | airdrop => "Airdrop"
  | communityRewards => "Community Rewards"
  | listing => "Listing"
  | researchDevelopment => "Research & Development"
  | reserve => "Reserve"

/-- `EnvelopeId::ALL`. -/
def all : List EnvelopeId :=
  [teams, koL, private1, private2, public1, public2, public3, public4, airdrop, communityRewards,
    listing, researchDevelopment, reserve]

/-- `EnvelopeId::variant_index`. -/
def variantIndex : EnvelopeId → ℕ
  | teams => 0
  | koL => 1
  | private1 => 2
  | private2 => 3
  | public1 => 4
  | public2 => 5
  | public3 => 6
  | public4 => 7
  | airdrop => 8
  | communityRewards => 9
  | listing => 10
  | researchDevelopment => 11
  | reserve => 12

end EnvelopeId

/-- `OnChainEnvelopeId`: the runtime's own enum. -/
inductive OnChainEnvelopeId where
  | teams
  | koL
  | private1
  | private2
  | public1
  | public2
  | public3
  | public4
  | airdrop
  | communityRewards
  | listing
  | researchDevelopment
  | reserve
deriving DecidableEq

/-- `to_onchain_envelope_id`. -/
def toOnchainEnvelopeId : EnvelopeId → OnChainEnvelopeId
  | .teams => .teams
  | .koL => .koL
  | .private1 => .private1
  | .private2 => .private2
  | .public1 => .public1
  | .public2 => .public2
  | .public3 => .public3
  | .public4 => .public4
  | .airdrop => .airdrop
  | .communityRewards => .communityRewards
  | .listing => .listing
  | .researchDevelopment => .researchDevelopment
  | .reserve => .reserve

/-- `to_domain_envelope_id`. -/
def toDomainEnvelopeId : OnChainEnvelopeId → EnvelopeId
  | .teams => .teams
  | .koL => .koL
  | .private1 => .private1
  | .private2 => .private2
  | .public1 => .public1
  | .public2 => .public2
  | .public3 => .public3
  | .public4 => .public4
  | .airdrop => .airdrop
  | .communityRewards => .communityRewards
  | .listing => .listing
  | .researchDevelopment => .researchDevelopment
  | .reserve => .reserve

/-- `OnChainEnvelopeConfig`. -/
structure OnChainEnvelopeConfig where
  totalCap : ℕ
  upfrontRate : ℕ
  cliff : ℕ
  vestingDuration : ℕ
  uniqueBeneficiary : Option AccountId
deriving DecidableEq

/-- `OnChainAllocation`. -/
structure OnChainAllocation where
  envelope : OnChainEnvelopeId
  beneficiary : AccountId
  total : ℕ
  upfront : ℕ
  vestedTotal : ℕ
  released : ℕ
  start : ℕ
deriving DecidableEq

/-- **What the node stores of the token**, at the block read. -/
structure TokenStorage where
  palletId : List Byte
  epochDuration : ℕ
  treasuryAccount : AccountId
  totalIssuance : ℕ
  epochIndex : ℕ
  nextPayoutAt : ℕ
  /-- `System::Account(treasury).free`. -/
  treasuryFree : ℕ
  /-- `Allocations`, in the order of the scan. -/
  allocations : List (ℕ × OnChainAllocation)
  envelopes : OnChainEnvelopeId → Option OnChainEnvelopeConfig
  envelopeDistributed : OnChainEnvelopeId → ℕ

/-! ## Vesting -/

/-- `a.saturating_add(b)` on `u128`. -/
def satAddU128 (a b : ℕ) : ℕ := min (a + b) u128Max

/-- `a.saturating_mul(b)` on `u128`. -/
def satMulU128 (a b : ℕ) : ℕ := min (a * b) u128Max

/-- `a - b` on `u64`, which faults below zero. -/
def checkedSubU64 (a b : ℕ) : Option ℕ := if b ≤ a then some (a - b) else none

/-- `a.saturating_div(b)`, which faults at a zero divisor. -/
def checkedDivU128 (a b : ℕ) : Option ℕ := if b = 0 then none else some (a / b)

/-- **`claimable_amount`**, with its faults. -/
def claimableAmount (headBlock startBlock vestedTotal released vestingDuration : ℕ) : Option ℕ :=
  if headBlock ≤ startBlock then some 0
  else
    (checkedSubU64 headBlock startBlock).bind fun elapsed =>
      if vestingDuration = 0 ∨ vestingDuration ≤ elapsed then some (vestedTotal - released)
      else
        (checkedDivU128 (satMulU128 vestedTotal elapsed) vestingDuration).map fun vestedNow =>
          vestedNow - released

/-- `domain::Allocation`. -/
structure Allocation where
  id : ℕ
  envelope : EnvelopeId
  beneficiary : String
  total : ℕ
  upfront : ℕ
  vestedTotal : ℕ
  released : ℕ
  startBlock : ℕ
  claimableNow : ℕ
  percentVested : ℕ
deriving DecidableEq

/-- `build_allocation`: vesting starts at the later of the allocation's own
start and the envelope's cliff. -/
def buildAllocation (net : Network) (allocId : ℕ) (alloc : OnChainAllocation)
    (cliff vestingDuration headBlock : ℕ) : Option Allocation :=
  let startBlock := max alloc.start cliff
  (claimableAmount headBlock startBlock alloc.vestedTotal alloc.released vestingDuration).map
    fun claimableNow =>
      { id := allocId
        envelope := toDomainEnvelopeId alloc.envelope
        beneficiary := net.encodeSs58 alloc.beneficiary
        total := alloc.total
        upfront := alloc.upfront
        vestedTotal := alloc.vestedTotal
        released := alloc.released
        startBlock := startBlock
        claimableNow := claimableNow
        percentVested :=
          ((checkedDivU128 (satMulU128 alloc.released 100) alloc.vestedTotal).map fun pct =>
            min pct 100).getD 100 }

/-! ## The overview -/

/-- `domain::EnvelopeInfo`. -/
structure EnvelopeInfo where
  id : EnvelopeId
  label : String
  account : String
  totalCap : ℕ
  distributed : ℕ
  upfrontPct : ℕ
  cliffBlocks : ℕ
  vestingDurationBlocks : ℕ
  uniqueBeneficiary : Option String
  allocationCount : ℕ
deriving DecidableEq

/-- `domain::TreasuryInfo`. -/
structure TreasuryInfo where
  account : String
  balance : ℕ
  locked : ℕ
deriving DecidableEq

/-- `domain::EpochInfo`. -/
structure EpochInfo where
  index : ℕ
  headBlock : ℕ
  nextPayoutBlock : ℕ
  epochDurationBlocks : ℕ
deriving DecidableEq

/-- `domain::TokenOverview`. -/
structure TokenOverview where
  symbol : String
  decimals : ℕ
  totalSupply : ℕ
  circulating : ℕ
  locked : ℕ
  envelopeReserves : ℕ
  treasury : TreasuryInfo
  epoch : EpochInfo
  envelopes : List EnvelopeInfo
deriving DecidableEq

/-- `domain::EnvelopeDetail`. -/
structure EnvelopeDetail where
  envelope : EnvelopeInfo
  allocations : List Allocation
deriving DecidableEq

/-- `AFT_DECIMALS`. -/
def aftDecimals : ℕ := 12

/-- `envelope_sub_account`: `modl`, the pallet's id, the variant, and
zeros. -/
def envelopeSubAccount (palletId : List Byte) (id : EnvelopeId) : AccountId where
  bytes := (([109, 111, 100, 108].map byte ++ palletId ++ [byte id.variantIndex]) ++
    List.replicate 32 (byte 0)).take 32
  length_eq := by
    rw [List.length_take, List.length_append, List.length_replicate]
    omega

/-- `build_envelope_info`. -/
def buildEnvelopeInfo (net : Network) (palletId : List Byte) (id : EnvelopeId)
    (config : OnChainEnvelopeConfig) (distributed : ℕ) (uniqueBeneficiary : Option String)
    (allocationCount : ℕ) : EnvelopeInfo :=
  { id := id
    label := id.label
    account := net.encodeSs58 (envelopeSubAccount palletId id)
    totalCap := config.totalCap
    distributed := distributed
    upfrontPct := config.upfrontRate
    cliffBlocks := config.cliff
    vestingDurationBlocks := config.vestingDuration
    uniqueBeneficiary := uniqueBeneficiary
    allocationCount := allocationCount }

/-- The scan of the allocations: what is locked, what of it for the
treasury, and the allocations of each envelope. -/
structure Tally where
  locked : ℕ
  treasuryLocked : ℕ
  buckets : Buckets EnvelopeId (ℕ × OnChainAllocation)

/-- One allocation of the scan. -/
def Tally.step (treasuryAccount : AccountId) (tally : Tally)
    (entry : ℕ × OnChainAllocation) : Tally :=
  let held := entry.2.vestedTotal - entry.2.released
  { locked := satAddU128 tally.locked held
    treasuryLocked :=
      if entry.2.beneficiary = treasuryAccount then satAddU128 tally.treasuryLocked held
      else tally.treasuryLocked
    buckets := tally.buckets.push (toDomainEnvelopeId entry.2.envelope) entry }

/-- The loop over the envelopes: the reserves, and the entries of those
that are registered. -/
def envelopeLoop (net : Network) (storage : TokenStorage) :
    List EnvelopeId → Buckets EnvelopeId (ℕ × OnChainAllocation) → ℕ × List EnvelopeInfo →
      ℕ × List EnvelopeInfo
  | [], _, acc => acc
  | id :: ids, buckets, (envelopeReserves, envelopes) =>
    let distributed := storage.envelopeDistributed (toOnchainEnvelopeId id)
    match storage.envelopes (toOnchainEnvelopeId id) with
    | none => envelopeLoop net storage ids buckets (envelopeReserves, envelopes)
    | some config =>
      let bucket := (buckets.get id).getD []
      let info := buildEnvelopeInfo net storage.palletId id config distributed
        (config.uniqueBeneficiary.map net.encodeSs58) (wrapU32 bucket.length)
      envelopeLoop net storage ids (buckets.remove id)
        (satAddU128 envelopeReserves (config.totalCap - distributed), envelopes ++ [info])

/-- **`build_token_overview`.** -/
def buildTokenOverview (net : Network) (storage : TokenStorage) (headBlock : ℕ)
    (tokenSymbol : String) : TokenOverview :=
  let tally := storage.allocations.foldl (Tally.step storage.treasuryAccount) ⟨0, 0, .empty⟩
  let (envelopeReserves, envelopes) := envelopeLoop net storage EnvelopeId.all tally.buckets (0, [])
  { symbol := tokenSymbol
    decimals := aftDecimals
    totalSupply := storage.totalIssuance
    circulating := storage.totalIssuance - tally.locked - envelopeReserves
    locked := tally.locked
    envelopeReserves := envelopeReserves
    treasury :=
      { account := net.encodeSs58 storage.treasuryAccount
        balance := storage.treasuryFree
        locked := tally.treasuryLocked }
    epoch :=
      { index := storage.epochIndex
        headBlock := headBlock
        nextPayoutBlock := storage.nextPayoutAt
        epochDurationBlocks := storage.epochDuration }
    envelopes := envelopes }

/-- **`build_envelope_detail`**: nothing where the envelope is not
registered. The outer `none` is a fault. -/
def buildEnvelopeDetail (net : Network) (storage : TokenStorage) (id : EnvelopeId)
    (headBlock : ℕ) : Option (Option EnvelopeDetail) :=
  match storage.envelopes (toOnchainEnvelopeId id) with
  | none => some none
  | some config =>
    let distributed := storage.envelopeDistributed (toOnchainEnvelopeId id)
    let mine := storage.allocations.filter fun a => toDomainEnvelopeId a.2.envelope = id
    (mine.mapM fun a =>
      buildAllocation net a.1 a.2 config.cliff config.vestingDuration headBlock).map
      fun collected =>
        let allocations := collected.mergeSort fun a b => decide (b.total ≤ a.total)
        some
          { envelope := buildEnvelopeInfo net storage.palletId id config distributed
              (config.uniqueBeneficiary.map net.encodeSs58) (wrapU32 allocations.length)
            allocations := allocations }

/-! ## The allocations of an account -/

/-- `fetch_envelope_config` of an envelope, of which the vesting needs the
cliff and the duration. -/
def envelopeTerms (storage : TokenStorage) (id : EnvelopeId) : ℕ × ℕ :=
  ((storage.envelopes (toOnchainEnvelopeId id)).map fun cfg =>
    (cfg.cliff, cfg.vestingDuration)).getD (0, 0)

/-- The terms of an envelope, read once: `config_cache` has those read
before. -/
def cachedTerms (storage : TokenStorage) (configCache : EnvelopeId → Option (ℕ × ℕ))
    (envelope : EnvelopeId) : (ℕ × ℕ) × (EnvelopeId → Option (ℕ × ℕ)) :=
  match configCache envelope with
  | some v => (v, configCache)
  | none =>
    let v := envelopeTerms storage envelope
    (v, fun id => if id = envelope then some v else configCache id)

/-- The loop over all allocations, those of other accounts passed over. -/
def accountLoop (net : Network) (storage : TokenStorage) (target : AccountId) (headBlock : ℕ) :
    List (ℕ × OnChainAllocation) → (EnvelopeId → Option (ℕ × ℕ)) → List Allocation →
      Option (List Allocation)
  | [], _, out => some out
  | (aid, alloc) :: rest, configCache, out =>
    if alloc.beneficiary ≠ target then
      accountLoop net storage target headBlock rest configCache out
    else
      let ((cliff, vestingDuration), configCache) :=
        cachedTerms storage configCache (toDomainEnvelopeId alloc.envelope)
      (buildAllocation net aid alloc cliff vestingDuration headBlock).bind fun a =>
        accountLoop net storage target headBlock rest configCache (out ++ [a])

/-- **`build_account_allocations`.** -/
def buildAccountAllocations (net : Network) (parseSs58 : String → Option AccountId)
    (storage : TokenStorage) (address : String) (headBlock : ℕ) : Option (List Allocation) :=
  match parseSs58 address with
  | none => some []
  | some target =>
    (accountLoop net storage target headBlock storage.allocations (fun _ => none) []).map fun out =>
      out.mergeSort fun a b => decide (b.total ≤ a.total)

end Token

end AllfeatExplorer
