import AllfeatExplorer.Data.Model.Domain

/-!
# Filters

The filters of the list endpoints, and the predicates that apply them in
memory. A field that is absent excludes nothing.
-/

namespace AllfeatExplorer

/-- `BlockFilters`. -/
structure BlockFilters where
  finalized : Option Bool
  minExtrinsics : Option ℕ
deriving DecidableEq

/-- `ExtrinsicFilters`. -/
structure ExtrinsicFilters where
  signed : Option Bool
  pallet : Option String
  call : Option String
  status : Option CallResult
deriving DecidableEq

/-- `TransferFilters`: two SS58 texts. -/
structure TransferFilters where
  fromAddr : Option String
  toAddr : Option String
deriving DecidableEq

/-- `block_matches_filters`. -/
def blockMatchesFilters (block : Block) (filters : BlockFilters) : Bool :=
  (filters.finalized.all fun finalized => block.finalized = finalized) &&
  (filters.minExtrinsics.all fun min => !decide (block.extrinsicCount < min))

/-- `extrinsic_matches_filters`. -/
def extrinsicMatchesFilters (ext : Extrinsic) (filters : ExtrinsicFilters) : Bool :=
  (filters.signed.all fun signed => ext.signed = signed) &&
  (filters.pallet.all fun pallet => ext.module = pallet) &&
  (filters.call.all fun call => ext.call = call) &&
  (filters.status.all fun status => ext.result = status)

/-- **What the two in-memory scans keep of a block**: they skip the
unsigned extrinsic at index 0, then apply the filters. -/
def extrinsicSelected (ext : Extrinsic) (filters : ExtrinsicFilters) : Bool :=
  !(ext.index = 0 && !ext.signed) && extrinsicMatchesFilters ext filters

end AllfeatExplorer
