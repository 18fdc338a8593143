import AllfeatExplorer.Data.Model.Lists
import AllfeatExplorer.Data.Model.Registry
import AllfeatExplorer.Data.Model.Stats

/-!
# One record, and the records of an owner

`ats_by_id` and the owner's list, of both paths. The database loads the
versions of one record by a query of its own and those of a page of
records together; the node has an index of each owner's ids, and its list
builds every record of the owner before it cuts the page out.
-/

namespace AllfeatExplorer

open Projections

namespace Queries

/-- `versions_for_ats`. -/
def versionsForAts (net : Network) (db : Db) (atsId : ℤ) : List AtsVersion :=
  (db.ats.children.rows.filter fun v => decide ((ofLex v.1).1 = atsId)).map (rowToVersion net db)

/-- **`queries::ats::ats_by_id`.** -/
def atsById (net : Network) (db : Db) (atsId : ℕ) : Option AtsRecord :=
  (db.ats.parents.find (atsId : ℤ)).map fun row =>
    let reg := registryRow db ((atsId : ℤ), row)
    registryToRecord net reg (versionsForAts net db reg.id)

/-- `account_ats_count`. -/
def accountAtsCount (parseSs58 : String → Option AccountId) (db : Db) (address : String) : ℕ :=
  match parseSs58 address with
  | none => 0
  | some owner => countU32 (db.ats.parents.rows.countP fun r => decide (r.2.owner = owner))

/-- **`list_account_ats_page`**: what is no address has no records,
whatever the cursor. -/
def listAccountAtsPage (net : Network) (parseSs58 : String → Option AccountId) (db : Db)
    (address : String) (req : PageRequest) : Except BadRequest (Page AtsRecord) :=
  if req.count = 0 then .ok .empty
  else
    match parseSs58 address with
    | none => .ok .empty
    | some owner => do
      let cursor ← parseCursor atsCursor req
      let rows := ((db.ats.parents.rows.filter fun r => decide (r.2.owner = owner) &&
        cursor.all fun id => decide (r.1 < asI64 id)).reverse).take (req.count + 1)
      let (truncated, hasMore) := trimProbe req.count (rows.map (registryRow db))
      pure
        { items := hydrateRecords net db truncated
          pageInfo :=
            { total := some (accountAtsCount parseSs58 db address)
              nextCursor := nextCursor hasMore (fun r => atsCursor.toText (rowAtsId r.id)) truncated
              hasMore := hasMore } }

end Queries

namespace Rpc

/-- `build_account_ats_count`, of the pallet's `OwnerIndex`. -/
def buildAccountAtsCount (parseSs58 : String → Option AccountId) (ownerIndex : AccountId → List ℕ)
    (address : String) : ℕ :=
  match parseSs58 address with
  | none => 0
  | some owner => wrapU32 (ownerIndex owner).length

/-- `build_account_ats`: the greatest ids, each with its record where it
still has one. -/
def buildAccountAts (net : Network) (parseSs58 : String → Option AccountId) (node : AtsNode)
    (ownerIndex : AccountId → List ℕ) (address : String) (limit : ℕ) : List AtsRecord :=
  if limit = 0 then []
  else
    match parseSs58 address with
    | none => []
    | some owner =>
      let ids := (ownerIndex owner).mergeSort fun a b => decide (b ≤ a)
      (ids.take limit).filterMap (buildAtsRecord net node)

/-- **`RpcProvider::account_ats`.** -/
def accountAts (net : Network) (parseSs58 : String → Option AccountId) (node : AtsNode)
    (ownerIndex : AccountId → List ℕ) (address : String) (req : PageRequest) :
    Except BadRequest (Page AtsRecord) :=
  if req.count = 0 then .ok .empty
  else do
    let cursor ← parseCursor atsCursor req
    let total := buildAccountAtsCount parseSs58 ownerIndex address
    let raw := buildAccountAts net parseSs58 node ownerIndex address total
    let filtered := raw.filter fun rec => cursor.all fun id => decide (rec.atsId < id)
    let hasMore := decide (req.count < filtered.length)
    let filtered := if hasMore then filtered.take req.count else filtered
    pure
      { items := filtered
        pageInfo :=
          { total := some total
            nextCursor :=
              if hasMore then filtered.getLast?.map fun rec => atsCursor.toText rec.atsId
              else none
            hasMore := hasMore } }

end Rpc

end AllfeatExplorer
