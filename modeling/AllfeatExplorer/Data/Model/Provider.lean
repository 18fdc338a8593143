import AllfeatExplorer.Data.Model.Queries
import AllfeatExplorer.Data.Model.Rpc

/-!
# `IndexedProvider`

Which of the two backends answers, for an indexed network without a
pending buffer. Each view has its own rule: the block view falls back on
the node when the row is missing, the extrinsic views when the number is
above the greatest one indexed.
-/

namespace AllfeatExplorer

/-- **`IndexedProvider`** at one indexed network: its codecs, its
database and its node. -/
structure IndexedProvider where
  net : Network
  db : Db
  node : Node

namespace IndexedProvider

/-- `indexed_head(…).unwrap_or(0)`. -/
def indexedHead (p : IndexedProvider) : ℕ := (Queries.indexedHead p.db).getD 0

/-- `block_by_number`. -/
def blockByNumber (p : IndexedProvider) (number : ℕ) : Option Block :=
  match Queries.blockByNumber p.net p.db number with
  | some block => some block
  | none => Rpc.blockByNumber p.net p.node number

/-- `extrinsics_in_block`. -/
def extrinsicsInBlock (p : IndexedProvider) (block : ℕ) : List Extrinsic :=
  let dbRows := Queries.extrinsicsInBlock p.net p.db block
  if !dbRows.isEmpty then dbRows
  else if block > p.indexedHead then Rpc.extrinsicsInBlock p.net p.node block
  else dbRows

/-- `extrinsic_by_id`. -/
def extrinsicById (p : IndexedProvider) (id : String) : Option Extrinsic :=
  match Queries.parseLookup id with
  | none => none
  | some (.blockIdx block idx) =>
    match Queries.extrinsicByBlockIdx p.net p.db block idx with
    | some ext => some ext
    | none =>
      if block > p.indexedHead then Rpc.extrinsicById p.net p.node id
      else none
  | some (.hash h) => Queries.extrinsicByHash p.net p.db h

end IndexedProvider

end AllfeatExplorer
