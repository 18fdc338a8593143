import AllfeatExplorer.Indexer.Model.Sink
import AllfeatExplorer.Indexer.Model.Backfill

/-!
# Indexing one block

`index_block`, in its live and its backfill form: read and project the
block, resolve its author outside the transaction, then every write of
the block in one transaction. The two forms differ in one statement: the
live one also moves the cursor.

What can go wrong on the way is an argument, `Faults`, so every pattern
of failures is a value.
-/

namespace AllfeatExplorer

open Projections

/-- **The database of one network.** -/
structure Db where
  /-- `authors`, with the id of each. -/
  authors : Table AccountId ℕ
  nextAuthorId : ℕ
  blocks : Table ℤ StoredBlock
  extrinsics : Table (ℤ ×ₗ ℤ) StoredExtrinsic
  events : Table (ℤ ×ₗ ℤ) StoredEvent
  balanceMovements : Table (ℤ ×ₗ ℤ ×ₗ AccountId) StoredMovement
  accountBalances : AccountTable
  ats : AtsTables
  /-- `last_indexed` of the `live` row of `indexer_cursor`. -/
  indexerCursor : Option ℤ
  backfillChunks : Backfill.Queue

/-- A migrated database with no row. -/
def Db.empty : Db where
  authors := .empty
  nextAuthorId := 1
  blocks := .empty
  extrinsics := .empty
  events := .empty
  balanceMovements := .empty
  accountBalances := .empty
  ats := .empty
  indexerCursor := none
  backfillChunks := .empty

/-- Block `n` has its row. -/
def Db.hasBlock (db : Db) (n : ℕ) : Prop := db.blocks.contains (asI64 n) = true

instance (db : Db) (n : ℕ) : Decidable (db.hasBlock n) :=
  inferInstanceAs (Decidable (_ = true))

/-- `AuthorLookup::resolve`. The cache in front of the table answers
what the table would. -/
def Db.resolveAuthor (db : Db) (bytes : AccountId) : Db × ℕ :=
  match db.authors.find bytes with
  | some id => (db, id)
  | none =>
    ({ db with
       authors := db.authors.insertNew bytes db.nextAuthorId
       nextAuthorId := db.nextAuthorId + 1 }, db.nextAuthorId)

/-! ## The transaction -/

/-- One statement of the transaction, and where its error says it is. -/
structure Stmt where
  site : Site
  exec : Db → Except DataError Db

/-- The statements of `index_block`, in order. -/
def blockStatements (p : BlockProjection) (num : ℕ) (authorId : Option ℕ) : List Stmt :=
  let blockTs := p.row.timestampMs
  [ ⟨.insertBlock, fun db => do
      let (blocks, _) ← Sink.insertBlock db.blocks (db.authors.rows.map Prod.snd) p.row authorId
      pure { db with blocks }⟩,
    ⟨.insertExtrinsics, fun db => do
      let extrinsics ← Sink.insertExtrinsics db.blocks db.extrinsics blockTs p.extrinsicRows
      pure { db with extrinsics }⟩,
    ⟨.insertEvents, fun db => do
      let events ← Sink.insertEvents db.blocks db.events blockTs p.eventRows
      pure { db with events }⟩,
    ⟨.insertBalanceMovements, fun db => do
      let balanceMovements ←
        Sink.insertBalanceMovements db.blocks db.balanceMovements p.balanceProjection.movements
      pure { db with balanceMovements }⟩,
    ⟨.applyAccountSnapshots, fun db => do
      let accountBalances ←
        Sink.applyAccountSnapshots db.accountBalances num blockTs p.snapshots
      pure { db with accountBalances }⟩ ] ++
  (if num = 0 then
    [ ⟨.applyAccountSnapshots, fun db => do
        let accountBalances ←
          Sink.applyAccountSnapshots db.accountBalances 0 blockTs p.genesisSnapshots
        pure { db with accountBalances }⟩ ]
  else []) ++
  [ ⟨.insertAtsVersion, fun db => do
      let ats ← Sink.applyAts db.ats p.atsOps
      pure { db with ats }⟩ ]

/-- The statement the live form adds. -/
def bumpStatement (num : ℕ) : Stmt :=
  ⟨.bumpCursor, fun db => .ok { db with indexerCursor := Sink.bumpCursor db.indexerCursor num }⟩

/-- How a write ends for the one that issued it. -/
inductive Outcome where
  /-- It took effect and is reported so. -/
  | acked
  /-- It did not take effect, and is reported failed. -/
  | lost
  /-- It took effect, and is reported failed. -/
  | unacked
deriving DecidableEq

/-- **What goes wrong in one `index_block`.** -/
structure Faults where
  /-- A read of the node fails, or does not decode. -/
  read : Bool := false
  /-- How the author's upsert ends. -/
  author : Outcome := .acked
  /-- The statement the connection fails at. -/
  statement : Option ℕ := none
  /-- How the commit ends. -/
  commit : Outcome := .acked
deriving DecidableEq

/-- Nothing failed before the commit that the block needs, and the commit
took effect. -/
def Faults.Through (f : Faults) : Prop :=
  f.read = false ∧ f.commit ≠ .lost

instance (f : Faults) : Decidable f.Through :=
  inferInstanceAs (Decidable (_ ∧ _))

/-- The statements one after the other, with a fault at one of them. -/
def execAll : List Stmt → Option ℕ → Db → Except DataError Db
  | [], _, db => .ok db
  | s :: _, some 0, _ => .error ⟨s.site, .fault⟩
  | s :: rest, faultAt, db => do
    let db ← s.exec db
    execAll rest (faultAt.map (· - 1)) db

/-- The transaction: nothing is kept of one that fails. -/
def transact (stmts : List Stmt) (f : Faults) (db : Db) : Db × Except DataError Unit :=
  match execAll stmts f.statement db with
  | .error e => (db, .error e)
  | .ok db' =>
    match f.commit with
    | .acked => (db', .ok ())
    | .lost => (db, .error ⟨.commitTx, .fault⟩)
    | .unacked => (db', .error ⟨.commitTx, .fault⟩)

/-- The author's id, resolved through the pool: what it writes stays
whatever becomes of the block. -/
def resolveRowAuthor (f : Faults) (author : Option AccountId) (db : Db) :
    Db × Except DataError (Option ℕ) :=
  match author with
  | none => (db, .ok none)
  | some bytes =>
    match f.author with
    | .acked => ((db.resolveAuthor bytes).1, .ok (some (db.resolveAuthor bytes).2))
    | .lost => (db, .error ⟨.authorsResolve, .fault⟩)
    | .unacked => ((db.resolveAuthor bytes).1, .error ⟨.authorsResolve, .fault⟩)

/-- `index_block`, with the statements a form adds to the block's own. -/
def indexBlockWith (extra : List Stmt) (chain : Chain) (num : ℕ) (f : Faults) (db : Db) :
    Db × Except DataError Unit :=
  if f.read then (db, .error ⟨.node, .fault⟩)
  else
    let p := projectAt (chain num) num
    match resolveRowAuthor f p.row.author db with
    | (db, .error e) => (db, .error e)
    | (db, .ok authorId) => transact (blockStatements p num authorId ++ extra) f db

/-- **`LiveWorker::index_block`.** -/
def Live.indexBlock (chain : Chain) (num : ℕ) (f : Faults) (db : Db) :
    Db × Except DataError Unit :=
  indexBlockWith [bumpStatement num] chain num f db

/-- **`BackfillWorker::index_block`.** -/
def Backfill.indexBlock (chain : Chain) (num : ℕ) (f : Faults) (db : Db) :
    Db × Except DataError Unit :=
  indexBlockWith [] chain num f db

end AllfeatExplorer
