import AllfeatExplorer.Lib.Interned
import AllfeatExplorer.Indexer.Model.Worker

/-!
# The author lookup

`AuthorLookup` of `src/indexer/lookups.rs` over the `authors` table of
migration 004. Every process has one, with the ids it has read; every
worker of every network of the process calls it. A call reads the cache,
upserts on a miss and writes the cache, each under its own lock or in its
own statement, so the calls of all processes interleave between these.
-/

namespace AllfeatExplorer

/-- The unique key of `authors`: `(network_id, bytes)`. -/
abbrev AuthorKey := ℤ ×ₗ AccountId

/-- **The `authors` table**, with the sequence of its `SERIAL` id. -/
structure AuthorsTable where
  ids : Table AuthorKey ℕ
  /-- What the sequence answers next. -/
  nextval : ℕ
  numbered : Interned.Numbered ids nextval

namespace AuthorsTable

/-- The table as the migration leaves it. -/
def empty : AuthorsTable where
  ids := .empty
  nextval := 1
  numbered := .empty

/-- A value drawn for a row that is never written: a sequence is outside
the transaction. A `SERIAL` has the range of an `INT`. -/
def draw (t : AuthorsTable) : Option AuthorsTable :=
  if t.nextval ≤ i32Max then
    some
      { ids := t.ids
        nextval := t.nextval + 1
        numbered := t.numbered.skip (Nat.le_succ _) }
  else none

/-- `INSERT … ON CONFLICT (network_id, bytes) DO UPDATE … RETURNING id`.
The default of `id` is evaluated before the conflict is seen, so a value
is drawn for a row that is there too, and none being left is an error for
it as well. -/
def upsert (t : AuthorsTable) (key : AuthorKey) : Option (AuthorsTable × ℕ) :=
  if t.nextval ≤ i32Max then
    some
      ({ ids := t.ids.insertNew key t.nextval
         nextval := t.nextval + 1
         numbered := t.numbered.insertNew },
        (t.ids.find key).getD t.nextval)
  else none

end AuthorsTable

/-- Why the upsert failed. -/
inductive SerialError where
  | fault
  /-- `nextval: reached maximum value of sequence`. -/
  | exhausted
deriving DecidableEq

/-- The `DataError::Rpc` of `resolve`: its text names the network and the
cause. -/
structure ResolveError where
  networkSid : ℤ
  cause : SerialError
deriving DecidableEq

/-- **Where a call of `resolve` is.** -/
inductive ResolveStage where
  /-- Before it reads the cache. -/
  | reading
  /-- It missed. -/
  | upserting
  /-- It has the id and waits for the cache. -/
  | writing (id : ℕ)
  | returned (res : Except ResolveError ℕ)
  /-- It was dropped, or its process is gone. -/
  | cancelled
deriving DecidableEq

/-- A call of `resolve`, in process `proc`. -/
structure ResolveCall where
  proc : ℕ
  key : AuthorKey
  stage : ResolveStage
deriving DecidableEq

/-- **The table, the caches and the calls.** -/
structure AuthorsSys where
  authors : AuthorsTable
  /-- The cache of each process. -/
  cache : ℕ → AuthorKey → Option ℕ
  calls : ℕ → Option ResolveCall

inductive AuthorsAction where
  | call (i proc : ℕ) (key : AuthorKey)
  | read (i : ℕ)
  | upsert (i : ℕ) (outcome : Outcome)
  | write (i : ℕ)
  /-- A statement that does not take effect draws a value. -/
  | draw
  | cancel (i : ℕ)
  | restart (proc : ℕ)

namespace AuthorLookup

/-- Before the first process. -/
def start : AuthorsSys where
  authors := .empty
  cache := fun _ _ => none
  calls := fun _ => none

/-- A call moves on. -/
def setStage (s : AuthorsSys) (i : ℕ) (c : ResolveCall) (stage : ResolveStage) : AuthorsSys :=
  { s with calls := Function.update s.calls i (some { c with stage }) }

/-- Whether a call is over. -/
def isOver : ResolveStage → Bool
  | .returned _ | .cancelled => true
  | _ => false

/-- `AuthorLookup::get`. -/
def get (s : AuthorsSys) (proc : ℕ) (key : AuthorKey) : Option ℕ :=
  s.cache proc key

/-- The upsert of a call that missed. -/
def upsert (s : AuthorsSys) (i : ℕ) (c : ResolveCall) (outcome : Outcome) : AuthorsSys :=
  let failed (cause : SerialError) : ResolveStage := .returned (.error ⟨(ofLex c.key).1, cause⟩)
  match outcome with
  | .lost => setStage s i c (failed .fault)
  | .acked =>
    match s.authors.upsert c.key with
    | none => setStage s i c (failed .exhausted)
    | some (authors, id) => setStage { s with authors } i c (.writing id)
  | .unacked =>
    match s.authors.upsert c.key with
    | none => setStage s i c (failed .fault)
    | some (authors, _) => setStage { s with authors } i c (failed .fault)

/-- `cache.insert(key, id)`. -/
def writeCache (s : AuthorsSys) (proc : ℕ) (key : AuthorKey) (id : ℕ) : AuthorsSys :=
  { s with
    cache := Function.update s.cache proc (Function.update (s.cache proc) key (some id)) }

/-- A process is gone with its cache and the calls in it, and starts
again. -/
def restart (s : AuthorsSys) (proc : ℕ) : AuthorsSys :=
  { s with
    cache := Function.update s.cache proc fun _ => none
    calls := fun i => (s.calls i).map fun c =>
      if c.proc = proc ∧ isOver c.stage = false then { c with stage := .cancelled } else c }

/-- **One step of `resolve`**, or of what is around it. -/
def step (s : AuthorsSys) : AuthorsAction → Option AuthorsSys
  | .call i proc key =>
    match s.calls i with
    | none => some (setStage s i { proc, key, stage := .reading } .reading)
    | some _ => none
  | .read i =>
    match s.calls i with
    | some ⟨proc, key, .reading⟩ =>
      match get s proc key with
      | some id => some (setStage s i ⟨proc, key, .reading⟩ (.returned (.ok id)))
      | none => some (setStage s i ⟨proc, key, .reading⟩ .upserting)
    | _ => none
  | .upsert i outcome =>
    match s.calls i with
    | some ⟨proc, key, .upserting⟩ => some (upsert s i ⟨proc, key, .upserting⟩ outcome)
    | _ => none
  | .write i =>
    match s.calls i with
    | some ⟨proc, key, .writing id⟩ =>
      some (setStage (writeCache s proc key id) i ⟨proc, key, .writing id⟩ (.returned (.ok id)))
    | _ => none
  | .draw => s.authors.draw.map fun authors => { s with authors }
  | .cancel i =>
    match s.calls i with
    | some c => if isOver c.stage then none else some (setStage s i c .cancelled)
    | none => none
  | .restart proc => some (restart s proc)

end AuthorLookup

end AllfeatExplorer
