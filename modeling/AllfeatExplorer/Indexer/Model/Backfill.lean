import AllfeatExplorer.Lib.Table
import AllfeatExplorer.Common.Machine

/-!
# The backfill queue

`split_gaps_into_chunks`, and the statements on `backfill_chunks`: seed,
claim, retire, release. Each statement is one atomic step on the queue.
Times are microseconds.
-/

namespace AllfeatExplorer

namespace Backfill

/-! ## The gaps -/

/-- The loop of `push_chunked`. Each turn covers a block more of
`[f, to]`, so `to - f + 1` turns are enough. -/
def pushChunkedLoop (to' chunkSize : ℕ) : ℕ → ℕ → List (ℕ × ℕ) → List (ℕ × ℕ)
  | 0, _, out => out
  | fuel + 1, f, out =>
    let last := min (satAddU64 f (chunkSize - 1)) to'
    let out := out ++ [(f, last)]
    if last = to' then out else pushChunkedLoop to' chunkSize fuel (last + 1) out

/-- `push_chunked`. -/
def pushChunked (out : List (ℕ × ℕ)) (from' to' chunkSize : ℕ) : List (ℕ × ℕ) :=
  pushChunkedLoop to' chunkSize (to' - from' + 1) from' out

/-- One turn of the loop over the blocks present: the chunks so far, and
the first block not accounted for. -/
def gapStep (head chunkSize : ℕ) (st : List (ℕ × ℕ) × ℕ) (present : ℕ) : List (ℕ × ℕ) × ℕ :=
  let (chunks, cursor) := st
  if present > head ∨ present < cursor then (chunks, cursor)
  else
    let chunks :=
      if present > cursor then pushChunked chunks cursor (present - 1) chunkSize else chunks
    (chunks, satAddU64 present 1)

/-- **`split_gaps_into_chunks`**: `[0, head]` less the blocks present,
in ranges. A chunk size of zero panics. -/
def splitGapsIntoChunks (head : ℕ) (existingSorted : List ℕ) (chunkSize : ℕ) :
    Option (List (ℕ × ℕ)) :=
  if chunkSize = 0 then none
  else
    let (chunks, cursor) := existingSorted.foldl (gapStep head chunkSize) ([], 0)
    if cursor ≤ head then some (pushChunked chunks cursor head chunkSize) else some chunks

/-! ## `backfill_chunks` -/

/-- `status`. -/
inductive ChunkStatus where
  | pending
  | running
  | done
deriving DecidableEq

/-- A row of `backfill_chunks`, under `id`. -/
structure ChunkRow where
  fromBlock : ℤ
  toBlock : ℤ
  status : ChunkStatus
  leaseUntil : Option ℤ
  lastError : Option String
deriving DecidableEq

/-- **`backfill_chunks`** with its `BIGSERIAL`: the sequence is past
every id handed out, so a fresh id is free. -/
structure Queue where
  rows : Table ℕ ChunkRow
  nextId : ℕ
  fresh : ∀ id, rows.contains id = true → id < nextId

/-- A queue with no row. -/
def Queue.empty : Queue where
  rows := .empty
  nextId := 1
  fresh := by
    intro id h
    simp [Table.contains] at h

/-- A row rewritten. -/
def Queue.set (q : Queue) (id : ℕ) (f : ChunkRow → ChunkRow) : Queue where
  rows := q.rows.update id f
  nextId := q.nextId
  fresh := by
    intro id' h
    rw [Table.contains_update] at h
    exact q.fresh id' h

/-- Whether `(from_block, to_block)` is taken, which `UNIQUE` looks up. -/
def Queue.hasRange (q : Queue) (from' to' : ℤ) : Bool :=
  q.rows.rows.any fun r => r.2.fromBlock = from' && r.2.toBlock = to'

/-- The insert of `seed_chunks`, `ON CONFLICT (from_block, to_block) DO
NOTHING`; the sequence moves on either way. -/
def Queue.insert (q : Queue) (range : ℕ × ℕ) : Queue :=
  if q.hasRange (asI64 range.1) (asI64 range.2) then
    { q with
      nextId := q.nextId + 1
      fresh := fun id h => Nat.lt_succ_of_lt (q.fresh id h) }
  else
    { rows := q.rows.insertNew q.nextId
        { fromBlock := asI64 range.1
          toBlock := asI64 range.2
          status := .pending
          leaseUntil := none
          lastError := none }
      nextId := q.nextId + 1
      fresh := by
        intro id h
        rw [Table.contains_insertNew, Bool.or_eq_true, decide_eq_true_eq] at h
        rcases h with rfl | h
        · exact Nat.lt_succ_self _
        · exact Nat.lt_succ_of_lt (q.fresh id h) }

/-- The insert loop of `seed_chunks`, one transaction. -/
def Queue.insertAll (q : Queue) (ranges : List (ℕ × ℕ)) : Queue :=
  ranges.foldl Queue.insert q

/-- `LEASE_DURATION`: five minutes. -/
def leaseDuration : ℤ := 300000000

/-- The `WHERE` of `claim_chunk`: pending, or running on a lapsed lease. -/
def ChunkRow.claimable (row : ChunkRow) (now : ℤ) : Bool :=
  match row.status with
  | .pending => true
  | .running => row.leaseUntil.all fun lease => lease < now
  | .done => false

/-- `ClaimedChunk`. -/
structure ClaimedChunk where
  id : ℕ
  fromBlock : ℕ
  toBlock : ℕ
deriving DecidableEq

/-- The sub-select of `claim_chunk`: the first claimable row by id that
no concurrent transaction has locked. -/
def Queue.next (q : Queue) (now : ℤ) (locked : List ℕ) : Option (ℕ × ChunkRow) :=
  q.rows.rows.find? fun r => r.1 ∉ locked && r.2.claimable now

/-- **`claim_chunk`.** -/
def claimChunk (q : Queue) (now : ℤ) (locked : List ℕ) : Queue × Option ClaimedChunk :=
  match q.next now locked with
  | none => (q, none)
  | some (id, row) =>
    (q.set id fun row => { row with status := .running, leaseUntil := some (now + leaseDuration) },
      some { id := id, fromBlock := asU64 row.fromBlock, toBlock := asU64 row.toBlock })

/-- **`mark_chunk_done`**: keyed by the id alone. -/
def markChunkDone (q : Queue) (id : ℕ) : Queue :=
  q.set id fun row => { row with status := .done, leaseUntil := none, lastError := none }

/-- `LAST_ERROR_CAP`. -/
def lastErrorCap : ℕ := 2048

/-- The longest run of whole characters within `room` bytes. -/
def takeBytes : ℕ → List Char → List Char
  | _, [] => []
  | room, c :: cs => if c.utf8Size ≤ room then c :: takeBytes (room - c.utf8Size) cs else []

/-- `truncate_error`. -/
def truncateError (s : String) : String :=
  if s.utf8ByteSize ≤ lastErrorCap then s
  else String.ofList (takeBytes lastErrorCap s.toList ++ ['…'])

/-- **`mark_chunk_failed`**: keyed by the id alone. -/
def markChunkFailed (q : Queue) (id : ℕ) (err : String) : Queue :=
  q.set id fun row =>
    { row with status := .pending, leaseUntil := none, lastError := some (truncateError err) }

end Backfill

end AllfeatExplorer
