import AllfeatExplorer.Web.Model.Format
import AllfeatExplorer.Data.Model.Domain

/-!
# The search of the navigation bar

`useSearch.ts` and `searchPatterns.ts`: the query is debounced, a run
probes every endpoint whose ids have the query's shape, and what it finds
is cached for the page. Several runs can be under way at once. A hit keeps
what its texts are made of. The registry of known accounts is a parameter.
-/

namespace AllfeatExplorer

namespace Search

/-! ## `detectKinds` -/

/-- `String.prototype.trim`. -/
def trim (s : String) : String :=
  String.ofList
    (((s.toList.dropWhile Format.jsSpace).reverse.dropWhile Format.jsSpace).reverse)

/-- `SearchKind`. -/
inductive SearchKind where
  | blockNumber
  | blockHash
  | extrinsicId
  | account
  | atsId
deriving DecidableEq

/-- `DetectedInput`. -/
structure DetectedInput where
  kinds : List SearchKind
  asInt : Option ℕ
  asExtrinsic : Option (String × ℕ)
  asBlockHash : Option String
  asAddress : Option String

/-- Nothing detected. -/
def DetectedInput.none : DetectedInput := ⟨[], .none, .none, .none, .none⟩

/-- `/^\d+$/`. -/
def isDigits (cs : List Char) : Bool := !cs.isEmpty && cs.all Char.isDigit

/-- `/^(\d+)-(\d+)$/`, its two groups. -/
def extMatch (cs : List Char) : Option (List Char × List Char) :=
  (Decimal.splitOnce '-' cs).filter fun m => isDigits m.1 && isDigits m.2

/-- `/^0x[0-9a-fA-F]{64}$/`. -/
def isBlockHash : List Char → Bool
  | '0' :: 'x' :: hex => decide (hex.length = 64) && hex.all fun c => (hexVal c).isSome
  | _ => false

/-- `SS58_CHAR`, with the bounds on the length. -/
def isAddress (cs : List Char) : Bool :=
  cs.all Char.isAlphanum && decide (40 ≤ cs.length) && decide (cs.length ≤ 60)

/-- `Number.MAX_SAFE_INTEGER`. -/
def maxSafeInteger : ℕ := 9007199254740991

/-- **`detectKinds`.** -/
def detectKinds (raw : String) : DetectedInput :=
  let q := trim raw
  let cs := q.toList
  if cs.isEmpty then .none
  else if isDigits cs then
    let n := Nat.ofDigitChars 10 cs 0
    { DetectedInput.none with
      kinds := if n ≤ u32Max then [.blockNumber, .atsId] else [.blockNumber]
      asInt := some n }
  else
    match extMatch cs with
    | some (block, index) =>
      let index := Nat.ofDigitChars 10 index 0
      if index ≤ maxSafeInteger then
        { DetectedInput.none with
          kinds := [.extrinsicId]
          asExtrinsic := some (String.ofList block, index) }
      else .none
    | .none =>
      if isBlockHash cs then
        { DetectedInput.none with kinds := [.blockHash], asBlockHash := some q.toLower }
      else if isAddress cs then
        { DetectedInput.none with kinds := [.account], asAddress := some q }
      else .none

/-! ## Results -/

/-- `Account`, as far as its row shows it. -/
structure Account where
  address : String
  balanceTotal : ℕ

/-- `KnownAccountMatch`. -/
structure KnownAccountMatch where
  address : String
  name : String
  kind : String

/-- **`SearchHit`**: which builder made it, from what. -/
inductive SearchHit where
  | block (b : Block)
  | blockHash (b : Block)
  | extrinsic (x : Extrinsic)
  | account (a : Account) (knownLabel : Option String) (tokenSymbol : String)
  | knownAccount (m : KnownAccountMatch)
  | inactiveAccount (address : String) (knownLabel : Option String)
  | ats (r : AtsRecord)

/-- `SearchResults`. -/
structure SearchResults where
  blocks : List SearchHit
  extrinsics : List SearchHit
  accounts : List SearchHit
  ats : List SearchHit

namespace SearchResults

/-- `EMPTY`. -/
def empty : SearchResults := ⟨[], [], [], []⟩

/-- `total` is zero. -/
def isEmpty (r : SearchResults) : Bool :=
  decide (r.blocks.length + r.extrinsics.length + r.accounts.length + r.ats.length = 0)

end SearchResults

/-! ## The cache -/

/-- **`cache`**, in the order of insertion; `none` is `MISS`. -/
abbrev Cache := List (String × Option SearchResults)

/-- `CACHE_MAX`. -/
def cacheMax : ℕ := 128

/-- `cacheGet`: the value, and the cache with it as the newest. -/
def cacheGet (key : String) (cache : Cache) : Option (Option SearchResults × Cache) :=
  (cache.lookup key).map fun v => (v, (cache.filter fun e => e.1 ≠ key) ++ [(key, v)])

/-- `cacheSet`: over its size the oldest entry goes. -/
def cacheSet (key : String) (value : Option SearchResults) (cache : Cache) : Cache :=
  let cache := (cache.filter fun e => e.1 ≠ key) ++ [(key, value)]
  if cacheMax < cache.length then cache.tail else cache

/-! ## Probes -/

/-- A probe that was sent, with what its callback captured. -/
inductive Job where
  | block (n : ℕ)
  | ats (n : ℕ)
  | extrinsic (id : String)
  | account (addr : String) (knownLabel : Option String) (token : String)

/-- What an endpoint answers. -/
inductive Found where
  | block (b : Block)
  | ats (r : AtsRecord)
  | extrinsic (x : Extrinsic)
  | account (a : Account)

/-- **The callback of a probe**; `none` is an absent entity, or an error.
An endpoint answers with its own kind. -/
def Job.push (acc : SearchResults) : Job → Option Found → Option SearchResults
  | .account addr knownLabel _, none =>
    some { acc with accounts := acc.accounts ++ [.inactiveAccount addr knownLabel] }
  | _, none => some acc
  | .block _, some (.block b) => some { acc with blocks := acc.blocks ++ [.block b] }
  | .ats _, some (.ats r) => some { acc with ats := acc.ats ++ [.ats r] }
  | .extrinsic _, some (.extrinsic x) =>
    some { acc with extrinsics := acc.extrinsics ++ [.extrinsic x] }
  | .account _ knownLabel token, some (.account a) =>
    some { acc with accounts := acc.accounts ++ [.account a knownLabel token] }
  | _, _ => none

/-- **A call of `run`.** -/
structure Run where
  q : String
  net : String
  acc : SearchResults
  pending : List Job
  aborted : Bool
  rejected : Bool
  finished : Bool

/-- A run that returned before it sent a probe. -/
def Run.immediate (q net : String) : Run := ⟨q, net, .empty, [], false, false, true⟩

/-- `knownAccounts.ts`. -/
structure KnownAccounts where
  searchKnownAccounts : String → String → ℕ → List KnownAccountMatch
  lookupKnownAccount : String → String → Option String

/-! ## The composable -/

/-- **An instance of `useSearch`** with the cache of the page. A run is its
place in `runs`; `wrote` has the runs that wrote their results so far. -/
structure SearchState where
  query : String
  activeId : Option String
  loading : Bool
  results : SearchResults
  controller : Option ℕ
  debounced : Option (String × String)
  cache : Cache
  liveBlocks : List Block
  token : Option String
  runs : List Run
  wrote : List ℕ

namespace SearchState

/-- The instance as it is set up. -/
def start (activeId : Option String) (cache : Cache) (liveBlocks : List Block)
    (token : Option String) : SearchState where
  query := ""
  activeId := activeId
  loading := false
  results := .empty
  controller := none
  debounced := none
  cache := cache
  liveBlocks := liveBlocks
  token := token
  runs := []
  wrote := []

/-- `trimmed`. -/
def trimmed (s : SearchState) : String := trim s.query

/-- A run changes. -/
def modifyRun (s : SearchState) (i : ℕ) (f : Run → Run) : SearchState :=
  { s with runs := s.runs.modify i f }

/-- `controller?.abort()`. -/
def abort (s : SearchState) : SearchState :=
  s.controller.elim s fun i => s.modifyRun i fun r => { r with aborted := true }

/-- `reset`. -/
def reset (s : SearchState) : SearchState :=
  { s.abort with query := "", results := .empty, loading := false, controller := none }

/-! ## `run` -/

/-- The probes of a run: one for each endpoint that the query may be an id
of, and none for an account that the registry has. -/
def jobs (known : KnownAccounts) (net : String) (token : Option String)
    (localAccounts : List KnownAccountMatch) (detected : DetectedInput) : List Job :=
  (detected.asInt.filter fun _ => SearchKind.blockNumber ∈ detected.kinds).toList.map .block ++
    (detected.asInt.filter fun _ => SearchKind.atsId ∈ detected.kinds).toList.map .ats ++
    (detected.asExtrinsic.filter fun _ => SearchKind.extrinsicId ∈ detected.kinds).toList.map
      (fun x => .extrinsic (x.1 ++ "-" ++ toString x.2)) ++
    ((detected.asAddress.filter fun _ => SearchKind.account ∈ detected.kinds).filter fun addr =>
        addr ≠ "" && localAccounts.all fun m => m.address ≠ addr).toList.map fun addr =>
      .account addr (known.lookupKnownAccount net addr) (token.getD "")

/-- `matchBlockHashLocal`. -/
def matchBlockHashLocal (s : SearchState) (hash : String) : Option SearchHit :=
  (s.liveBlocks.find? fun b => b.hash.toLower = hash).map .blockHash

/-- **`run`**, up to its `await`. -/
def run (known : KnownAccounts) (s : SearchState) (q net : String) : SearchState :=
  let key := net ++ "::" ++ q
  let i := s.runs.length
  match cacheGet key s.cache with
  | some (cached, cache) =>
    { s with
      cache := cache
      results := cached.getD .empty
      loading := false
      runs := s.runs ++ [.immediate q net]
      wrote := s.wrote ++ [i] }
  | none =>
    let s := { s.abort with controller := some i, loading := true }
    let detected := detectKinds q
    let localAccounts := known.searchKnownAccounts net q 8
    let jobs := jobs known net s.token localAccounts detected
    let hit := (detected.asBlockHash.filter fun _ =>
      SearchKind.blockHash ∈ detected.kinds).bind s.matchBlockHashLocal
    let acc : SearchResults :=
      { SearchResults.empty with
        blocks := hit.toList
        accounts := localAccounts.map .knownAccount }
    -- A hit by hash does not count here: alone it is thrown away.
    if jobs.isEmpty && acc.accounts.isEmpty then
      { s with
        results := .empty
        cache := cacheSet key none s.cache
        loading := false
        runs := s.runs ++ [.immediate q net]
        wrote := s.wrote ++ [i] }
    else { s with runs := s.runs ++ [⟨q, net, acc, jobs, false, false, false⟩] }

/-- **`run`, from its `await` on.** A probe that was aborted makes it
return; else all probes have answered, and the run writes unless it was
aborted itself. -/
def settle (s : SearchState) (i : ℕ) (r : Run) : Option SearchState :=
  let finished := s.modifyRun i fun r => { r with finished := true }
  if r.finished then none
  else if r.rejected then some finished
  else if !r.pending.isEmpty then none
  else if r.aborted then some finished
  else
    let key := r.net ++ "::" ++ r.q
    let value := if r.acc.isEmpty then none else some r.acc
    some { finished with
      results := r.acc
      cache := cacheSet key value s.cache
      loading := false
      wrote := s.wrote ++ [i] }

/-! ## The watcher -/

/-- What the page does to the state that is watched. -/
inductive Edit where
  | query (text : String)
  | network (id : Option String)
  | reset

/-- An edit. -/
def edit (s : SearchState) : Edit → SearchState
  | .query text => { s with query := text }
  | .network id => { s with activeId := id }
  | .reset => s.reset

/-- **The callback of `watch`.** An empty text is no network. -/
def watch (s : SearchState) : SearchState :=
  if s.trimmed = "" then { s.abort with results := .empty, loading := false }
  else
    match s.activeId.filter fun net => net ≠ "" with
    | none => { s with results := .empty }
    | some net => { s with loading := true, debounced := some (s.trimmed, net) }

/-- **A turn of the page**: edits, and then the watcher, once, if what it
watches is another value. -/
def turn (s : SearchState) (edits : List Edit) : SearchState :=
  let t := edits.foldl edit s
  if t.trimmed = s.trimmed ∧ t.activeId = s.activeId then t else t.watch

end SearchState

/-! ## Runs -/

/-- What comes of a probe. -/
inductive Outcome where
  | answer (found : Option Found)
  | abortError

/-- What happens next. Other instances share the cache, and the live
buffer and the network's token may change. -/
inductive SearchAction where
  | turn (edits : List SearchState.Edit)
  | fire
  | probe (i k : ℕ) (outcome : Outcome)
  | settle (i : ℕ)
  | cacheChanged (cache : Cache)
  | worldChanged (liveBlocks : List Block) (token : Option String)

/-- **One step.** -/
def searchStep (known : KnownAccounts) (s : SearchState) : SearchAction → Option SearchState
  | .turn edits => some (s.turn edits)
  | .fire =>
    s.debounced.map fun (q, net) => { s with debounced := none }.run known q net
  | .probe i k outcome =>
    s.runs[i]?.bind fun r =>
      r.pending[k]?.bind fun job =>
        match outcome with
        | .abortError =>
          some (s.modifyRun i fun r => { r with pending := r.pending.eraseIdx k, rejected := true })
        | .answer found =>
          (job.push r.acc found).map fun acc =>
            s.modifyRun i fun r => { r with pending := r.pending.eraseIdx k, acc := acc }
  | .settle i => s.runs[i]?.bind fun r => s.settle i r
  | .cacheChanged cache => some { s with cache := cache }
  | .worldChanged liveBlocks token => some { s with liveBlocks := liveBlocks, token := token }

end Search

end AllfeatExplorer
