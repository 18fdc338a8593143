import AllfeatExplorer.Data.Model.Domain

/-!
# The caches of the head's runtime

`runtime_identity`, `runtime_code_info` and `block_time_secs` each read
from the head and keep what they read; a read picks the head first and
writes the cache last. The watcher looks at each final block and clears
the three caches where the block's `spec_version` is not that of the
cached identity. All of these are steps of tasks that interleave.
-/

namespace AllfeatExplorer

namespace Live

/-! ## What is read -/

/-- `RuntimeIdentity`. -/
structure RuntimeIdentity where
  specName : String
  implName : String
  authoringVersion : ℕ
  specVersion : ℕ
  implVersion : ℕ
  transactionVersion : ℕ
  stateVersion : Option ℕ
deriving DecidableEq

/-- `RuntimeCodeInfo`. -/
structure RuntimeCodeInfo where
  hash : String
  sizeBytes : ℕ
  compressed : Bool
deriving DecidableEq

/-- A runtime, as the head reads see it: `Core_version` and `:code`. -/
structure Runtime where
  identity : RuntimeIdentity
  code : List Byte
deriving DecidableEq

/-- `ZSTD_MAGIC`. -/
def zstdMagic : List Byte := [byte 0x28, byte 0xB5, byte 0x2F, byte 0xFD]

/-- What `runtime_code_info` makes of the code, with the hash of
`Blake2b256`. -/
def codeInfo (blake2b256 : List Byte → Bytes32) (code : List Byte) : RuntimeCodeInfo :=
  { hash := hexBytes (blake2b256 code).bytes
    sizeBytes := min code.length u32Max
    compressed := zstdMagic.length ≤ code.length && code.take zstdMagic.length = zstdMagic }

/-- **The runtimes of a chain**, by the block. A block's runtime is the one
before, or an upgrade, whose `spec_version` is greater. -/
structure Runtimes where
  runtimeAt : ℕ → Runtime
  upgrades : ∀ n, runtimeAt (n + 1) = runtimeAt n ∨
    (runtimeAt n).identity.specVersion < (runtimeAt (n + 1)).identity.specVersion

/-- `spec_version` at a block. -/
def Runtimes.specVersion (r : Runtimes) (n : ℕ) : ℕ := (r.runtimeAt n).identity.specVersion

/-! ## The tasks -/

/-- `WatcherCaches`, in the order in which they are cleared. -/
inductive HeadCache where
  | runtimeIdentity
  | runtimeCode
  | blockTimeSecs
deriving DecidableEq

/-- **A read of the head**: the cache it fills and the block it picked. It
remembers what the watcher had processed when it began, which no step
looks at. -/
structure HeadRead where
  cache : HeadCache
  pinned : Option ℕ
  since : ℕ

/-- Where the watcher is with a block: before it looks whether there is an
identity, before it compares, or with some caches left to clear. -/
inductive WatcherStage where
  | waiting
  | received (number : ℕ)
  | checking (number : ℕ)
  | clearing (number : ℕ) (left : List HeadCache)
deriving DecidableEq

/-- **The head, the caches, the reads under way and the watcher.** A cache
holds what was read at a block, and is given by the block. `watched` is
the block whose check ended last. -/
structure CacheState where
  head : ℕ
  cached : HeadCache → Option ℕ
  reads : ℕ → Option HeadRead
  watcher : WatcherStage
  watched : ℕ

namespace CacheState

/-- The cached identity. -/
def runtimeIdentity (r : Runtimes) (s : CacheState) : Option RuntimeIdentity :=
  (s.cached .runtimeIdentity).map fun n => (r.runtimeAt n).identity

/-- The cached code information. -/
def runtimeCode (r : Runtimes) (blake2b256 : List Byte → Bytes32) (s : CacheState) :
    Option RuntimeCodeInfo :=
  (s.cached .runtimeCode).map fun n => codeInfo blake2b256 (r.runtimeAt n).code

/-- Empty caches, at a head. -/
def start (head : ℕ) : CacheState := ⟨head, fun _ => none, fun _ => none, .waiting, 0⟩

/-- The check of a block is over. -/
def checked (s : CacheState) (number : ℕ) : CacheState :=
  { s with watcher := .waiting, watched := number }

end CacheState

/-- What happens next: the chain goes on, a read does, or the watcher
does. A read that fails writes nothing; `pinned = false` is a block that
the watcher cannot pin, which it skips. -/
inductive CacheAction where
  | newHead (head : ℕ)
  | begin (task : ℕ) (cache : HeadCache)
  | pin (task : ℕ)
  | write (task : ℕ)
  | fail (task : ℕ)
  | watchReceive (number : ℕ)
  | needsCheck
  | compare (pinned : Bool)
  | clear

/-- **One step.** -/
def cacheStep (r : Runtimes) (s : CacheState) : CacheAction → Option CacheState
  | .newHead head => if s.head ≤ head then some { s with head := head } else none
  | .begin task cache =>
    match s.reads task, s.cached cache with
    | some _, _ => none
    -- The cached value is the answer.
    | none, some _ => some s
    | none, none =>
      some { s with reads := Function.update s.reads task (some ⟨cache, none, s.watched⟩) }
  | .pin task =>
    match s.reads task with
    | some ⟨cache, none, since⟩ =>
      some { s with reads := Function.update s.reads task (some ⟨cache, some s.head, since⟩) }
    | _ => none
  | .write task =>
    match s.reads task with
    | some ⟨cache, some n, _⟩ =>
      some { s with
        cached := Function.update s.cached cache (some n)
        reads := Function.update s.reads task none }
    | _ => none
  | .fail task =>
    match s.reads task with
    | some _ => some { s with reads := Function.update s.reads task none }
    | none => none
  | .watchReceive number =>
    match s.watcher with
    | .waiting =>
      if s.watched ≤ number ∧ number ≤ s.head then some { s with watcher := .received number }
      else none
    | _ => none
  | .needsCheck =>
    match s.watcher with
    | .received number =>
      if (s.cached .runtimeIdentity).isSome then some { s with watcher := .checking number }
      else some (s.checked number)
    | _ => none
  | .compare pinned =>
    match s.watcher with
    | .checking number =>
      if pinned then
        -- `invalidate_if_spec_changed`, up to its three writes.
        match s.cached .runtimeIdentity with
        | none => some (s.checked number)
        | some prev =>
          if r.specVersion prev = r.specVersion number then some (s.checked number)
          else
            some { s with
              watcher := .clearing number [.runtimeIdentity, .runtimeCode, .blockTimeSecs] }
      else some { s with watcher := .waiting }
    | _ => none
  | .clear =>
    match s.watcher with
    | .clearing number (cache :: left) =>
      let s := { s with cached := Function.update s.cached cache none }
      if left = [] then some (s.checked number)
      else some { s with watcher := .clearing number left }
    | _ => none

end Live

end AllfeatExplorer
