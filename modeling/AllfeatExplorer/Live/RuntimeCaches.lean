import AllfeatExplorer.Lib.Run
import AllfeatExplorer.Live.Model.RuntimeCaches

/-!
# The caches after an upgrade

The watcher decides by the cached identity whether to clear the caches, so
code that is cached without an identity, or beside a newer one, stays
cached over an upgrade. And a read that picked the head before an upgrade
may write after the caches were cleared. Where neither happens, a watcher
that has seen the newest upgrade leaves only what describes the head.
-/

namespace AllfeatExplorer

namespace Live

variable {r : Runtimes} {s t : CacheState} {a : CacheAction} {actions : List CacheAction}
  {cache : HeadCache} {m n : ℕ}

/-! ## Runtimes -/

/-- **A block with the `spec_version` of a later one** has its runtime. -/
theorem Runtimes.eq_of_specVersion (r : Runtimes) (hle : m ≤ n) :
    r.specVersion m ≤ r.specVersion n ∧
      (r.specVersion m = r.specVersion n → r.runtimeAt m = r.runtimeAt n) := by
  induction n, hle using Nat.le_induction with
  | base => exact ⟨le_rfl, fun _ => rfl⟩
  | succ n hle ih =>
    obtain ⟨hmono, heq⟩ := ih
    rcases r.upgrades n with hsame | hupgrade
    · have hversion : r.specVersion (n + 1) = r.specVersion n := by
        rw [Runtimes.specVersion, hsame, Runtimes.specVersion]
      rw [hversion, hsame]
      exact ⟨hmono, heq⟩
    · have hlt : r.specVersion m < r.specVersion (n + 1) := lt_of_le_of_lt hmono hupgrade
      exact ⟨hlt.le, fun h => absurd h hlt.ne⟩

/-- Versions do not decrease. -/
theorem Runtimes.specVersion_mono (r : Runtimes) (hle : m ≤ n) :
    r.specVersion m ≤ r.specVersion n :=
  (r.eq_of_specVersion hle).1

/-! ## Converging -/

/-- **A block is of the newest runtime**: no upgrade comes after it. -/
def CacheState.Newest (r : Runtimes) (s : CacheState) (n : ℕ) : Prop :=
  r.specVersion n = r.specVersion s.head

/-- **The caches have converged**: once the watcher has processed the
newest upgrade, and no read goes on that began before, what is cached
describes the head's runtime. -/
def Converges (r : Runtimes) (blake2b256 : List Byte → Bytes32) (s : CacheState) : Prop :=
  s.Newest r s.watched → (∀ task x, s.reads task = some x → s.Newest r x.since) →
    (∀ identity ∈ s.runtimeIdentity r, identity = (r.runtimeAt s.head).identity) ∧
      ∀ info ∈ s.runtimeCode r blake2b256, info = codeInfo blake2b256 (r.runtimeAt s.head).code

/-! ## The condition on a step -/

/-- The block up to which the watcher is done with a cache: the one it is
at, once it has cleared the cache, else the one before. -/
def CacheState.doneAt (s : CacheState) (cache : HeadCache) : ℕ :=
  match s.watcher with
  | .clearing number left => if cache ∈ left then s.watched else number
  | _ => s.watched

/-- What a check of block `m` that clears nothing must find: no code of an
older runtime, if no upgrade comes after `m`. -/
def CacheState.CodeCurrent (r : Runtimes) (s : CacheState) (m : ℕ) : Prop :=
  s.Newest r m → ∀ n ∈ s.cached .runtimeCode, s.Newest r n

/-- **The condition on a step.** No read writes an identity or code of an
older runtime once the watcher is done with the cache for the newest one;
and no check for the newest runtime leaves code of an older one. -/
def CacheStepOk (r : Runtimes) (s : CacheState) : CacheAction → Prop
  | .write task =>
    ∀ x ∈ s.reads task, ∀ n ∈ x.pinned, x.cache ≠ .blockTimeSecs →
      s.Newest r (s.doneAt x.cache) → s.Newest r n
  | .needsCheck =>
    ∀ m, s.watcher = .received m → s.cached .runtimeIdentity = none → s.CodeCurrent r m
  | .compare pinned =>
    ∀ m, pinned = true → s.watcher = .checking m →
      (∀ prev ∈ s.cached .runtimeIdentity, r.specVersion prev = r.specVersion m) →
      s.CodeCurrent r m
  | _ => True

/-! ## The invariant -/

/-- The block the watcher is at. -/
def WatcherStage.At : WatcherStage → ℕ → Prop
  | .waiting, _ => False
  | .received number, m => m = number
  | .checking number, m => m = number
  | .clearing number _, m => m = number

/-- **What holds between two steps.** No block ahead of the head was looked
at, and a cache the watcher is done with for the newest runtime holds
nothing older. -/
structure CacheState.Inv (r : Runtimes) (s : CacheState) : Prop where
  watched_le : s.watched ≤ s.head
  at_le : ∀ m, s.watcher.At m → s.watched ≤ m ∧ m ≤ s.head
  cached_le : ∀ cache, ∀ n ∈ s.cached cache, n ≤ s.head
  pinned_le : ∀ task, ∀ x ∈ s.reads task, ∀ n ∈ x.pinned, n ≤ s.head
  current : ∀ cache, cache ≠ .blockTimeSecs → s.Newest r (s.doneAt cache) →
    ∀ n ∈ s.cached cache, s.Newest r n

theorem inv_start_caches (r : Runtimes) (head : ℕ) : (CacheState.start head).Inv r where
  watched_le := Nat.zero_le _
  at_le := fun _ h => absurd h id
  cached_le := fun _ n h => absurd h (Option.not_mem_none n)
  pinned_le := fun _ x h => absurd h (Option.not_mem_none x)
  current := fun _ _ _ n h => absurd h (Option.not_mem_none n)

/-- The watcher is done with no block ahead of the head. -/
theorem CacheState.Inv.doneAt_le (hi : s.Inv r) (cache : HeadCache) : s.doneAt cache ≤ s.head := by
  unfold CacheState.doneAt
  split
  · rename_i number left hwatcher
    split
    · exact hi.watched_le
    · exact (hi.at_le number (by rw [hwatcher]; rfl)).2
  · exact hi.watched_le

/-- **Where the invariant holds the caches converge.** -/
theorem CacheState.Inv.converges (hi : s.Inv r) (blake2b256 : List Byte → Bytes32) :
    Converges r blake2b256 s := by
  intro hwatched _
  have hdone : ∀ cache, s.Newest r (s.doneAt cache) := by
    intro cache
    unfold CacheState.doneAt
    split
    · rename_i number left hwatcher
      split
      · exact hwatched
      · -- The block it clears for comes after the one it processed last.
        obtain ⟨hle, hhead⟩ := hi.at_le number (by rw [hwatcher]; rfl)
        have hlow := r.specVersion_mono hle
        have hhigh := r.specVersion_mono hhead
        have heq : r.specVersion s.watched = r.specVersion s.head := hwatched
        exact le_antisymm hhigh (heq ▸ hlow)
    · exact hwatched
  have hruntime : ∀ cache, cache ≠ .blockTimeSecs → ∀ n ∈ s.cached cache,
      r.runtimeAt n = r.runtimeAt s.head := by
    intro cache hcache n hn
    exact (r.eq_of_specVersion (hi.cached_le cache n hn)).2
      (hi.current cache hcache (hdone cache) n hn)
  constructor
  · intro identity hidentity
    obtain ⟨n, hn, rfl⟩ := Option.map_eq_some_iff.mp hidentity
    rw [hruntime _ (by decide) n hn]
  · intro info hinfo
    obtain ⟨n, hn, rfl⟩ := Option.map_eq_some_iff.mp hinfo
    rw [hruntime _ (by decide) n hn]

/-! ## The steps -/

/-- The chain goes on. -/
theorem inv_newHead (hi : s.Inv r) {head : ℕ} (hle : s.head ≤ head) :
    ({ s with head := head } : CacheState).Inv r where
  watched_le := le_trans hi.watched_le hle
  at_le := fun m hm => ⟨(hi.at_le m hm).1, le_trans (hi.at_le m hm).2 hle⟩
  cached_le := fun cache n hn => le_trans (hi.cached_le cache n hn) hle
  pinned_le := fun task x hx n hn => le_trans (hi.pinned_le task x hx n hn) hle
  current := by
    intro cache hcache hdone n hn
    -- What is of the newest runtime now was so before: there is no upgrade in between.
    have hdone' : r.specVersion (s.doneAt cache) = r.specVersion head := hdone
    have hlow := r.specVersion_mono (hi.doneAt_le cache)
    have hhigh := r.specVersion_mono hle
    have hsame : r.specVersion s.head = r.specVersion head := by omega
    have hcurrent : r.specVersion n = r.specVersion s.head :=
      hi.current cache hcache (by rw [CacheState.Newest]; omega) n hn
    exact hcurrent.trans hsame

/-- Reads go on, without writing. -/
theorem inv_reads (hi : s.Inv r) (reads : ℕ → Option HeadRead)
    (hreads : ∀ task, ∀ x ∈ reads task, ∀ n ∈ x.pinned, n ≤ s.head) :
    ({ s with reads := reads } : CacheState).Inv r where
  watched_le := hi.watched_le
  at_le := hi.at_le
  cached_le := hi.cached_le
  pinned_le := hreads
  current := hi.current

/-- One read more, or one less. -/
theorem pinned_le_update (hi : s.Inv r) (task : ℕ) (x : Option HeadRead)
    (hx : ∀ y ∈ x, ∀ n ∈ y.pinned, n ≤ s.head) :
    ∀ task', ∀ y ∈ Function.update s.reads task x task', ∀ n ∈ y.pinned, n ≤ s.head := by
  intro task' y hy n hn
  by_cases heq : task' = task
  · rw [heq, Function.update_self] at hy
    exact hx y hy n hn
  · rw [Function.update_of_ne heq] at hy
    exact hi.pinned_le task' y hy n hn

/-- The watcher goes on, and is done with no cache it was not done with. -/
theorem inv_watcher (hi : s.Inv r) (stage : WatcherStage)
    (hat : ∀ m, stage.At m → s.watched ≤ m ∧ m ≤ s.head)
    (hdone : ∀ cache, ({ s with watcher := stage } : CacheState).doneAt cache = s.doneAt cache) :
    ({ s with watcher := stage } : CacheState).Inv r where
  watched_le := hi.watched_le
  at_le := hat
  cached_le := hi.cached_le
  pinned_le := hi.pinned_le
  current := fun cache hcache hnewest => hi.current cache hcache (by rwa [← hdone cache])

/-- The watcher is done with a block. -/
theorem inv_checked (hi : s.Inv r) (hle : m ≤ s.head)
    (hcurrent : s.Newest r m → ∀ cache, cache ≠ .blockTimeSecs → ∀ n ∈ s.cached cache,
      s.Newest r n) : (s.checked m).Inv r where
  watched_le := hle
  at_le := fun _ h => absurd h id
  cached_le := hi.cached_le
  pinned_le := hi.pinned_le
  current := fun cache hcache hnewest => hcurrent hnewest cache hcache

/-- A check that clears nothing leaves what is current. -/
theorem current_of_unchanged
    (hidentity : ∀ prev ∈ s.cached .runtimeIdentity, r.specVersion prev = r.specVersion m)
    (hcode : s.CodeCurrent r m) (hnewest : s.Newest r m) (hcache : cache ≠ .blockTimeSecs)
    (hn : n ∈ s.cached cache) : s.Newest r n := by
  cases cache with
  | runtimeIdentity => exact (hidentity n hn).trans hnewest
  | runtimeCode => exact hcode hnewest n hn
  | blockTimeSecs => exact absurd rfl hcache

/-- **A read writes its cache.** -/
theorem inv_write (hi : s.Inv r) {task : ℕ} {since : ℕ}
    (hread : s.reads task = some ⟨cache, some n, since⟩) (hok : CacheStepOk r s (.write task)) :
    ({ s with
      cached := Function.update s.cached cache (some n)
      reads := Function.update s.reads task none } : CacheState).Inv r := by
  have hcached : ∀ cache', ∀ n' ∈ Function.update s.cached cache (some n) cache',
      cache' = cache ∧ n' = n ∨ n' ∈ s.cached cache' := by
    intro cache' n' hn'
    by_cases heq : cache' = cache
    · rw [heq, Function.update_self] at hn'
      exact .inl ⟨heq, (Option.some.inj hn').symm⟩
    · rw [Function.update_of_ne heq] at hn'
      exact .inr hn'
  refine
    { watched_le := hi.watched_le
      at_le := hi.at_le
      cached_le := fun cache' n' hn' => ?_
      pinned_le := pinned_le_update hi task none fun _ h => absurd h (Option.not_mem_none _)
      current := fun cache' hcache' hdone n' hn' => ?_ }
  · rcases hcached cache' n' hn' with ⟨-, rfl⟩ | hold
    · exact hi.pinned_le task _ hread n' rfl
    · exact hi.cached_le cache' n' hold
  · rcases hcached cache' n' hn' with ⟨rfl, rfl⟩ | hold
    · exact hok _ hread n' rfl hcache' hdone
    · exact hi.current cache' hcache' hdone n' hold

/-- **The watcher clears a cache.** -/
theorem inv_clear (hi : s.Inv r) {left : List HeadCache}
    (hwatcher : s.watcher = .clearing m (cache :: left)) :
    (if left = [] then
      ({ s with cached := Function.update s.cached cache none } : CacheState).checked m
    else
      { s with
        cached := Function.update s.cached cache none
        watcher := .clearing m left }).Inv r := by
  obtain ⟨hle, hhead⟩ := hi.at_le m (by rw [hwatcher]; rfl)
  have hcached : ∀ cache', ∀ n ∈ Function.update s.cached cache none cache',
      cache' ≠ cache ∧ n ∈ s.cached cache' := by
    intro cache' n hn
    by_cases heq : cache' = cache
    · rw [heq, Function.update_self] at hn
      exact absurd hn (Option.not_mem_none n)
    · rw [Function.update_of_ne heq] at hn
      exact ⟨heq, hn⟩
  -- A cache it has cleared in this pass already is done at `m`, one to come is not.
  have hdone : ∀ cache', cache' ≠ cache →
      s.doneAt cache' = if cache' ∈ left then s.watched else m := by
    intro cache' hne
    simp only [CacheState.doneAt, hwatcher, List.mem_cons, hne, false_or]
  split
  · rename_i hnil
    refine
      { watched_le := hhead
        at_le := fun _ h => absurd h id
        cached_le := fun cache' n hn => hi.cached_le cache' n (hcached cache' n hn).2
        pinned_le := hi.pinned_le
        current := fun cache' hcache' hnewest n hn => ?_ }
    obtain ⟨hne, hmem⟩ := hcached cache' n hn
    refine hi.current cache' hcache' ?_ n hmem
    rw [hdone cache' hne, hnil, if_neg List.not_mem_nil]
    exact hnewest
  · refine
      { watched_le := hi.watched_le
        at_le := fun m' hm' => by rw [show m' = m from hm']; exact ⟨hle, hhead⟩
        cached_le := fun cache' n hn => hi.cached_le cache' n (hcached cache' n hn).2
        pinned_le := hi.pinned_le
        current := fun cache' hcache' hnewest n hn => ?_ }
    obtain ⟨hne, hmem⟩ := hcached cache' n hn
    refine hi.current cache' hcache' ?_ n hmem
    rw [hdone cache' hne]
    exact hnewest

/-- **The watcher receives a block.** -/
theorem inv_watchReceive (hi : s.Inv r) {number : ℕ}
    (h : cacheStep r s (.watchReceive number) = some t) : t.Inv r := by
  simp only [cacheStep] at h
  split at h
  · rename_i hwatcher
    split at h
    · rename_i hnumber
      obtain rfl := Option.some.inj h
      refine inv_watcher hi (.received number) (fun m hm => ?_) fun cache => ?_
      · rw [show m = number from hm]
        exact hnumber
      · simp only [CacheState.doneAt, hwatcher]
    · cases h
  · cases h

/-- **The watcher skips the check** if no identity is cached. -/
theorem inv_needsCheck (hi : s.Inv r) (hok : CacheStepOk r s .needsCheck)
    (h : cacheStep r s .needsCheck = some t) : t.Inv r := by
  simp only [cacheStep] at h
  split at h
  · rename_i number hwatcher
    obtain ⟨hle, hhead⟩ := hi.at_le number (by rw [hwatcher]; rfl)
    split at h
    · obtain rfl := Option.some.inj h
      refine inv_watcher hi (.checking number) (fun m hm => ?_) fun cache => ?_
      · rw [show m = number from hm]
        exact ⟨hle, hhead⟩
      · simp only [CacheState.doneAt, hwatcher]
    · rename_i hnone
      have hidentity : s.cached .runtimeIdentity = none :=
        Option.not_isSome_iff_eq_none.mp hnone
      obtain rfl := Option.some.inj h
      refine inv_checked hi hhead fun hnewest cache hcache n hn =>
        current_of_unchanged (fun prev hprev => ?_) (hok number hwatcher hidentity) hnewest
          hcache hn
      rw [hidentity] at hprev
      exact absurd hprev (Option.not_mem_none prev)
  · cases h

/-- **The watcher compares** the block's version with the cached one. -/
theorem inv_compare (hi : s.Inv r) {pinned : Bool} (hok : CacheStepOk r s (.compare pinned))
    (h : cacheStep r s (.compare pinned) = some t) : t.Inv r := by
  simp only [cacheStep] at h
  split at h
  · rename_i number hwatcher
    obtain ⟨hle, hhead⟩ := hi.at_le number (by rw [hwatcher]; rfl)
    have hunchanged : pinned = true →
        (∀ prev ∈ s.cached .runtimeIdentity, r.specVersion prev = r.specVersion number) →
        (s.checked number).Inv r := fun hpinned hidentity =>
      inv_checked hi hhead fun hnewest cache hcache n hn =>
        current_of_unchanged hidentity (hok number hpinned hwatcher hidentity) hnewest hcache hn
    split at h
    · rename_i hpinned
      split at h
      · rename_i hnone
        obtain rfl := Option.some.inj h
        refine hunchanged hpinned fun prev hprev => ?_
        rw [hnone] at hprev
        exact absurd hprev (Option.not_mem_none prev)
      · rename_i prev hprev
        split at h
        · rename_i heq
          obtain rfl := Option.some.inj h
          refine hunchanged hpinned fun prev' hprev' => ?_
          rw [hprev] at hprev'
          rwa [← Option.some.inj hprev']
        · obtain rfl := Option.some.inj h
          refine inv_watcher hi _ (fun m hm => ?_) fun cache => ?_
          · rw [show m = number from hm]
            exact ⟨hle, hhead⟩
          · cases cache <;> simp [CacheState.doneAt, hwatcher]
    · obtain rfl := Option.some.inj h
      refine inv_watcher hi .waiting (fun m hm => absurd hm id) fun cache => ?_
      simp only [CacheState.doneAt, hwatcher]
  · cases h

/-- **A step keeps the invariant**, if it meets the condition. -/
theorem inv_cacheStep (hi : s.Inv r) (hok : CacheStepOk r s a) (h : cacheStep r s a = some t) :
    t.Inv r := by
  cases a with
  | newHead head =>
    rw [cacheStep] at h
    split at h
    · rename_i hle
      obtain rfl := Option.some.inj h
      exact inv_newHead hi hle
    · cases h
  | begin task cache =>
    simp only [cacheStep] at h
    split at h
    · cases h
    · obtain rfl := Option.some.inj h
      exact hi
    · obtain rfl := Option.some.inj h
      refine inv_reads hi _ (pinned_le_update hi task _ fun y hy n hn => ?_)
      obtain rfl := Option.some.inj hy
      exact absurd hn (Option.not_mem_none n)
  | pin task =>
    simp only [cacheStep] at h
    split at h
    · obtain rfl := Option.some.inj h
      refine inv_reads hi _ (pinned_le_update hi task _ fun y hy n hn => ?_)
      obtain rfl := Option.some.inj hy
      obtain rfl := Option.some.inj hn
      exact le_rfl
    · cases h
  | write task =>
    simp only [cacheStep] at h
    split at h
    · rename_i cache n since hread
      obtain rfl := Option.some.inj h
      exact inv_write hi hread hok
    · cases h
  | fail task =>
    simp only [cacheStep] at h
    split at h
    · obtain rfl := Option.some.inj h
      exact inv_reads hi _ (pinned_le_update hi task none fun _ hy =>
        absurd hy (Option.not_mem_none _))
    · cases h
  | watchReceive number => exact inv_watchReceive hi h
  | needsCheck => exact inv_needsCheck hi hok h
  | compare pinned => exact inv_compare hi hok h
  | clear =>
    simp only [cacheStep] at h
    split at h
    · rename_i number cache left hwatcher
      have hclear := inv_clear hi hwatcher
      split at h
      · rename_i hnil
        obtain rfl := Option.some.inj h
        rwa [if_pos hnil] at hclear
      · rename_i hleft
        obtain rfl := Option.some.inj h
        rwa [if_neg hleft] at hclear
    · cases h

/-- **The caches converge** in every run in which no head read writes an
identity or code of an older runtime once the watcher is done with its
cache for the newest, and no check for the newest runtime leaves older
code. -/
theorem caches_converge (r : Runtimes) (blake2b256 : List Byte → Bytes32) (head : ℕ)
    {actions : List CacheAction} {t : CacheState}
    (h : run (cacheStep r) (.start head) actions = some t)
    (hok : EveryStep (cacheStep r) (CacheStepOk r) (.start head) actions) :
    Converges r blake2b256 t := by
  have hinv : t.Inv r :=
    inv_run_of_every (fun u a v hu ha hv => inv_cacheStep hu ha hv) (inv_start_caches r head) hok h
  exact hinv.converges blake2b256

/-! ## One upgrade -/

/-- Block 1 upgrades the runtime. -/
def oneUpgrade : Runtimes where
  runtimeAt n :=
    if n = 0 then ⟨⟨"node", "node", 1, 1, 0, 1, some 1⟩, []⟩
    else ⟨⟨"node", "node", 1, 2, 0, 1, some 1⟩, [byte 1]⟩
  upgrades := by
    intro n
    cases n with
    | zero => exact .inr (by decide)
    | succ n => exact .inl rfl

/-- A hash that is the length. -/
def lengthHash (code : List Byte) : Bytes32 := .fill code.length

/-- The identity is read, the upgrade clears it, and the code is read. -/
def readCleared : List CacheAction :=
  [.begin 0 .runtimeIdentity, .pin 0, .write 0, .newHead 1, .watchReceive 1, .needsCheck,
    .compare true, .clear, .clear, .clear, .begin 0 .runtimeCode, .pin 0, .write 0]

/-- A read that picked the head as it is may write. -/
theorem cacheStepOk_write {task since : ℕ}
    (hread : s.reads task = some ⟨cache, some s.head, since⟩) : CacheStepOk r s (.write task) := by
  intro x hx n hn _ _
  rw [hread] at hx
  obtain rfl := Option.some.inj hx
  obtain rfl := Option.some.inj hn
  rfl

/-- The code that is cached then is that of the head. -/
theorem caches_converge_readCleared :
    ∃ t, run (cacheStep oneUpgrade) (.start 0) readCleared = some t ∧
      t.head = 1 ∧ t.cached .runtimeCode = some 1 ∧ Converges oneUpgrade lengthHash t := by
  refine ⟨_, rfl, rfl, rfl, caches_converge oneUpgrade lengthHash 0
    (show run (cacheStep oneUpgrade) (.start 0) readCleared = some _ from rfl) ?_⟩
  refine (everyStep_cons rfl).mpr ⟨trivial, (everyStep_cons rfl).mpr ⟨trivial,
    (everyStep_cons rfl).mpr ⟨cacheStepOk_write rfl, (everyStep_cons rfl).mpr ⟨trivial,
    (everyStep_cons rfl).mpr ⟨trivial, (everyStep_cons rfl).mpr
      ⟨fun _ _ h => absurd h (Option.some_ne_none 0), (everyStep_cons rfl).mpr
      ⟨fun _ _ _ _ _ n hn => absurd hn (Option.not_mem_none n), ?_⟩⟩⟩⟩⟩⟩⟩
  refine (everyStep_cons rfl).mpr ⟨trivial, (everyStep_cons rfl).mpr ⟨trivial,
    (everyStep_cons rfl).mpr ⟨trivial, (everyStep_cons rfl).mpr ⟨trivial,
    (everyStep_cons rfl).mpr ⟨trivial, (everyStep_cons rfl).mpr
      ⟨cacheStepOk_write rfl, trivial⟩⟩⟩⟩⟩⟩

/-- **Without a cached identity** the upgrade goes unseen, and the old code
stays cached. -/
theorem not_converges_codeOnly :
    ∃ t, run (cacheStep oneUpgrade) (.start 0)
        [.begin 0 .runtimeCode, .pin 0, .write 0, .newHead 1, .watchReceive 1, .needsCheck] =
          some t ∧
      t.watched = 1 ∧ t.watcher = .waiting ∧ ¬ Converges oneUpgrade lengthHash t := by
  refine ⟨_, rfl, rfl, rfl, fun hconverges => ?_⟩
  have hreads := (hconverges rfl fun task x hx => ?_).2 _ rfl
  · have hsize := congrArg RuntimeCodeInfo.sizeBytes hreads
    revert hsize
    decide
  · by_cases htask : task = 0
    · subst htask
      cases hx
    · change Function.update (Function.update (Function.update (fun _ => none) 0 _) 0 _) 0 none
        task = some x at hx
      rw [Function.update_of_ne htask, Function.update_of_ne htask,
        Function.update_of_ne htask] at hx
      cases hx

end Live

end AllfeatExplorer
