import AllfeatExplorer.Web.Model.Search
import AllfeatExplorer.Lib.Run

/-!
# Stale results of the search

A run that probes aborts the one before it, so at most one run is live:
the controller's (`Core.live`). A run that is answered from the cache
aborts none, and clearing the query leaves the debounce timer. So a live
run may complete after a later one wrote, or on an empty query; the
results are never stale just if neither comes to pass (`sound_iff`).
-/

open scoped List

namespace AllfeatExplorer

namespace Search

namespace SearchState

variable {known : KnownAccounts} {s s' : SearchState} {a : SearchAction} {i j : ℕ} {r : Run}
  {f : Run → Run} {q net : String}

/-! ## What an abort leaves -/

@[simp] theorem modifyRun_length : (s.modifyRun i f).runs.length = s.runs.length :=
  List.length_modify ..

@[simp] theorem abort_length : s.abort.runs.length = s.runs.length := by
  unfold abort
  cases s.controller with
  | none => rfl
  | some i => exact modifyRun_length

@[simp] theorem abort_wrote : s.abort.wrote = s.wrote := by
  unfold abort
  cases s.controller <;> rfl

@[simp] theorem abort_query : s.abort.query = s.query := by
  unfold abort
  cases s.controller <;> rfl

@[simp] theorem abort_results : s.abort.results = s.results := by
  unfold abort
  cases s.controller <;> rfl

/-! ## Live runs -/

/-- **A run that may still write.** -/
def Live (s : SearchState) (i : ℕ) : Prop :=
  ∃ r, s.runs[i]? = some r ∧ r.finished = false ∧ r.aborted = false

theorem Live.lt (h : s.Live i) : i < s.runs.length := by
  obtain ⟨r, hr, -⟩ := h
  exact (List.getElem?_eq_some_iff.1 hr).1

/-- A change that revives no run. -/
def Quiets (f : Run → Run) : Prop :=
  ∀ r, (f r).finished = false → (f r).aborted = false → r.finished = false ∧ r.aborted = false

theorem live_of_modifyRun (hf : Quiets f) (h : (s.modifyRun i f).Live j) : s.Live j := by
  obtain ⟨r, hr, hfin, habort⟩ := h
  rw [modifyRun, List.getElem?_modify] at hr
  obtain ⟨r', hr', rfl⟩ := Option.map_eq_some_iff.1 hr
  by_cases hij : i = j
  · rw [if_pos hij] at hfin habort
    exact ⟨r', hr', hf r' hfin habort⟩
  · rw [if_neg hij] at hfin habort
    exact ⟨r', hr', hfin, habort⟩

/-- A run that is finished is not live. -/
theorem ne_of_live_finish (h : (s.modifyRun i fun r => { r with finished := true }).Live j) :
    j ≠ i := by
  rintro rfl
  obtain ⟨r, hr, hfin, -⟩ := h
  rw [modifyRun, List.getElem?_modify] at hr
  obtain ⟨r', -, rfl⟩ := Option.map_eq_some_iff.1 hr
  rw [if_pos rfl] at hfin
  exact absurd hfin (by simp)

/-- **What every step keeps**: runs write in the order they were started,
and a live run is the controller's; those after it were answered at
once. -/
structure Core (s : SearchState) : Prop where
  ascending : s.wrote.Pairwise (· < ·)
  wrote_lt : ∀ i ∈ s.wrote, i < s.runs.length
  live : ∀ i, s.Live i → s.controller = some i ∧ i ∉ s.wrote ∧
    ∀ j, i < j → j < s.runs.length → j ∈ s.wrote

/-- **After an abort no run is live.** -/
theorem Core.not_live_abort (h : s.Core) : ¬ s.abort.Live i := by
  intro hlive
  rcases hc : s.controller with - | c
  · rw [abort, hc] at hlive
    exact absurd (h.live i hlive).1 (by simp [hc])
  · rw [abort, hc, Option.elim_some] at hlive
    have hold : s.Live i := live_of_modifyRun (fun r hfin habort => absurd habort (by simp)) hlive
    obtain rfl : c = i := Option.some.inj (hc.symm.trans (h.live i hold).1)
    obtain ⟨r, hr, -, habort⟩ := hlive
    rw [modifyRun, List.getElem?_modify] at hr
    obtain ⟨r', -, rfl⟩ := Option.map_eq_some_iff.1 hr
    rw [if_pos rfl] at habort
    exact absurd habort (by simp)

theorem Core.abort (h : s.Core) : s.abort.Core where
  ascending := by
    rw [abort_wrote]
    exact h.ascending
  wrote_lt := by
    rw [abort_wrote, abort_length]
    exact h.wrote_lt
  live := fun i hlive => absurd hlive h.not_live_abort

/-- A state whose runs and controller are those of another. -/
theorem Core.congr (h : s.Core) (hruns : s'.runs = s.runs) (hwrote : s'.wrote = s.wrote)
    (hcontroller : s'.controller = s.controller) : s'.Core where
  ascending := by
    rw [hwrote]
    exact h.ascending
  wrote_lt := by
    rw [hwrote, hruns]
    exact h.wrote_lt
  live := by
    unfold Live
    rw [hwrote, hruns, hcontroller]
    exact h.live

/-- Without a live run the controller does not matter. -/
theorem Core.of_not_live (h : s.Core) (hnone : ∀ i, ¬ s.Live i) (hruns : s'.runs = s.runs)
    (hwrote : s'.wrote = s.wrote) : s'.Core where
  ascending := by
    rw [hwrote]
    exact h.ascending
  wrote_lt := by
    rw [hwrote, hruns]
    exact h.wrote_lt
  live := by
    unfold Live
    rw [hruns]
    exact fun i hlive => absurd hlive (hnone i)

/-! ## Edits and the watcher -/

theorem Core.edit (h : s.Core) (e : Edit) : (s.edit e).Core := by
  cases e with
  | query text => exact h.congr rfl rfl rfl
  | network id => exact h.congr rfl rfl rfl
  | reset => exact h.abort.of_not_live (fun _ => h.not_live_abort) rfl rfl

theorem Core.watch (h : s.Core) : s.watch.Core := by
  unfold SearchState.watch
  split
  · exact h.abort.congr rfl rfl rfl
  · split
    · exact h.congr rfl rfl rfl
    · exact h.congr rfl rfl rfl

theorem Core.edits (h : s.Core) (edits : List Edit) : (edits.foldl SearchState.edit s).Core := by
  induction edits generalizing s with
  | nil => exact h
  | cons e edits ih => exact ih (h.edit e)

/-- Edits leave the results or clear them. -/
theorem edits_results (edits : List Edit) :
    (edits.foldl SearchState.edit s).results = s.results ∨
      (edits.foldl SearchState.edit s).results = .empty := by
  induction edits generalizing s with
  | nil => exact .inl rfl
  | cons e edits ih =>
    have hone : (s.edit e).results = s.results ∨ (s.edit e).results = .empty := by
      cases e with
      | query text => exact .inl rfl
      | network id => exact .inl rfl
      | reset => exact .inr rfl
    rcases ih (s := s.edit e) with hrest | hrest
    · rw [List.foldl_cons, hrest]
      exact hone
    · exact .inr hrest

theorem Core.turn (h : s.Core) (edits : List Edit) : (s.turn edits).Core := by
  unfold SearchState.turn
  dsimp only
  split
  · exact h.edits edits
  · exact (h.edits edits).watch

/-- **An empty query has no results** after a turn, if it had none before:
the watcher sees it come. -/
theorem turn_cleared (hclear : s.trimmed = "" → s.results.isEmpty = true) (edits : List Edit)
    (hempty : (s.turn edits).trimmed = "") : (s.turn edits).results.isEmpty = true := by
  unfold SearchState.turn at hempty ⊢
  dsimp only at hempty ⊢
  split
  · next hsame =>
    rw [if_pos hsame] at hempty
    rcases edits_results edits with hkept | hcleared
    · rw [hkept]
      exact hclear (hsame.1.symm.trans hempty)
    · rw [hcleared]
      rfl
  · next hdiff =>
    rw [if_neg hdiff] at hempty
    unfold watch at hempty ⊢
    split
    · rfl
    · next hquery =>
      rw [if_neg hquery] at hempty
      split <;> rename_i hnet <;> rw [hnet] at hempty <;> exact absurd hempty hquery

/-! ## Starting a run -/

/-- A run that writes as it starts. -/
theorem Core.immediate (h : s.Core) (hruns : s'.runs = s.runs ++ [.immediate q net])
    (hwrote : s'.wrote = s.wrote ++ [s.runs.length])
    (hlive : ∀ i, s.Live i → s'.controller = some i) : s'.Core where
  ascending := by
    rw [hwrote, List.pairwise_append]
    refine ⟨h.ascending, List.pairwise_singleton _ _, fun i hi j hj => ?_⟩
    rw [List.mem_singleton.1 hj]
    exact h.wrote_lt i hi
  wrote_lt := by
    intro i hi
    rw [hruns, List.length_append, List.length_singleton]
    rw [hwrote, List.mem_append, List.mem_singleton] at hi
    rcases hi with hi | rfl
    · exact Nat.lt_succ_of_lt (h.wrote_lt i hi)
    · exact Nat.lt_succ_self _
  live := by
    rintro i ⟨r, hr, hfin, habort⟩
    rw [hruns] at hr
    have hold : s.Live i := by
      rcases Nat.lt_or_ge i s.runs.length with hlt | hge
      · rw [List.getElem?_append_left hlt] at hr
        exact ⟨r, hr, hfin, habort⟩
      · rw [List.getElem?_append_right hge] at hr
        obtain rfl := List.mem_singleton.1 (List.mem_of_getElem? hr)
        exact absurd hfin (by simp [Run.immediate])
    obtain ⟨-, hnot, hafter⟩ := h.live i hold
    refine ⟨hlive i hold, fun hmem => ?_, fun j hij hj => ?_⟩
    · rw [hwrote, List.mem_append, List.mem_singleton] at hmem
      rcases hmem with hmem | rfl
      · exact hnot hmem
      · exact absurd hold.lt (Nat.lt_irrefl _)
    · rw [hwrote, List.mem_append, List.mem_singleton]
      rw [hruns, List.length_append, List.length_singleton] at hj
      rcases Nat.lt_succ_iff_lt_or_eq.1 hj with hj | rfl
      · exact .inl (hafter j hij hj)
      · exact .inr rfl

/-- A run that waits, where none is live. -/
theorem Core.waiting (h : s.Core) (hnone : ∀ i, ¬ s.Live i) (hruns : s'.runs = s.runs ++ [r])
    (hwrote : s'.wrote = s.wrote) (hcontroller : s'.controller = some s.runs.length) : s'.Core where
  ascending := by
    rw [hwrote]
    exact h.ascending
  wrote_lt := by
    intro i hi
    rw [hruns, List.length_append, List.length_singleton]
    rw [hwrote] at hi
    exact Nat.lt_succ_of_lt (h.wrote_lt i hi)
  live := by
    rintro i ⟨r', hr', hfin, habort⟩
    rw [hruns] at hr'
    have hlast : i = s.runs.length := by
      rcases Nat.lt_trichotomy i s.runs.length with hlt | heq | hgt
      · rw [List.getElem?_append_left hlt] at hr'
        exact absurd ⟨r', hr', hfin, habort⟩ (hnone i)
      · exact heq
      · have hlen := (List.getElem?_eq_some_iff.1 hr').1
        rw [List.length_append, List.length_singleton] at hlen
        omega
    subst hlast
    rw [hwrote, hruns, List.length_append, List.length_singleton]
    exact ⟨hcontroller, fun hmem => absurd (h.wrote_lt _ hmem) (Nat.lt_irrefl _),
      fun j hj hlt => by omega⟩

/-- **Starting a run keeps the order**: answered from the cache it is the
last to write, and else it aborts the one before. -/
theorem Core.run (h : s.Core) : (s.run known q net).Core := by
  unfold SearchState.run
  dsimp only
  split
  · exact h.immediate rfl rfl fun i hlive => (h.live i hlive).1
  · have hnone : ∀ i, ¬ s.abort.Live i := fun _ => h.not_live_abort
    split
    · refine h.abort.immediate rfl ?_ fun i hlive => absurd hlive (hnone i)
      dsimp only
      rw [abort_length]
    · refine h.abort.waiting hnone rfl rfl ?_
      dsimp only
      rw [abort_length]

theorem run_query : (s.run known q net).query = s.query := by
  unfold SearchState.run
  dsimp only
  split
  · rfl
  · split <;> exact abort_query

/-- A run that is not answered from the cache shows nothing as it
starts. -/
theorem run_results (hmiss : cacheGet (net ++ "::" ++ q) s.cache = none) :
    (s.run known q net).results = .empty ∨ (s.run known q net).results = s.results := by
  unfold SearchState.run
  dsimp only
  rw [hmiss]
  dsimp only
  split
  · exact .inl rfl
  · exact .inr abort_results

theorem run_results_cached {cached : Option SearchResults} {cache : Cache}
    (hhit : cacheGet (net ++ "::" ++ q) s.cache = some (cached, cache)) :
    (s.run known q net).results = cached.getD .empty := by
  unfold SearchState.run
  dsimp only
  rw [hhit]

/-! ## Completing a run -/

/-- A change that revives no run keeps the order. -/
theorem Core.modifyRun (h : s.Core) (hf : Quiets f) : (s.modifyRun i f).Core where
  ascending := h.ascending
  wrote_lt := by
    rw [modifyRun_length]
    exact h.wrote_lt
  live := by
    intro j hlive
    rw [modifyRun_length]
    exact h.live j (live_of_modifyRun hf hlive)

theorem quiets_finish : Quiets fun r => { r with finished := true } :=
  fun _ hfin _ => absurd hfin (by simp)

/-- **The last run writes.** -/
theorem Core.write (h : s.Core) (hi : s.Live i) (hlast : i + 1 = s.runs.length)
    (hruns : s'.runs = (s.modifyRun i fun r => { r with finished := true }).runs)
    (hwrote : s'.wrote = s.wrote ++ [i]) : s'.Core where
  ascending := by
    rw [hwrote, List.pairwise_append]
    refine ⟨h.ascending, List.pairwise_singleton _ _, fun j hj k hk => ?_⟩
    rw [List.mem_singleton.1 hk]
    have hlt := h.wrote_lt j hj
    have hne : j ≠ i := fun heq => (h.live i hi).2.1 (heq ▸ hj)
    omega
  wrote_lt := by
    intro j hj
    rw [hruns, modifyRun_length]
    rw [hwrote, List.mem_append, List.mem_singleton] at hj
    rcases hj with hj | rfl
    · exact h.wrote_lt j hj
    · exact hi.lt
  live := by
    intro j hlive
    have hfinished : (s.modifyRun i fun r => { r with finished := true }).Live j := by
      unfold Live at hlive ⊢
      rwa [hruns] at hlive
    -- The only live run was the one that finished.
    have hold := live_of_modifyRun quiets_finish hfinished
    have hsame : s.controller = some j := (h.live j hold).1
    rw [(h.live i hi).1] at hsame
    exact absurd (Option.some.inj hsame).symm (ne_of_live_finish hfinished)

/-- **What completing a run does**: an aborted or rejected one is over, and
a live one writes. -/
theorem settle_cases (hr : s.runs[i]? = some r) (hsettle : s.settle i r = some s') :
    s' = s.modifyRun i (fun r => { r with finished := true }) ∧
        (r.rejected = true ∨ r.aborted = true) ∨
      s.Live i ∧ r.rejected = false ∧ r.aborted = false ∧
        s'.runs = (s.modifyRun i fun r => { r with finished := true }).runs ∧
          s'.wrote = s.wrote ++ [i] ∧ s'.results = r.acc ∧ s'.query = s.query := by
  unfold settle at hsettle
  dsimp only at hsettle
  split at hsettle
  · exact absurd hsettle (by simp)
  · next hfin =>
    split at hsettle
    · next hrejected =>
      obtain rfl := Option.some.inj hsettle
      exact .inl ⟨rfl, .inl hrejected⟩
    · next hrejected =>
      split at hsettle
      · exact absurd hsettle (by simp)
      · split at hsettle
        · next habort =>
          obtain rfl := Option.some.inj hsettle
          exact .inl ⟨rfl, .inr habort⟩
        · next habort =>
          obtain rfl := Option.some.inj hsettle
          rw [Bool.not_eq_true] at hfin hrejected habort
          exact .inr ⟨⟨r, hr, hfin, habort⟩, hrejected, habort, rfl, rfl, rfl, rfl⟩

/-! ## Every run of the page -/

/-- **Stale results do not replace fresh ones**: the runs wrote in the
order they were started, and an empty query has no results. -/
def Sound (s : SearchState) : Prop :=
  s.wrote.Pairwise (· < ·) ∧ (s.trimmed = "" → s.results.isEmpty = true)

/-- **Where a step is harmless.** The timer does not fire on an empty query
for one that the cache has results of, and a run that completes without
being aborted is the last that was started, and has found nothing if the
query is empty. -/
def Harmless (s : SearchState) : SearchAction → Prop
  | .fire => s.trimmed = "" → ∀ q net cached cache, s.debounced = some (q, net) →
      cacheGet (net ++ "::" ++ q) s.cache = some (cached, cache) →
        (cached.getD .empty).isEmpty = true
  | .settle i => ∀ r, s.runs[i]? = some r → r.rejected = false → r.aborted = false →
      i + 1 = s.runs.length ∧ (s.trimmed = "" → r.acc.isEmpty = true)
  | _ => True

/-- The invariant of harmless steps. -/
def Inv (s : SearchState) : Prop := s.Core ∧ (s.trimmed = "" → s.results.isEmpty = true)

theorem Inv.sound (h : s.Inv) : s.Sound := ⟨h.1.ascending, h.2⟩

/-- **A harmless step keeps it.** -/
theorem Inv.step (h : s.Inv) (hok : s.Harmless a) (hstep : searchStep known s a = some s') :
    s'.Inv := by
  obtain ⟨hcore, hclear⟩ := h
  cases a with
  | turn edits =>
    obtain rfl := Option.some.inj hstep
    exact ⟨hcore.turn edits, turn_cleared hclear edits⟩
  | fire =>
    obtain ⟨⟨q, net⟩, hdebounced, rfl⟩ := Option.map_eq_some_iff.1 hstep
    have hfired : ({ s with debounced := none } : SearchState).Core := hcore.congr rfl rfl rfl
    refine ⟨hfired.run, fun hempty => ?_⟩
    have hquery : s.trimmed = "" := by
      rw [trimmed, run_query] at hempty
      exact hempty
    rcases hcache : cacheGet (net ++ "::" ++ q) s.cache with - | ⟨cached, cache⟩
    · rcases run_results (s := { s with debounced := none }) hcache with hres | hres
      · rw [hres]
        rfl
      · rw [hres]
        exact hclear hquery
    · rw [run_results_cached (s := { s with debounced := none }) hcache]
      exact hok hquery q net cached cache hdebounced hcache
  | probe i k outcome =>
    obtain ⟨r, hr, hstep⟩ := Option.bind_eq_some_iff.1 hstep
    obtain ⟨job, hjob, hstep⟩ := Option.bind_eq_some_iff.1 hstep
    cases outcome with
    | abortError =>
      obtain rfl := Option.some.inj hstep
      exact ⟨hcore.modifyRun fun _ hfin habort => ⟨hfin, habort⟩, hclear⟩
    | answer found =>
      obtain ⟨acc, hacc, rfl⟩ := Option.map_eq_some_iff.1 hstep
      exact ⟨hcore.modifyRun fun _ hfin habort => ⟨hfin, habort⟩, hclear⟩
  | settle i =>
    obtain ⟨r, hr, hsettle⟩ := Option.bind_eq_some_iff.1 hstep
    rcases settle_cases hr hsettle with
      ⟨rfl, -⟩ | ⟨hlive, hrej, habort, hruns, hwrote, hres, hquery⟩
    · exact ⟨hcore.modifyRun quiets_finish, hclear⟩
    · obtain ⟨hlast, hnothing⟩ := hok r hr hrej habort
      refine ⟨hcore.write hlive hlast hruns hwrote, fun hempty => ?_⟩
      rw [hres]
      refine hnothing ?_
      rwa [trimmed, hquery] at hempty
  | cacheChanged cache =>
    obtain rfl := Option.some.inj hstep
    exact ⟨hcore.congr rfl rfl rfl, hclear⟩
  | worldChanged liveBlocks token =>
    obtain rfl := Option.some.inj hstep
    exact ⟨hcore.congr rfl rfl rfl, hclear⟩

/-- **Any other step does harm.** -/
theorem Inv.harmless (h : s.Inv) (hstep : searchStep known s a = some s') (hsound : s'.Sound) :
    s.Harmless a := by
  cases a with
  | fire =>
    intro hempty q net cached cache hdebounced hcache
    obtain ⟨pair, hpair, rfl⟩ := Option.map_eq_some_iff.1 hstep
    obtain rfl := Option.some.inj (hpair.symm.trans hdebounced)
    have hres := hsound.2
    dsimp only at hres
    rw [trimmed, run_query, run_results_cached (s := { s with debounced := none }) hcache] at hres
    exact hres hempty
  | settle i =>
    intro r hr hrej habort
    obtain ⟨r', hr', hsettle⟩ := Option.bind_eq_some_iff.1 hstep
    obtain rfl := Option.some.inj (hr.symm.trans hr')
    rcases settle_cases hr hsettle with ⟨-, hover⟩ | ⟨hlive, -, -, -, hwrote, hres, hquery⟩
    · rcases hover with hover | hover
      · exact absurd (hrej.symm.trans hover) (by simp)
      · exact absurd (habort.symm.trans hover) (by simp)
    · obtain ⟨hascending, hcleared⟩ := hsound
      rw [hwrote, List.pairwise_append] at hascending
      rw [trimmed, hquery, hres] at hcleared
      refine ⟨?_, hcleared⟩
      by_contra hne
      have hlt := hlive.lt
      -- A run that was started later has written.
      have hlater := (h.1.live i hlive).2.2 (i + 1) (Nat.lt_succ_self i) (by omega)
      have hbefore := hascending.2.2 (i + 1) hlater i (List.mem_singleton_self i)
      omega
  | _ => trivial

theorem inv_start {activeId token : Option String} {cache : Cache} {liveBlocks : List Block} :
    (start activeId cache liveBlocks token).Inv := by
  refine ⟨⟨List.Pairwise.nil, fun i hi => absurd hi List.not_mem_nil, ?_⟩, fun _ => rfl⟩
  rintro i ⟨r, hr, -⟩
  exact absurd hr (by simp [start])

/-- **When stale results never replace fresh ones.** In all states of a
run, just if every step is harmless. -/
theorem sound_iff (known : KnownAccounts) (activeId : Option String) (cache : Cache)
    (liveBlocks : List Block) (token : Option String) (as : List SearchAction) (s : SearchState)
    (hrun : AllfeatExplorer.run (searchStep known) (start activeId cache liveBlocks token) as =
      some s) :
    (∀ pre u, pre <+: as →
        AllfeatExplorer.run (searchStep known) (start activeId cache liveBlocks token) pre =
          some u →
          u.Sound) ↔
      EveryStep (searchStep known) Harmless (start activeId cache liveBlocks token) as :=
  holds_iff_everyStep (I := Inv) (fun _ _ _ hu hok hstep => hu.step hok hstep)
    (fun _ hu => hu.sound) (fun _ _ _ hu hstep hv => hu.harmless hstep hv) inv_start hrun

/-- A registry without accounts. -/
def noAccounts : KnownAccounts := ⟨fun _ _ _ => [], fun _ _ => none⟩

/-- A query, and another before the probe of the first is answered, which
aborts its run. -/
def twoQueries : List SearchAction :=
  [.turn [.query "12-3"], .fire, .turn [.query "34-5"], .fire,
    .probe 1 0 (.answer none), .settle 1, .probe 0 0 (.answer none), .settle 0]

/-- The aborted run completes last and writes nothing. -/
theorem sound_iff_two : ∃ s, AllfeatExplorer.run (searchStep noAccounts)
    (start (some "allfeat") [] [] none) twoQueries = some s ∧ s.Sound ∧ s.wrote = [1] := by
  obtain ⟨s, hs, hwrote⟩ : ∃ s, AllfeatExplorer.run (searchStep noAccounts)
      (start (some "allfeat") [] [] none) twoQueries = some s ∧ s.wrote = [1] := ⟨_, rfl, rfl⟩
  refine ⟨s, hs, (sound_iff noAccounts (some "allfeat") [] [] none twoQueries s hs).2
    ⟨trivial, ?_, trivial, ?_, trivial, ?_, trivial, ?_, trivial⟩ _ _ List.prefix_rfl hs, hwrote⟩
  · exact fun hempty => absurd hempty (by decide)
  · exact fun hempty => absurd hempty (by decide)
  · exact fun r hr hrej habort => ⟨rfl, fun hempty => absurd hempty (by decide)⟩
  · intro r hr hrej habort
    obtain rfl := Option.some.inj hr
    cases habort

/-- A query whose probes are slow, and one that the cache has. -/
def cachedAfter : List SearchAction :=
  [.turn [.query "1"], .fire, .turn [.query "2"], .fire,
    .probe 0 0 (.answer none), .probe 0 0 (.answer none), .settle 0]

/-- **The older run overwrites the newer one**, which was answered from the
cache and aborted nothing. -/
theorem not_sound_cached : ¬ ∀ known activeId cache liveBlocks token as s,
    AllfeatExplorer.run (searchStep known) (start activeId cache liveBlocks token) as = some s →
      s.Sound := by
  intro hall
  have hrun : ((AllfeatExplorer.run (searchStep noAccounts)
      (start (some "allfeat") [("allfeat::2", none)] [] none) cachedAfter).map fun s => s.wrote) =
        some [1, 0] := by decide +kernel
  obtain ⟨s, hs, hwrote⟩ := Option.map_eq_some_iff.1 hrun
  have hsound := (hall _ _ _ _ _ _ s hs).1
  rw [hwrote] at hsound
  exact absurd hsound (by decide)

end SearchState

end Search

end AllfeatExplorer
