import Mathlib.Algebra.BigOperators.Group.List.Basic
import Mathlib.Algebra.Order.BigOperators.Group.List
import AllfeatExplorer.Lib.Aggregate
import AllfeatExplorer.Data.Model.Token

/-!
# What vests, and what circulates

Vesting is linear between a start and an end, cut off at what is released
already; the product it divides may saturate, which only ever makes it
less. The overview splits the supply into what is locked, what envelopes
still hold and the rest, each allocation and each registered envelope
counted once.
-/

namespace AllfeatExplorer

namespace Token

variable {net : Network} {head head' start vested released duration : ℕ}

/-! ## Vesting -/

/-- **What is claimable**, as a value. -/
def claimable (head start vested released duration : ℕ) : ℕ :=
  if head ≤ start then 0
  else if duration = 0 ∨ duration ≤ head - start then vested - released
  else satMulU128 vested (head - start) / duration - released

/-- **It never faults**: the subtraction and the division are behind their
guards. -/
theorem claimableAmount_eq :
    claimableAmount head start vested released duration =
      some (claimable head start vested released duration) := by
  unfold claimableAmount claimable
  by_cases hstart : head ≤ start
  · rw [if_pos hstart, if_pos hstart]
  rw [if_neg hstart, if_neg hstart, checkedSubU64, if_pos (by omega), Option.bind_some]
  by_cases hend : duration = 0 ∨ duration ≤ head - start
  · rw [if_pos hend, if_pos hend]
  · rw [if_neg hend, if_neg hend, checkedDivU128, if_neg fun hzero => hend (.inl hzero),
      Option.map_some]

/-- What has vested before the end, saturated or not, is at most the
total. -/
theorem vestedNow_le {elapsed : ℕ} (h : elapsed ≤ duration) :
    satMulU128 vested elapsed / duration ≤ vested := by
  rcases Nat.eq_zero_or_pos duration with rfl | hpos
  · rw [Nat.div_zero]
    exact Nat.zero_le vested
  · calc satMulU128 vested elapsed / duration
        ≤ vested * duration / duration :=
          Nat.div_le_div_right ((min_le_left _ _).trans (Nat.mul_le_mul_left vested h))
      _ = vested := Nat.mul_div_cancel vested hpos

theorem claimable_le : claimable head start vested released duration ≤ vested - released := by
  unfold claimable
  split
  · exact Nat.zero_le _
  · split
    · exact le_rfl
    · rename_i hend
      exact Nat.sub_le_sub_right (vestedNow_le (by omega)) released

/-- **More is claimable later.** -/
theorem claimable_mono (h : head ≤ head') :
    claimable head start vested released duration ≤
      claimable head' start vested released duration := by
  by_cases hend' : start < head' ∧ (duration = 0 ∨ duration ≤ head' - start)
  · -- Later on all of it is.
    have hall : claimable head' start vested released duration = vested - released := by
      rw [claimable, if_neg (by omega), if_pos hend'.2]
    rw [hall]
    exact claimable_le
  · unfold claimable
    by_cases hstart : head ≤ start
    · rw [if_pos hstart]
      exact Nat.zero_le _
    · rw [if_neg hstart, if_neg (by omega), if_neg (by omega : ¬ head' ≤ start), if_neg (by omega)]
      have hmul : satMulU128 vested (head - start) ≤ satMulU128 vested (head' - start) :=
        min_le_min_right _ (Nat.mul_le_mul_left vested (by omega))
      exact Nat.sub_le_sub_right (Nat.div_le_div_right hmul) released

/-- **An allocation is always built**, and vests from the later of its own
start and the cliff. -/
theorem buildAllocation_eq (net : Network) (id : ℕ) (alloc : OnChainAllocation)
    (cliff duration head : ℕ) :
    ∃ a, buildAllocation net id alloc cliff duration head = some a ∧
      a.startBlock = max alloc.start cliff ∧
      a.claimableNow =
        claimable head (max alloc.start cliff) alloc.vestedTotal alloc.released duration := by
  simp only [buildAllocation, claimableAmount_eq, Option.map_some]
  exact ⟨_, rfl, rfl, rfl⟩

/-- **Vesting claims stay within the allocation.** What is claimable never
faults, is at most the remainder, is nothing up to the start and all of
the remainder from the end on, is the floor of the linear share in between
where the product fits, and never falls as the head rises; and an
allocation, which starts at its cliff at the earliest, has nothing
claimable up to the cliff and never more than its total with what is
released. -/
theorem vesting_within_allocation :
    (∀ head start vested released duration, ∃ v,
      claimableAmount head start vested released duration = some v ∧
      v ≤ vested - released ∧
      (head ≤ start → v = 0) ∧
      (start < head → duration = 0 ∨ duration ≤ head - start → v = vested - released) ∧
      (start < head → head - start < duration → vested * (head - start) ≤ u128Max →
        v = vested * (head - start) / duration - released) ∧
      ∀ head', head ≤ head' →
        ∃ v', claimableAmount head' start vested released duration = some v' ∧ v ≤ v') ∧
    ∀ (net : Network) id alloc cliff duration head, ∃ a,
      buildAllocation net id alloc cliff duration head = some a ∧
      a.startBlock = max alloc.start cliff ∧
      (head ≤ cliff → a.claimableNow = 0) ∧
      (alloc.released ≤ alloc.vestedTotal →
        a.claimableNow + alloc.released ≤ alloc.vestedTotal) := by
  refine ⟨fun head start vested released duration => ?_,
    fun net id alloc cliff duration head => ?_⟩
  · refine ⟨_, claimableAmount_eq, claimable_le, fun hstart => ?_, fun hstart hend => ?_,
      fun hstart hend hfits => ?_, fun head' hle => ⟨_, claimableAmount_eq, claimable_mono hle⟩⟩
    · rw [claimable, if_pos hstart]
    · rw [claimable, if_neg (by omega), if_pos hend]
    · rw [claimable, if_neg (by omega), if_neg (by omega), satMulU128, min_eq_left hfits]
  · obtain ⟨a, hbuild, hstart, hclaim⟩ := buildAllocation_eq net id alloc cliff duration head
    refine ⟨a, hbuild, hstart, fun hcliff => ?_, fun hreleased => ?_⟩
    · rw [hclaim, claimable, if_pos (by omega)]
    · have hle : claimable head (max alloc.start cliff) alloc.vestedTotal alloc.released duration ≤
          alloc.vestedTotal - alloc.released := claimable_le
      rw [hclaim]
      omega

/-! ## The scan of the allocations -/

/-- What an allocation holds back. -/
def held (entry : ℕ × OnChainAllocation) : ℕ := entry.2.vestedTotal - entry.2.released

/-- The allocations that name an envelope. -/
def TokenStorage.allocationsOf (storage : TokenStorage) (id : EnvelopeId) :
    List (ℕ × OnChainAllocation) :=
  storage.allocations.filter fun a => toDomainEnvelopeId a.2.envelope = id

/-- The envelope is registered. -/
def TokenStorage.Registered (storage : TokenStorage) (id : EnvelopeId) : Prop :=
  (storage.envelopes (toOnchainEnvelopeId id)).isSome

instance (storage : TokenStorage) : DecidablePred storage.Registered :=
  fun id => inferInstanceAs (Decidable ((storage.envelopes (toOnchainEnvelopeId id)).isSome = true))

/-- What a registered envelope has left to distribute. -/
def TokenStorage.reserveOf (storage : TokenStorage) (id : EnvelopeId) : ℕ :=
  match storage.envelopes (toOnchainEnvelopeId id) with
  | none => 0
  | some config => config.totalCap - storage.envelopeDistributed (toOnchainEnvelopeId id)

section Scan

variable {treasury : AccountId} {tally : Tally} {entries : List (ℕ × OnChainAllocation)}

theorem satAddU128_le (a b : ℕ) : satAddU128 a b ≤ u128Max := min_le_right _ _

theorem satAddU128_min (a b c : ℕ) :
    min (satAddU128 a b + c) u128Max = min (a + (b + c)) u128Max := by
  unfold satAddU128
  omega

/-- **Saturating on the way is one clamp at the end.** -/
theorem locked_foldl (h : tally.locked ≤ u128Max) :
    (entries.foldl (Tally.step treasury) tally).locked =
      min (tally.locked + (entries.map held).sum) u128Max := by
  have hcounter : (entries.foldl (Tally.step treasury) tally).locked =
      entries.foldl (fun n entry => min (n + held entry) u128Max) tally.locked :=
    (List.foldl_hom Tally.locked fun _ _ => rfl).symm
  rw [hcounter, Aggregate.foldl_saturating h]

/-- **The treasury's part is that of its own allocations.** -/
theorem treasuryLocked_foldl (h : tally.treasuryLocked ≤ u128Max) :
    (entries.foldl (Tally.step treasury) tally).treasuryLocked =
      min (tally.treasuryLocked +
        ((entries.filter fun entry => decide (entry.2.beneficiary = treasury)).map held).sum)
          u128Max := by
  have hcounter : (entries.foldl (Tally.step treasury) tally).treasuryLocked =
      entries.foldl (fun n entry =>
        if decide (entry.2.beneficiary = treasury) = true then min (n + held entry) u128Max else n)
          tally.treasuryLocked := by
    refine (List.foldl_hom Tally.treasuryLocked fun tally entry => ?_).symm
    by_cases hmine : entry.2.beneficiary = treasury
    · rw [Tally.step, if_pos hmine, if_pos (decide_eq_true hmine)]
      rfl
    · rw [Tally.step, if_neg hmine, if_neg (by simpa using hmine)]
  rw [hcounter, ← List.foldl_filter, Aggregate.foldl_saturating h]

/-- And so never more than the whole. -/
theorem sum_held_filter_le (p : ℕ × OnChainAllocation → Bool) :
    ((entries.filter p).map held).sum ≤ (entries.map held).sum :=
  (List.filter_sublist.map held).sum_le_sum fun _ _ => Nat.zero_le _

/-- **The buckets are the allocations by envelope**, in the order of the
scan. -/
theorem buckets_foldl :
    (entries.foldl (Tally.step treasury) tally).buckets =
      entries.foldl (fun m a => m.push (toDomainEnvelopeId a.2.envelope) a) tally.buckets := by
  induction entries generalizing tally with
  | nil => rfl
  | cons entry entries ih =>
    rw [List.foldl_cons, ih, List.foldl_cons]
    rfl

theorem getD_buckets_foldl (id : EnvelopeId) :
    ((entries.foldl (Tally.step treasury) ⟨0, 0, .empty⟩).buckets.get id).getD [] =
      entries.filter fun a => toDomainEnvelopeId a.2.envelope = id := by
  rw [buckets_foldl]
  have hrows : ((Buckets.ofRows (fun a : ℕ × OnChainAllocation => toDomainEnvelopeId a.2.envelope)
      (fun a => a) entries).get id).getD [] = _ := Buckets.getD_ofRows
  rw [List.map_id'] at hrows
  exact hrows

end Scan

/-! ## The loop over the envelopes -/

section Loop

variable {storage : TokenStorage} {id : EnvelopeId} {ids : List EnvelopeId}
  {buckets : Buckets EnvelopeId (ℕ × OnChainAllocation)} {reserves : ℕ}
  {envelopes : List EnvelopeInfo}

/-- **The entry of an envelope**, if it is registered. -/
def envelopeEntry (net : Network) (storage : TokenStorage) (id : EnvelopeId) :
    Option EnvelopeInfo :=
  (storage.envelopes (toOnchainEnvelopeId id)).map fun config =>
    buildEnvelopeInfo net storage.palletId id config
      (storage.envelopeDistributed (toOnchainEnvelopeId id))
      (config.uniqueBeneficiary.map net.encodeSs58) (wrapU32 (storage.allocationsOf id).length)

theorem envelopeEntry_of_none (net : Network)
    (h : storage.envelopes (toOnchainEnvelopeId id) = none) :
    envelopeEntry net storage id = none ∧ storage.reserveOf id = 0 ∧ ¬ storage.Registered id := by
  refine ⟨by rw [envelopeEntry, h, Option.map_none], by rw [TokenStorage.reserveOf, h], ?_⟩
  rw [TokenStorage.Registered, h]
  exact Bool.false_ne_true

theorem envelopeEntry_of_some (net : Network) {config : OnChainEnvelopeConfig}
    (h : storage.envelopes (toOnchainEnvelopeId id) = some config) :
    envelopeEntry net storage id = some (buildEnvelopeInfo net storage.palletId id config
        (storage.envelopeDistributed (toOnchainEnvelopeId id))
        (config.uniqueBeneficiary.map net.encodeSs58)
        (wrapU32 (storage.allocationsOf id).length)) ∧
      storage.reserveOf id =
        config.totalCap - storage.envelopeDistributed (toOnchainEnvelopeId id) ∧
      storage.Registered id := by
  refine ⟨by rw [envelopeEntry, h, Option.map_some], by rw [TokenStorage.reserveOf, h], ?_⟩
  rw [TokenStorage.Registered, h]
  rfl

/-- **The loop reads each envelope once**: as long as the buckets of the
envelopes to come are untouched, it lists their entries and clamps their
reserves once. -/
theorem envelopeLoop_eq (hnodup : ids.Nodup)
    (hbuckets : ∀ id ∈ ids, (buckets.get id).getD [] = storage.allocationsOf id)
    (hreserves : reserves ≤ u128Max) :
    envelopeLoop net storage ids buckets (reserves, envelopes) =
      (min (reserves + (ids.map storage.reserveOf).sum) u128Max,
        envelopes ++ ids.filterMap (envelopeEntry net storage)) := by
  induction ids generalizing buckets reserves envelopes with
  | nil =>
    rw [envelopeLoop, List.map_nil, List.sum_nil, Nat.add_zero, min_eq_left hreserves,
      List.filterMap_nil, List.append_nil]
  | cons id ids ih =>
    obtain ⟨hnotMem, hnodup⟩ := List.nodup_cons.mp hnodup
    have htail : ∀ id' ∈ ids, (buckets.get id').getD [] = storage.allocationsOf id' :=
      fun id' h => hbuckets id' (List.mem_cons_of_mem _ h)
    unfold envelopeLoop
    rcases hconfig : storage.envelopes (toOnchainEnvelopeId id) with _ | config
    · obtain ⟨hentry, hreserve, -⟩ := envelopeEntry_of_none net hconfig
      simp only
      rw [ih hnodup htail hreserves, List.map_cons, List.sum_cons, hreserve, Nat.zero_add,
        List.filterMap_cons_none hentry]
    · obtain ⟨hentry, hreserve, -⟩ := envelopeEntry_of_some net hconfig
      -- Removing this bucket leaves those of the envelopes to come.
      have hremoved : ∀ id' ∈ ids,
          (((buckets.remove id).get id').getD []) = storage.allocationsOf id' := by
        intro id' h
        have hne : id' ≠ id := fun heq => hnotMem (heq ▸ h)
        rw [Buckets.get_remove_of_ne hne]
        exact htail id' h
      simp only
      rw [ih hnodup hremoved (satAddU128_le _ _), hbuckets id List.mem_cons_self, satAddU128_min,
        ← hreserve, List.map_cons, List.sum_cons, List.filterMap_cons_some hentry,
        List.append_assoc, List.singleton_append]

/-- The rows of one key more: none of them were among those of the keys
before. -/
theorem countP_mem_cons {κ α : Type} [DecidableEq κ] {key : α → κ} {p : κ → Prop}
    [DecidablePred p] {k : κ} {ks : List κ} {l : List α} (hk : k ∉ ks) (hp : p k) :
    l.countP (fun a => key a ∈ k :: ks ∧ p (key a)) =
      l.countP (fun a => key a = k) + l.countP fun a => key a ∈ ks ∧ p (key a) := by
  induction l with
  | nil => rfl
  | cons a l ih =>
    rw [List.countP_cons, List.countP_cons, List.countP_cons, ih]
    by_cases heq : key a = k
    · simp only [heq, List.mem_cons, hp, hk]
      simp
      omega
    · simp only [heq, List.mem_cons]
      simp
      omega

/-- **Each allocation of a registered envelope is counted once.** -/
theorem sum_allocationCount (hnodup : ids.Nodup)
    (hcounts : ∀ id, (storage.allocationsOf id).length ≤ u32Max) :
    ((ids.filterMap (envelopeEntry net storage)).map (·.allocationCount)).sum =
      (storage.allocations.filter fun a =>
        toDomainEnvelopeId a.2.envelope ∈ ids ∧
          storage.Registered (toDomainEnvelopeId a.2.envelope)).length := by
  induction ids with
  | nil => simp
  | cons id ids ih =>
    obtain ⟨hnotMem, hnodup⟩ := List.nodup_cons.mp hnodup
    rcases hconfig : storage.envelopes (toOnchainEnvelopeId id) with _ | config
    · obtain ⟨hentry, -, hunregistered⟩ := envelopeEntry_of_none net hconfig
      rw [List.filterMap_cons_none hentry, ih hnodup]
      congr 1
      refine List.filter_congr fun a _ => decide_eq_decide.mpr ?_
      rw [List.mem_cons]
      refine ⟨fun ⟨hmem, hreg⟩ => ⟨.inr hmem, hreg⟩, fun ⟨hmem, hreg⟩ => ⟨?_, hreg⟩⟩
      exact hmem.resolve_left fun heq => hunregistered (heq ▸ hreg)
    · obtain ⟨hentry, -, hreg⟩ := envelopeEntry_of_some net hconfig
      have hfits : wrapU32 (storage.allocationsOf id).length = (storage.allocationsOf id).length :=
        wrapU32_of_le (hcounts id)
      rw [List.filterMap_cons_some hentry, List.map_cons, List.sum_cons, ih hnodup]
      simp only [buildEnvelopeInfo]
      rw [hfits, TokenStorage.allocationsOf, ← List.countP_eq_length_filter,
        ← List.countP_eq_length_filter, ← List.countP_eq_length_filter]
      exact (countP_mem_cons hnotMem hreg).symm

end Loop

/-! ## Supply -/

theorem toOnchain_toDomain (id : OnChainEnvelopeId) :
    toOnchainEnvelopeId (toDomainEnvelopeId id) = id := by
  cases id <;> rfl

theorem mem_all (id : EnvelopeId) : id ∈ EnvelopeId.all := by
  cases id <;> decide

theorem all_nodup : EnvelopeId.all.Nodup := by
  decide

/-- The parts of the overview that the scan and the loop make. -/
theorem buildTokenOverview_eq (net : Network) (storage : TokenStorage) (headBlock : ℕ)
    (tokenSymbol : String) :
    let o := buildTokenOverview net storage headBlock tokenSymbol
    o.totalSupply = storage.totalIssuance ∧
      o.locked = min (storage.allocations.map held).sum u128Max ∧
      o.envelopeReserves = min (EnvelopeId.all.map storage.reserveOf).sum u128Max ∧
      o.circulating = storage.totalIssuance - o.locked - o.envelopeReserves ∧
      o.treasury.locked = min ((storage.allocations.filter fun a =>
        decide (a.2.beneficiary = storage.treasuryAccount)).map held).sum u128Max ∧
      o.envelopes = EnvelopeId.all.filterMap (envelopeEntry net storage) := by
  let tally := storage.allocations.foldl (Tally.step storage.treasuryAccount) ⟨0, 0, .empty⟩
  have hlocked : tally.locked = min (0 + (storage.allocations.map held).sum) u128Max :=
    locked_foldl (Nat.zero_le _)
  have htreasury : tally.treasuryLocked = min (0 + ((storage.allocations.filter fun a =>
      decide (a.2.beneficiary = storage.treasuryAccount)).map held).sum) u128Max :=
    treasuryLocked_foldl (Nat.zero_le _)
  have hloop : envelopeLoop net storage EnvelopeId.all tally.buckets (0, []) =
      (min (0 + (EnvelopeId.all.map storage.reserveOf).sum) u128Max,
        [] ++ EnvelopeId.all.filterMap (envelopeEntry net storage)) :=
    envelopeLoop_eq all_nodup (fun id _ => getD_buckets_foldl id) (Nat.zero_le _)
  rw [Nat.zero_add] at hlocked htreasury
  rw [Nat.zero_add, List.nil_append] at hloop
  simp only [buildTokenOverview]
  rw [hloop]
  exact ⟨trivial, hlocked, rfl, trivial, htreasury, rfl⟩

/-- A run of steps that each give something gives one thing for each. -/
theorem mapM_of_forall_some {α β : Type} {f : α → Option β} {l : List α}
    (h : ∀ a ∈ l, ∃ b, f a = some b) : ∃ bs, l.mapM f = some bs ∧ bs.length = l.length := by
  induction l with
  | nil => exact ⟨[], rfl, rfl⟩
  | cons a l ih =>
    obtain ⟨b, hb⟩ := h a List.mem_cons_self
    obtain ⟨bs, hbs, hlength⟩ := ih fun a ha => h a (List.mem_cons_of_mem _ ha)
    refine ⟨b :: bs, ?_, by rw [List.length_cons, List.length_cons, hlength]⟩
    rw [List.mapM_cons, hb, hbs]
    rfl

/-- An entry names its envelope and counts its allocations. -/
theorem envelopeEntry_eq_some {storage : TokenStorage} {id : EnvelopeId} {info : EnvelopeInfo}
    (h : envelopeEntry net storage id = some info) :
    info.id = id ∧ info.allocationCount = wrapU32 (storage.allocationsOf id).length := by
  obtain ⟨config, -, rfl⟩ := Option.map_eq_some_iff.mp h
  exact ⟨rfl, rfl⟩

/-- **The entries listed**, by the envelopes they name. -/
theorem map_id_filterMap (storage : TokenStorage) (ids : List EnvelopeId) :
    (ids.filterMap (envelopeEntry net storage)).map (·.id) =
      ids.filter fun id => (envelopeEntry net storage id).isSome := by
  induction ids with
  | nil => rfl
  | cons id ids ih =>
    rcases hentry : envelopeEntry net storage id with _ | info
    · rw [List.filterMap_cons_none hentry, ih, List.filter_cons_of_neg (by simp [hentry])]
    · rw [List.filterMap_cons_some hentry, List.map_cons, ih,
        List.filter_cons_of_pos (by simp [hentry]), (envelopeEntry_eq_some hentry).1]

/-- **A detail is there for each registered envelope**, with the entry of
the overview and as many allocations as it counts. -/
theorem buildEnvelopeDetail_eq (net : Network) (storage : TokenStorage) (id : EnvelopeId)
    (headBlock : ℕ) :
    ∃ detail, buildEnvelopeDetail net storage id headBlock = some detail ∧
      detail.map (·.envelope) = envelopeEntry net storage id ∧
      ∀ d, detail = some d → d.allocations.length = (storage.allocationsOf id).length := by
  unfold buildEnvelopeDetail
  rcases hconfig : storage.envelopes (toOnchainEnvelopeId id) with _ | config
  · obtain ⟨hentry, -⟩ := envelopeEntry_of_none net hconfig
    exact ⟨none, rfl, hentry.symm, fun d h => absurd h (by simp)⟩
  · obtain ⟨hentry, -⟩ := envelopeEntry_of_some net hconfig
    obtain ⟨collected, hcollected, hlength⟩ := mapM_of_forall_some
      (f := fun a : ℕ × OnChainAllocation =>
        buildAllocation net a.1 a.2 config.cliff config.vestingDuration headBlock)
      (l := storage.allocationsOf id)
      fun a _ => (buildAllocation_eq net a.1 a.2 _ _ _).imp fun _ h => h.1
    rw [TokenStorage.allocationsOf] at hcollected
    simp only [hcollected, Option.map_some]
    refine ⟨_, rfl, ?_, ?_⟩
    · rw [hentry, Option.map_some, List.length_mergeSort, hlength]
    · rintro d ⟨⟩
      rw [List.length_mergeSort, hlength]

/-- **The token overview conserves supply.** Where what the allocations
hold back and what the registered envelopes have left fit in the issuance,
and an envelope's allocations fit its counter, what is locked and what is
reserved are these sums, the three parts of the supply add up to it, the
treasury's is what its own allocations hold, within what is locked, and
each allocation of a registered envelope is counted once; and an envelope
has a detail exactly if it is listed, with the overview's own entry for
it. -/
theorem overview_conserves_supply {storage : TokenStorage}
    (hissuance : storage.totalIssuance ≤ u128Max)
    (hcounts : ∀ id, (storage.allocationsOf id).length ≤ u32Max)
    (hsum : (storage.allocations.map held).sum + (EnvelopeId.all.map storage.reserveOf).sum ≤
      storage.totalIssuance)
    (net : Network) (headBlock : ℕ) (tokenSymbol : String) :
    let o := buildTokenOverview net storage headBlock tokenSymbol
    o.totalSupply = storage.totalIssuance ∧
      o.locked = (storage.allocations.map held).sum ∧
      o.envelopeReserves = (EnvelopeId.all.map storage.reserveOf).sum ∧
      o.circulating + o.locked + o.envelopeReserves = o.totalSupply ∧
      o.treasury.locked = ((storage.allocations.filter fun a =>
        decide (a.2.beneficiary = storage.treasuryAccount)).map held).sum ∧
      o.treasury.locked ≤ o.locked ∧
      (o.envelopes.map (·.allocationCount)).sum =
        (storage.allocations.filter fun a => (storage.envelopes a.2.envelope).isSome).length ∧
      (o.envelopes.map (·.id)).Nodup ∧
      ∀ id, ∃ detail, buildEnvelopeDetail net storage id headBlock = some detail ∧
        (detail.isSome ↔ id ∈ o.envelopes.map (·.id)) ∧
        ∀ d, detail = some d → d.envelope ∈ o.envelopes ∧ d.envelope.id = id ∧
          d.envelope.allocationCount = d.allocations.length := by
  obtain ⟨htotal, hlocked, hreserves, hcirculating, htreasury, hlisted⟩ :=
    buildTokenOverview_eq net storage headBlock tokenSymbol
  have hpart : ((storage.allocations.filter fun a =>
      decide (a.2.beneficiary = storage.treasuryAccount)).map held).sum ≤
        (storage.allocations.map held).sum :=
    sum_held_filter_le _
  refine ⟨htotal, by omega, by omega, by omega, by omega, by omega, ?_, ?_, fun id => ?_⟩
  · rw [hlisted, sum_allocationCount all_nodup hcounts]
    congr 1
    refine List.filter_congr fun a _ => ?_
    simp only [TokenStorage.Registered, toOnchain_toDomain, mem_all, true_and, Bool.decide_eq_true]
  · rw [hlisted]
    rw [map_id_filterMap]
    exact all_nodup.filter _
  · obtain ⟨detail, hdetail, hentry, hlength⟩ := buildEnvelopeDetail_eq net storage id headBlock
    refine ⟨detail, hdetail, ?_, fun d hd => ?_⟩
    · rw [hlisted, map_id_filterMap, List.mem_filter, ← hentry, Option.isSome_map]
      exact (and_iff_right (mem_all id)).symm
    · have hd' : envelopeEntry net storage id = some d.envelope := by
        rw [← hentry, hd, Option.map_some]
      obtain ⟨hid, hcount⟩ := envelopeEntry_eq_some hd'
      refine ⟨?_, hid, ?_⟩
      · rw [hlisted]
        exact List.mem_filterMap.mpr ⟨id, mem_all id, hd'⟩
      · rw [hcount, hlength d hd]
        exact Nat.mod_eq_of_lt (Nat.lt_succ_of_le (hcounts id))

/-- Two allocations, one of an envelope that is not registered. -/
def twoAllocations : TokenStorage where
  palletId := List.replicate 8 (byte 0)
  epochDuration := 10
  treasuryAccount := ⟨List.replicate 32 (byte 1), rfl⟩
  totalIssuance := 1000
  epochIndex := 0
  nextPayoutAt := 10
  treasuryFree := 0
  allocations :=
    [(0, ⟨.teams, ⟨List.replicate 32 (byte 1), rfl⟩, 100, 0, 100, 40, 0⟩),
      (1, ⟨.listing, ⟨List.replicate 32 (byte 2), rfl⟩, 50, 0, 50, 0, 0⟩)]
  envelopes := fun id => if id = .teams then some ⟨300, 0, 0, 100, none⟩ else none
  envelopeDistributed := fun _ => 100

theorem overview_conserves_supply_two :
    let o := buildTokenOverview plainNetwork twoAllocations 20 "AFT"
    o.totalSupply = 1000 ∧ o.locked = 110 ∧ o.envelopeReserves = 200 ∧
      o.circulating + o.locked + o.envelopeReserves = o.totalSupply ∧
      o.treasury.locked = 60 ∧ (o.envelopes.map (·.allocationCount)).sum = 1 ∧
      ∃ detail, buildEnvelopeDetail plainNetwork twoAllocations .teams 20 = some detail ∧
        (detail.isSome ↔ .teams ∈ o.envelopes.map (·.id)) := by
  have hcounts (id : EnvelopeId) : (twoAllocations.allocationsOf id).length ≤ u32Max :=
    (List.length_filter_le _ _).trans (by decide)
  obtain ⟨htotal, hlocked, hreserves, hsupply, htreasury, -, hcount, -, hdetail⟩ :=
    overview_conserves_supply (by decide) hcounts (by decide)
      plainNetwork 20 "AFT"
  obtain ⟨detail, hread, hlisted, -⟩ := hdetail .teams
  exact ⟨htotal, hlocked, hreserves, hsupply, htreasury, hcount, detail, hread, hlisted⟩

end Token

end AllfeatExplorer
