import AllfeatExplorer.Lib.StableSort
import AllfeatExplorer.Data.Ss58
import AllfeatExplorer.Data.Token

/-!
# One allocation, in two lists

The account's list and the envelope's are read off the one scan of the
allocations, the one by the beneficiary and the other by the envelope. The
account's reads the terms of an envelope once and keeps them, which does
not show. So where the two overlap they are the same list, in one order.
-/

namespace AllfeatExplorer

namespace Token

variable {net : Network} {storage : TokenStorage} {headBlock : ℕ} {account : AccountId}
  {parseSs58 : String → Option AccountId} {address : String} {id : EnvelopeId}
  {entry : ℕ × OnChainAllocation} {entries : List (ℕ × OnChainAllocation)} {a : Allocation}

/-! ## One entry -/

/-- What is built of an entry has its id, and names its envelope and its
beneficiary. -/
theorem of_buildAllocation {allocId cliff duration : ℕ} {alloc : OnChainAllocation}
    (h : buildAllocation net allocId alloc cliff duration headBlock = some a) :
    a.id = allocId ∧ a.envelope = toDomainEnvelopeId alloc.envelope ∧
      a.beneficiary = net.encodeSs58 alloc.beneficiary := by
  obtain ⟨claimableNow, -, rfl⟩ := Option.map_eq_some_iff.mp h
  exact ⟨rfl, rfl, rfl⟩

/-- The envelope that an entry names. -/
def envelopeOf (entry : ℕ × OnChainAllocation) : EnvelopeId := toDomainEnvelopeId entry.2.envelope

theorem isSome_buildAllocation (net : Network) (storage : TokenStorage) (headBlock : ℕ)
    (entry : ℕ × OnChainAllocation) :
    (buildAllocation net entry.1 entry.2 (envelopeTerms storage (envelopeOf entry)).1
      (envelopeTerms storage (envelopeOf entry)).2 headBlock).isSome = true := by
  obtain ⟨a, ha, -⟩ := buildAllocation_eq net entry.1 entry.2
    (envelopeTerms storage (envelopeOf entry)).1 (envelopeTerms storage (envelopeOf entry)).2
    headBlock
  rw [ha]
  rfl

/-- **An entry as it is shown**, on the terms of its envelope. -/
def shownAllocation (net : Network) (storage : TokenStorage) (headBlock : ℕ)
    (entry : ℕ × OnChainAllocation) : Allocation :=
  (buildAllocation net entry.1 entry.2 (envelopeTerms storage (envelopeOf entry)).1
    (envelopeTerms storage (envelopeOf entry)).2 headBlock).get
      (isSome_buildAllocation net storage headBlock entry)

theorem buildAllocation_terms (net : Network) (storage : TokenStorage) (headBlock : ℕ)
    (entry : ℕ × OnChainAllocation) :
    buildAllocation net entry.1 entry.2 (envelopeTerms storage (envelopeOf entry)).1
      (envelopeTerms storage (envelopeOf entry)).2 headBlock =
        some (shownAllocation net storage headBlock entry) :=
  (Option.some_get _).symm

theorem shownAllocation_fields (net : Network) (storage : TokenStorage) (headBlock : ℕ)
    (entry : ℕ × OnChainAllocation) :
    (shownAllocation net storage headBlock entry).id = entry.1 ∧
      (shownAllocation net storage headBlock entry).envelope = envelopeOf entry ∧
      (shownAllocation net storage headBlock entry).beneficiary =
        net.encodeSs58 entry.2.beneficiary :=
  of_buildAllocation (buildAllocation_terms net storage headBlock entry)

/-- **Without terms** all of the remainder is claimable past the start. -/
theorem claimableNow_of_unregistered
    (hnone : storage.envelopes (toOnchainEnvelopeId (envelopeOf entry)) = none) :
    (shownAllocation net storage headBlock entry).claimableNow =
      if headBlock ≤ (shownAllocation net storage headBlock entry).startBlock then 0
      else (shownAllocation net storage headBlock entry).vestedTotal -
        (shownAllocation net storage headBlock entry).released := by
  have hterms : envelopeTerms storage (envelopeOf entry) = (0, 0) := by
    rw [envelopeTerms, hnone]
    rfl
  have hbuilt := buildAllocation_terms net storage headBlock entry
  rw [hterms, buildAllocation, claimableAmount_eq] at hbuilt
  rw [← Option.some.inj hbuilt]
  change claimable headBlock (max entry.2.start 0) entry.2.vestedTotal entry.2.released 0 = _
  rw [claimable, if_pos (.inl rfl : 0 = 0 ∨ 0 ≤ headBlock - max entry.2.start 0)]

/-! ## The account's list -/

/-- **The terms kept** are those that a read would give. -/
def TermsKept (storage : TokenStorage) (configCache : EnvelopeId → Option (ℕ × ℕ)) : Prop :=
  ∀ id v, configCache id = some v → v = envelopeTerms storage id

/-- Reading through what is kept reads the terms, and keeps no others. -/
theorem cachedTerms_eq {configCache : EnvelopeId → Option (ℕ × ℕ)}
    (h : TermsKept storage configCache) (id : EnvelopeId) :
    (cachedTerms storage configCache id).1 = envelopeTerms storage id ∧
      TermsKept storage (cachedTerms storage configCache id).2 := by
  unfold cachedTerms
  split
  · rename_i v hv
    exact ⟨h id v hv, h⟩
  · refine ⟨rfl, fun id' v hv => ?_⟩
    change (if id' = id then some (envelopeTerms storage id) else configCache id') = some v at hv
    split at hv
    · rename_i heq
      subst heq
      exact (Option.some.inj hv).symm
    · exact h id' v hv

/-- **The loop shows the account's entries**, in the order of the scan,
whatever is kept of the terms. -/
theorem accountLoop_eq {configCache : EnvelopeId → Option (ℕ × ℕ)}
    (h : TermsKept storage configCache) (out : List Allocation) :
    accountLoop net storage account headBlock entries configCache out =
      some (out ++ (entries.filter fun e => decide (e.2.beneficiary = account)).map
        (shownAllocation net storage headBlock)) := by
  induction entries generalizing configCache out with
  | nil => rw [accountLoop, List.filter_nil, List.map_nil, List.append_nil]
  | cons entry entries ih =>
    rw [accountLoop]
    by_cases hmine : entry.2.beneficiary = account
    · obtain ⟨hterms, hkept⟩ := cachedTerms_eq h (envelopeOf entry)
      rw [if_neg (not_not_intro hmine), List.filter_cons, if_pos (decide_eq_true hmine)]
      change (buildAllocation net entry.1 entry.2
        (cachedTerms storage configCache (envelopeOf entry)).1.1
        (cachedTerms storage configCache (envelopeOf entry)).1.2 headBlock).bind (fun a =>
          accountLoop net storage account headBlock entries
            (cachedTerms storage configCache (envelopeOf entry)).2 (out ++ [a])) = _
      rw [hterms, buildAllocation_terms, Option.bind_some, ih hkept, List.map_cons,
        List.append_assoc, List.singleton_append]
    · rw [if_pos hmine, ih h, List.filter_cons, if_neg (by simpa using hmine)]

/-- **An account's list**: its entries, the greatest total first. -/
theorem buildAccountAllocations_eq (haddress : parseSs58 address = some account) :
    buildAccountAllocations net parseSs58 storage address headBlock =
      some (((storage.allocations.filter fun e => decide (e.2.beneficiary = account)).map
        (shownAllocation net storage headBlock)).mergeSort
          fun a b => decide (b.total ≤ a.total)) := by
  have hempty : TermsKept storage fun _ => none := fun id v hv => by cases hv
  rw [buildAccountAllocations, haddress]
  change (accountLoop net storage account headBlock storage.allocations _ []).map _ = _
  rw [accountLoop_eq hempty, Option.map_some, List.nil_append]

/-! ## The envelope's list -/

theorem mapM_shownAllocation {f : ℕ × OnChainAllocation → Option Allocation}
    (h : ∀ e ∈ entries, f e = some (shownAllocation net storage headBlock e)) :
    entries.mapM f = some (entries.map (shownAllocation net storage headBlock)) := by
  induction entries with
  | nil => rfl
  | cons entry entries ih =>
    rw [List.mapM_cons, h entry List.mem_cons_self,
      ih fun e he => h e (List.mem_cons_of_mem entry he)]
    rfl

/-- **An envelope's list**: its entries, the greatest total first. -/
theorem allocations_of_buildEnvelopeDetail {detail : EnvelopeDetail}
    (h : buildEnvelopeDetail net storage id headBlock = some (some detail)) :
    detail.allocations = ((storage.allocationsOf id).map
      (shownAllocation net storage headBlock)).mergeSort fun a b => decide (b.total ≤ a.total) := by
  unfold buildEnvelopeDetail at h
  cases hconfig : storage.envelopes (toOnchainEnvelopeId id) with
  | none =>
    rw [hconfig] at h
    cases h
  | some config =>
    rw [hconfig] at h
    have hterms : envelopeTerms storage id = (config.cliff, config.vestingDuration) := by
      rw [envelopeTerms, hconfig]
      rfl
    have hshown : (storage.allocationsOf id).mapM (fun e =>
        buildAllocation net e.1 e.2 config.cliff config.vestingDuration headBlock) =
          some ((storage.allocationsOf id).map (shownAllocation net storage headBlock)) := by
      refine mapM_shownAllocation fun e he => ?_
      have henvelope : envelopeOf e = id := of_decide_eq_true (List.mem_filter.mp he).2
      have hbuilt := buildAllocation_terms net storage headBlock e
      rwa [henvelope, hterms] at hbuilt
    rw [TokenStorage.allocationsOf] at hshown ⊢
    simp only [hshown, Option.map_some, Option.some.injEq] at h
    rw [← h]

/-! ## The two lists -/

/-- **A selection of a list sorted by total** is the selection, sorted. -/
theorem filter_sorted (entries : List (ℕ × OnChainAllocation)) (p : Allocation → Bool) :
    ((entries.map (shownAllocation net storage headBlock)).mergeSort
        fun a b => decide (b.total ≤ a.total)).filter p =
      ((entries.filter fun e => p (shownAllocation net storage headBlock e)).map
        (shownAllocation net storage headBlock)).mergeSort
          fun a b => decide (b.total ≤ a.total) := by
  rw [← mergeSort_filter_desc Allocation.total, List.filter_map]
  rfl

/-- **The lists of an account and of an envelope agree.** An account's has
what is built of its entries in the storage, each once, the greatest total
first, and of the allocations of a registered envelope it has exactly
those that the envelope's list has under its address, in the same order
and with the same values. Those of an envelope that is not registered vest
at once. -/
theorem account_envelope_agree {crates : Ss58.Crates} {p : UInt16} (hcrates : crates.Documented)
    (hnet : net.WritesSs58 crates p) (parseSs58 : String → Option AccountId) (address : String)
    (haddress : parseSs58 address = some account) (storage : TokenStorage) (headBlock : ℕ) :
    ∃ built mine,
      (storage.allocations.filter fun e => decide (e.2.beneficiary = account)).mapM (fun e =>
        buildAllocation net e.1 e.2 (envelopeTerms storage (envelopeOf e)).1
          (envelopeTerms storage (envelopeOf e)).2 headBlock) = some built ∧
      buildAccountAllocations net parseSs58 storage address headBlock = some mine ∧
      mine = built.mergeSort (fun a b => decide (b.total ≤ a.total)) ∧
      mine.Pairwise (fun a b => b.total ≤ a.total) ∧
      List.Perm (mine.map (·.id))
        ((storage.allocations.filter fun e => decide (e.2.beneficiary = account)).map Prod.fst) ∧
      (∀ a ∈ mine, a.beneficiary = net.encodeSs58 account) ∧
      (∀ id detail, buildEnvelopeDetail net storage id headBlock = some (some detail) →
        mine.filter (fun a => decide (a.envelope = id)) =
          detail.allocations.filter fun a => decide (a.beneficiary = net.encodeSs58 account)) ∧
      ∀ id, buildEnvelopeDetail net storage id headBlock = some none →
        ∀ a ∈ mine, a.envelope = id →
          a.claimableNow = if headBlock ≤ a.startBlock then 0 else a.vestedTotal - a.released := by
  have hss58 : Function.Injective net.encodeSs58 := hnet.injective hcrates
  refine ⟨_, _, mapM_shownAllocation fun e _ => buildAllocation_terms net storage headBlock e,
    buildAccountAllocations_eq haddress, rfl, pairwise_mergeSort_desc _ _, ?_, ?_, ?_, ?_⟩
  · refine ((List.mergeSort_perm _ _).map _).trans (List.Perm.of_eq ?_)
    rw [List.map_map]
    exact List.map_congr_left fun e _ => (shownAllocation_fields net storage headBlock e).1
  · intro a ha
    obtain ⟨e, he, rfl⟩ := List.mem_map.mp (List.mem_mergeSort.mp ha)
    obtain ⟨-, -, hbeneficiary⟩ := shownAllocation_fields net storage headBlock e
    rw [hbeneficiary, of_decide_eq_true (List.mem_filter.mp he).2]
  · intro id detail hdetail
    rw [allocations_of_buildEnvelopeDetail hdetail, filter_sorted, filter_sorted,
      TokenStorage.allocationsOf, List.filter_filter, List.filter_filter]
    refine congrArg (fun entries : List (ℕ × OnChainAllocation) =>
      (entries.map (shownAllocation net storage headBlock)).mergeSort
        fun a b => decide (b.total ≤ a.total)) (List.filter_congr fun e _ => ?_)
    obtain ⟨-, henvelope, hbeneficiary⟩ := shownAllocation_fields net storage headBlock e
    have hsame : net.encodeSs58 e.2.beneficiary = net.encodeSs58 account ↔
        e.2.beneficiary = account := hss58.eq_iff
    rw [henvelope, hbeneficiary, decide_eq_decide.mpr hsame, Bool.and_comm]
    rfl
  · intro id hdetail a ha henvelope
    obtain ⟨e, -, rfl⟩ := List.mem_map.mp (List.mem_mergeSort.mp ha)
    obtain ⟨-, hnamed, -⟩ := shownAllocation_fields net storage headBlock e
    refine claimableNow_of_unregistered ?_
    rw [← hnamed, henvelope]
    cases hconfig : storage.envelopes (toOnchainEnvelopeId id) with
    | none => rfl
    | some config =>
      obtain ⟨detail, hread, hentry, -⟩ := buildEnvelopeDetail_eq net storage id headBlock
      rw [(envelopeEntry_of_some net hconfig).1, Option.some.inj (hread.symm.trans hdetail)]
        at hentry
      cases hentry

/-- Besides, a greater allocation of the first beneficiary, in the envelope
that is not registered. -/
def threeAllocations : TokenStorage :=
  { twoAllocations with
    allocations := twoAllocations.allocations ++
      [(2, ⟨.listing, twoAllocations.treasuryAccount, 150, 0, 150, 0, 0⟩)] }

/-- The list of that beneficiary has its two allocations, and the
registered envelope's one of them. -/
theorem account_envelope_agree_three :
    ∃ mine detail, buildAccountAllocations allfeatNetwork
        (fun _ => some twoAllocations.treasuryAccount) threeAllocations "treasury" 20 = some mine ∧
      buildEnvelopeDetail allfeatNetwork threeAllocations .teams 20 = some (some detail) ∧
      List.Perm (mine.map (·.id)) [0, 2] ∧
      mine.filter (fun a => decide (a.envelope = .teams)) = detail.allocations.filter fun a =>
        decide (a.beneficiary = allfeatNetwork.encodeSs58 twoAllocations.treasuryAccount) := by
  obtain ⟨-, mine, -, hmine, -, -, hids, -, hagree, -⟩ := account_envelope_agree
    Ss58.sampleCrates_documented allfeatNetwork_writes
    (fun _ => some twoAllocations.treasuryAccount) "treasury" rfl threeAllocations 20
  exact ⟨mine, _, hmine, rfl, hids, hagree .teams _ rfl⟩

end Token

end AllfeatExplorer
