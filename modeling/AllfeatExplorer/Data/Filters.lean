import AllfeatExplorer.Data.Model.Lists
import AllfeatExplorer.Data.BlockViews

/-!
# The filter in SQL and the filter in memory

An extrinsic is filtered twice: while it is pending, in memory; once it is
indexed, by a `WHERE` over its row. The row keeps a signer and a success
flag where the value shows `signed` and a result, and on those the two
read alike. They part on one kind of extrinsic. The `WHERE` shows the
unsigned extrinsic at index 0 when the filters ask for it; the scans in
memory skip it before they look at the filters.
-/

namespace AllfeatExplorer

open Projections Queries

variable {net : Network} {blk : NodeBlock} {n i : ℕ} {ext : NodeExtrinsic} {ts : ℤ}
  {filters : ExtrinsicFilters}

/-- Whether extrinsic `i` succeeded, by its events. -/
def outcome (blk : NodeBlock) (i : ℕ) : CallResult :=
  callResult (resolveOutcome (eventsOfExtrinsic blk.events i)).1

/-- The mapper shows the outcome the projection resolves. -/
theorem result_mapExtrinsic : (Rpc.mapExtrinsic net n blk i ext).result = outcome blk i := by
  have hloop : (eventsOfExtrinsic blk.events i).foldl (Rpc.mapEvent net) ([], .success, 0) = _ :=
    foldl_mapEvent (eventsOfExtrinsic blk.events i) [] true 0
  simp only [Rpc.mapExtrinsic, hloop, List.nil_append]
  rfl

/-- **The filters ask for an inherent**: they open the hole the list has
at index 0, and no other field of theirs excludes the extrinsic. -/
structure ExtrinsicFilters.AskFor (filters : ExtrinsicFilters) (ext : NodeExtrinsic)
    (result : CallResult) : Prop where
  opened : filters.signed = some false ∨ filters.signed = none ∧ filters.pallet = some "Timestamp"
  pallet : ∀ pallet ∈ filters.pallet, ext.palletName = pallet
  call : ∀ call ∈ filters.call, ext.callName = call
  status : ∀ status ∈ filters.status, result = status

/-- The fields but `signed`, as either side compares them. -/
def namesMatch (filters : ExtrinsicFilters) (ext : NodeExtrinsic) (result : CallResult) : Bool :=
  (filters.pallet.all fun pallet => ext.palletName = pallet) &&
  (filters.call.all fun call => ext.callName = call) &&
  (filters.status.all fun status => result = status)

theorem namesMatch_iff {result : CallResult} : namesMatch filters ext result = true ↔
    (∀ pallet ∈ filters.pallet, ext.palletName = pallet) ∧
      (∀ call ∈ filters.call, ext.callName = call) ∧
      ∀ status ∈ filters.status, result = status := by
  simp only [namesMatch, Bool.and_eq_true, Option.all_eq_true, decide_eq_true_eq, and_assoc,
    Option.mem_def]

/-- A success flag is compared as the result it stands for. -/
theorem success_eq_status {success : Bool} {status : CallResult} :
    (success = decide (status = .success)) ↔ callResult success = status := by
  rcases success <;> rcases status <;> simp [callResult]

/-- Whether there is a signer is compared as the flag it stands for. -/
theorem signer_eq_signed {isSigned signed : Bool} :
    (if signed then isSigned else !isSigned) = decide (isSigned = signed) := by
  rcases signed <;> rcases isSigned <;> rfl

/-- **What the `WHERE` clause asks of a stored row.** -/
theorem extrinsicAdmitted_eq (hi : i ≤ u32Max) (hext : ext.AccountSigned) :
    extrinsicAdmitted filters (Sink.extrinsicRow ts (Extrinsics.mapOne blk n i ext)) =
      ((!(decide (filters.signed ≠ some false ∧ filters.pallet ≠ some "Timestamp")) ||
          !(decide (i = 0) && !ext.isSigned)) &&
        (filters.signed.all fun signed => ext.isSigned = signed) &&
        namesMatch filters ext (outcome blk i)) := by
  have hidx : (asI32 i = 0) = (i = 0) := by
    have hzero : asI32 0 = 0 := rfl
    rw [← hzero, eq_iff_iff, asI32_inj hi (Nat.zero_le _)]
  have hsuccess : (Extrinsics.mapOne blk n i ext).success =
      (resolveOutcome (eventsOfExtrinsic blk.events i)).1 := rfl
  have hsigner : (Extrinsics.mapOne blk n i ext).signer.isSome = ext.isSigned :=
    hext.isSome_signer
  have hnone : (Extrinsics.mapOne blk n i ext).signer.isNone = !ext.isSigned := by
    rw [← hsigner, Option.not_isSome]
  have hindex : (Extrinsics.mapOne blk n i ext).idx = i := rfl
  simp only [extrinsicAdmitted, Sink.extrinsicRow, ofLex_toLex, hindex, hidx, hsigner, hnone,
    hsuccess, signer_eq_signed, success_eq_status, namesMatch, Bool.and_assoc, Bool.decide_and]
  rfl

/-- **What the scans in memory ask of the value shown.** -/
theorem extrinsicSelected_eq :
    extrinsicSelected (Rpc.mapExtrinsic net n blk i ext) filters =
      (!(decide (i = 0) && !ext.isSigned) &&
        (filters.signed.all fun signed => ext.isSigned = signed) &&
        namesMatch filters ext (outcome blk i)) := by
  simp only [extrinsicSelected, extrinsicMatchesFilters, result_mapExtrinsic, namesMatch,
    Bool.and_assoc]
  rfl

/-- **The two filters agree on an extrinsic** exactly when it is not an
unsigned one at index 0 that the filters ask for. -/
theorem admitted_eq_selected_iff (hi : i ≤ u32Max) (hext : ext.AccountSigned) :
    extrinsicAdmitted filters (Sink.extrinsicRow ts (Extrinsics.mapOne blk n i ext)) =
        extrinsicSelected (Rpc.mapExtrinsic net n blk i ext) filters ↔
      ¬ (i = 0 ∧ ext.isSigned = false ∧ filters.AskFor ext (outcome blk i)) := by
  rw [extrinsicAdmitted_eq hi hext, extrinsicSelected_eq]
  by_cases hzero : i = 0 ∧ ext.isSigned = false
  swap
  -- Any other extrinsic is not hidden on either side.
  · have hshown : (decide (i = 0) && !ext.isSigned) = false := by
      rw [← Bool.not_eq_true, Bool.and_eq_true, decide_eq_true_eq, Bool.not_eq_true']
      exact hzero
    simp only [hshown, Bool.not_false, Bool.or_true]
    exact iff_of_true trivial fun h => hzero ⟨h.1, h.2.1⟩
  obtain ⟨hi0, hunsigned⟩ := hzero
  have hhidden : (decide (i = 0) && !ext.isSigned) = true := by
    rw [hunsigned, decide_eq_true hi0]
    rfl
  rw [hhidden, Bool.not_true, Bool.or_false, Bool.false_and, Bool.false_and, ← Bool.not_eq_true,
    Bool.and_eq_true, Bool.and_eq_true, namesMatch_iff, hunsigned]
  simp only [hi0, true_and, not_iff_not]
  have hopened : (!decide (filters.signed ≠ some false ∧ filters.pallet ≠ some "Timestamp")) = true
        ∧ (filters.signed.all fun signed => decide (false = signed)) = true ↔
      filters.signed = some false ∨ filters.signed = none ∧ filters.pallet = some "Timestamp" := by
    rcases filters.signed with - | (- | -) <;> simp
  rw [hopened]
  constructor
  · rintro ⟨hopen, hpallet, hcall, hstatus⟩
    exact ⟨hopen, hpallet, hcall, hstatus⟩
  · rintro ⟨hopen, hpallet, hcall, hstatus⟩
    exact ⟨hopen, hpallet, hcall, hstatus⟩

/-! ## The timestamp inherent -/

/-- `Timestamp::set`, the inherent of a `tickChain` block. -/
def tickInherent : NodeExtrinsic :=
  { hash := .fill 1
    palletName := "Timestamp"
    callName := "set"
    addressBytes := none
    nonce := none
    tip := none
    callData := [byte 1, byte 0, byte 40]
    byteLength := 5 }

theorem tickInherent_accountSigned : tickInherent.AccountSigned := by
  intro address haddr
  cases haddr

/-- With no filter both hide it. -/
theorem admitted_eq_selected_tick :
    extrinsicAdmitted ⟨none, none, none, none⟩
        (Sink.extrinsicRow 0 (Extrinsics.mapOne (tickChain 1) 1 0 tickInherent)) =
      extrinsicSelected (Rpc.mapExtrinsic tickNetwork 1 (tickChain 1) 0 tickInherent)
        ⟨none, none, none, none⟩ := by
  refine (admitted_eq_selected_iff (Nat.zero_le _) tickInherent_accountSigned).mpr ?_
  rintro ⟨-, -, hask⟩
  rcases hask.opened with hopen | ⟨-, hopen⟩
  · cases hopen
  · cases hopen

/-- **Under `signed=false`** the database lists it and the scans in memory
do not. -/
theorem admitted_ne_selected_tick :
    tickInherent ∈ (tickChain 1).extrinsics ∧
      extrinsicAdmitted ⟨some false, none, none, none⟩
        (Sink.extrinsicRow 0 (Extrinsics.mapOne (tickChain 1) 1 0 tickInherent)) = true ∧
      extrinsicSelected (Rpc.mapExtrinsic tickNetwork 1 (tickChain 1) 0 tickInherent)
        ⟨some false, none, none, none⟩ = false :=
  ⟨List.mem_singleton.mpr rfl, by decide, by decide⟩

end AllfeatExplorer
