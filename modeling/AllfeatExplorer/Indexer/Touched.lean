import AllfeatExplorer.Lib.FirstSeen
import AllfeatExplorer.Indexer.Model.Projections

/-!
# The touched accounts of a block

The accounts whose snapshot a block refreshes: those its events name, and
the signers of its extrinsics. The list is free of duplicates and in
first-touch order whatever the events are. It names every account they
do unless `ReserveRepatriated` moves funds to an account nothing else in
the block names: that event's arm pushes the source alone.
-/

namespace AllfeatExplorer

open Projections

/-! ## The accounts of an event -/

/-- **The account fields of a recognised event**, as its pallet declares
them. -/
def EventBody.accountFields : EventBody → List AccountId
  | transfer src dst _ | reserveRepatriated src dst _ | transferAndHold src dst _
  | transferOnHold src dst _ => [src, dst]
  | endowed account _ | dustLost account _ => [account]
  | deposit who _ | withdraw who _ | slashed who _ | reserved who _ | unreserved who _
  | burned who _ | minted who _ | frozen who _ | thawed who _ | locked who _ | unlocked who _
  | held who _ | released who _ | burnedHeld who _ | restored who _ | suspended who _
  | balanceSet who | upgraded who | transactionFeePaid who _ => [who]
  | atsCreated .. | atsUpdated .. | atsRevoked .. | extrinsicFailed | other .. => []

/-- The destination of a `ReserveRepatriated`. -/
def EventBody.repatriatedTo : EventBody → Option AccountId
  | reserveRepatriated _ dst _ => some dst
  | _ => none

/-- The account fields but for the destination of a
`ReserveRepatriated`. -/
def EventBody.otherFields : EventBody → List AccountId
  | reserveRepatriated src _ _ => [src]
  | body => body.accountFields

theorem EventBody.mem_accountFields_iff {body : EventBody} {a : AccountId} :
    a ∈ body.accountFields ↔ a ∈ body.otherFields ∨ body.repatriatedTo = some a := by
  cases body with
  | reserveRepatriated src dst amount =>
    simp [EventBody.accountFields, EventBody.otherFields, EventBody.repatriatedTo, eq_comm]
  | _ => simp [EventBody.otherFields, EventBody.repatriatedTo]

/-- The signers of extrinsic rows, in order. -/
def signers (rows : List ExtrinsicRow) : List AccountId :=
  rows.filterMap ExtrinsicRow.signer

/-! ## What the loops push -/

/-- An arm of `decode_balance_event` pushes the event's fields, less a
`ReserveRepatriated`'s destination. -/
theorem decodeBalanceEvent_touched (evt : NodeEvent) (touched : List AccountId) :
    (decodeBalanceEvent evt touched).1 = touched ++ evt.body.otherFields := by
  unfold decodeBalanceEvent
  cases evt.body <;> simp [EventBody.otherFields, EventBody.accountFields]

theorem decodeLoop_touched (evts : List NodeEvent) (idx : ℕ) (touched : List AccountId)
    (decoded : List (ℕ × DecodedBalanceEvent)) :
    (Balances.decodeLoop idx evts touched decoded).1 =
      touched ++ evts.flatMap fun evt => evt.body.otherFields := by
  induction evts generalizing idx touched decoded with
  | nil => simp [Balances.decodeLoop]
  | cons evt evts ih =>
    have hevt := decodeBalanceEvent_touched evt touched
    unfold Balances.decodeLoop
    split
    · rename_i touched' d hd
      rw [hd] at hevt
      rw [ih, List.flatMap_cons, ← List.append_assoc]
      exact congrArg (· ++ _) hevt
    · rename_i touched' hd
      rw [hd] at hevt
      rw [ih, List.flatMap_cons, ← List.append_assoc]
      exact congrArg (· ++ _) hevt

/-- **The accounts a block's events push**, in event order. -/
theorem projectBlock_touchedAccounts (blk : NodeBlock) (blockNum : ℕ) :
    (Balances.projectBlock blk blockNum).touchedAccounts =
      blk.events.flatMap fun evt => evt.body.otherFields := by
  have h := decodeLoop_touched blk.events 0 [] []
  simpa only [Balances.projectBlock, List.nil_append] using h

/-- **`collect_touched` keeps first occurrences** of its two sources, one
after the other. -/
theorem collectTouched_eq (fromEvents : List AccountId) (rows : List ExtrinsicRow) :
    collectTouched fromEvents rows = firstSeen (fromEvents ++ signers rows) := by
  have hpush : pushTouched = (pushNew : List AccountId → AccountId → List AccountId) := rfl
  unfold collectTouched firstSeen signers
  rw [List.foldl_append, hpush, List.foldl_filterMap]
  congr 1
  funext out x
  cases x.signer <;> rfl

theorem map_fst_fetchAccountsAt (blk : NodeBlock) (accounts : List AccountId) :
    (fetchAccountsAt blk accounts).map Prod.fst = accounts := by
  simp [fetchAccountsAt, Function.comp_def]

/-! ## The result -/

/-- **The touched list of a block is right**: no duplicate; in the order
of the first touches; the accounts exactly those the recognised events
and the signers name; and a snapshot for these accounts and no other. -/
structure TouchedComplete (blk : NodeBlock) (blockNum : ℕ) (rows : List ExtrinsicRow)
    (out : List AccountId) : Prop where
  nodup : out.Nodup
  ordered : out.Pairwise fun a b =>
    ((Balances.projectBlock blk blockNum).touchedAccounts ++ signers rows).idxOf a <
      ((Balances.projectBlock blk blockNum).touchedAccounts ++ signers rows).idxOf b
  mem_iff : ∀ a, a ∈ out ↔
    (∃ evt ∈ blk.events, a ∈ evt.body.accountFields) ∨ a ∈ signers rows
  snapshot_iff : ∀ a, (∃ snap, (a, snap) ∈ fetchAccountsAt blk out) ↔
    (∃ evt ∈ blk.events, a ∈ evt.body.accountFields) ∨ a ∈ signers rows

theorem mem_collectTouched_iff {blk : NodeBlock} {blockNum : ℕ} {rows : List ExtrinsicRow}
    {a : AccountId} :
    a ∈ collectTouched (Balances.projectBlock blk blockNum).touchedAccounts rows ↔
      (∃ evt ∈ blk.events, a ∈ evt.body.otherFields) ∨ a ∈ signers rows := by
  rw [collectTouched_eq, mem_firstSeen, List.mem_append, projectBlock_touchedAccounts,
    List.mem_flatMap]

theorem exists_mem_fetchAccountsAt_iff {blk : NodeBlock} {accounts : List AccountId}
    {a : AccountId} : (∃ snap, (a, snap) ∈ fetchAccountsAt blk accounts) ↔ a ∈ accounts := by
  constructor
  · rintro ⟨snap, h⟩
    rw [← map_fst_fetchAccountsAt blk accounts]
    exact List.mem_map_of_mem h
  · intro h
    exact ⟨_, List.mem_map_of_mem h⟩

/-- **The touched list of a block is right exactly when every destination
of a `ReserveRepatriated` is named otherwise**: by another account field
of the block's events, or as a signer. -/
theorem touchedComplete_iff (blk : NodeBlock) (blockNum : ℕ) (rows : List ExtrinsicRow) :
    TouchedComplete blk blockNum rows
        (collectTouched (Balances.projectBlock blk blockNum).touchedAccounts rows) ↔
      ∀ evt ∈ blk.events, ∀ dst, evt.body.repatriatedTo = some dst →
        (∃ evt' ∈ blk.events, dst ∈ evt'.body.otherFields) ∨ dst ∈ signers rows := by
  constructor
  · intro h evt hevt dst hdst
    have hfield : dst ∈ evt.body.accountFields := EventBody.mem_accountFields_iff.mpr (.inr hdst)
    exact mem_collectTouched_iff.mp ((h.mem_iff dst).mpr (.inl ⟨evt, hevt, hfield⟩))
  · intro h
    have hmem : ∀ a, a ∈ collectTouched (Balances.projectBlock blk blockNum).touchedAccounts rows ↔
        (∃ evt ∈ blk.events, a ∈ evt.body.accountFields) ∨ a ∈ signers rows := by
      intro a
      rw [mem_collectTouched_iff]
      constructor
      · rintro (⟨evt, hevt, ha⟩ | ha)
        · exact .inl ⟨evt, hevt, EventBody.mem_accountFields_iff.mpr (.inl ha)⟩
        · exact .inr ha
      · rintro (⟨evt, hevt, ha⟩ | ha)
        · rcases EventBody.mem_accountFields_iff.mp ha with hother | hdst
          · exact .inl ⟨evt, hevt, hother⟩
          · exact h evt hevt a hdst
        · exact .inr ha
    refine ⟨?_, ?_, hmem, ?_⟩
    · rw [collectTouched_eq]
      exact nodup_firstSeen
    · rw [collectTouched_eq]
      exact pairwise_firstSeen
    · intro a
      rw [exists_mem_fetchAccountsAt_iff]
      exact hmem a

/-- A block whose one event repatriates a reserve, with no extrinsic. -/
def repatriation : NodeBlock :=
  { bareChain 1 with
    events :=
      [{ phase := .initialization
         body := .reserveRepatriated (.fill 1) (.fill 2) 5
         fieldBytes := [] }] }

/-- **The destination is left out**: the event names account 2, which
gets no snapshot. -/
theorem not_touchedComplete_repatriation :
    ¬ TouchedComplete repatriation 1 []
        (collectTouched (Balances.projectBlock repatriation 1).touchedAccounts []) := by
  intro h
  have hmissing : Bytes32.fill 2 ∉
      collectTouched (Balances.projectBlock repatriation 1).touchedAccounts [] := by decide
  refine hmissing ((h.mem_iff _).mpr (.inl ?_))
  decide

end AllfeatExplorer
