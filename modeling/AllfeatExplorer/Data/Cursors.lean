import Mathlib.Data.Set.Function
import AllfeatExplorer.Data.Model.Events

/-!
# Cursors read back

A cursor travels as a text: the server writes it into a page and reads it
in the next request. Every field is a decimal number or a letter, none of
which is a dash, so the text splits where it was joined, and a number in
its type's range reads back as itself. A cursor type that reads back what
it writes writes no two cursors alike.
-/

namespace AllfeatExplorer

/-- **A cursor type that reads back what it writes writes no two cursors
alike.** -/
theorem CursorText.RoundTrips.injOn {κ : Type*} {text : CursorText κ} {fits : κ → Prop}
    (h : text.RoundTrips fits) : Set.InjOn text.toText {c | fits c} := by
  intro c hc d hd htext
  have hread : text.fromStr (text.toText c) = .ok c := h c hc
  rw [htext, h d hd] at hread
  exact (Except.ok.inj hread).symm

/-- The text of an event's cursor reads back. -/
theorem eventCursor_roundTrips :
    eventCursor.RoundTrips fun c => c.block ≤ u64Max ∧ c.index ≤ u32Max := by
  rintro ⟨b, phase, i⟩ ⟨hb, hi⟩
  have hdash : ('-' : Char).isDigit = false := by decide
  have houter : Decimal.splitOnce '-' (Decimal.showDec b ++ '-' :: phase.letter :: '-' ::
      Decimal.showDec i) = some (Decimal.showDec b, phase.letter :: '-' :: Decimal.showDec i) :=
    Decimal.splitOnce_append (Decimal.not_mem_showDec hdash)
  have hinner : Decimal.splitOnce '-' (phase.letter :: '-' :: Decimal.showDec i) =
      some ([phase.letter], Decimal.showDec i) := by
    have hletter : '-' ∉ [phase.letter] := by cases phase <;> decide
    exact Decimal.splitOnce_append hletter
  have hphase : parsePhase [phase.letter] = some phase := by cases phase <;> rfl
  simp only [eventCursor, String.toList_ofList, houter, hinner, Option.bind_some, parseEventParts,
    Decimal.readDec_showDec hb, Decimal.readDec_showDec hi, hphase, Option.map_some]

example : eventCursor.fromStr "12-A-3" = .ok ⟨12, .applyExtrinsic, 3⟩ := by decide

/-- **Cursors round-trip.** Over the whole range of its fields, each of
the six cursor types reads back what it writes and writes no two cursors
alike, and the id of an extrinsic is read as its block and index by the
node's endpoints and by the database's. -/
theorem cursors_roundTrip :
    (blockCursor.RoundTrips (fun b => b ≤ u64Max) ∧
      extrinsicCursor.RoundTrips (fun c => c.1 ≤ u64Max ∧ c.2 ≤ u32Max) ∧
      transferCursor.RoundTrips (fun c => c.1 ≤ u64Max ∧ c.2 ≤ u32Max) ∧
      eventCursor.RoundTrips (fun c => c.block ≤ u64Max ∧ c.index ≤ u32Max) ∧
      atsCursor.RoundTrips (fun id => id ≤ u32Max) ∧
      atsFeedCursor.RoundTrips (fun c => c.1 ≤ u64Max ∧ c.2.1 ≤ u32Max ∧ c.2.2 ≤ u32Max)) ∧
    (Set.InjOn blockCursor.toText {b | b ≤ u64Max} ∧
      Set.InjOn extrinsicCursor.toText {c | c.1 ≤ u64Max ∧ c.2 ≤ u32Max} ∧
      Set.InjOn transferCursor.toText {c | c.1 ≤ u64Max ∧ c.2 ≤ u32Max} ∧
      Set.InjOn eventCursor.toText {c | c.block ≤ u64Max ∧ c.index ≤ u32Max} ∧
      Set.InjOn atsCursor.toText {id | id ≤ u32Max} ∧
      Set.InjOn atsFeedCursor.toText {c | c.1 ≤ u64Max ∧ c.2.1 ≤ u32Max ∧ c.2.2 ≤ u32Max}) ∧
    ∀ (block : UInt64) (index : UInt32),
      parseExtrinsicId (extrinsicId block.toNat index.toNat) = some (block.toNat, index.toNat) ∧
      Queries.parseLookup (extrinsicId block.toNat index.toNat) =
        some (.blockIdx block.toNat index.toNat) := by
  refine ⟨⟨blockCursor_roundTrips, extrinsicCursor_roundTrips, transferCursor_roundTrips,
    eventCursor_roundTrips, atsCursor_roundTrips, atsFeedCursor_roundTrips⟩,
    ⟨blockCursor_roundTrips.injOn, extrinsicCursor_roundTrips.injOn,
      transferCursor_roundTrips.injOn, eventCursor_roundTrips.injOn,
      atsCursor_roundTrips.injOn, atsFeedCursor_roundTrips.injOn⟩,
    fun block index => ?_⟩
  have hblock := toNat_le_u64Max block
  have hindex := toNat_le_u32Max index
  exact ⟨parseExtrinsicId_extrinsicId hblock hindex, Queries.parseLookup_extrinsicId hblock hindex⟩

end AllfeatExplorer
