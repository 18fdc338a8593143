import AllfeatExplorer.Data.Model.Queries
import AllfeatExplorer.Data.Model.Rpc

/-!
# What a stored block reads as

A block is fully stored when its rows are those the projections map it
to. Reading it back gives then what the node's mapper gives, extrinsic by
extrinsic and event by event, up to one flag: a row keeps no `signed`, so
the read takes it off the signer (`Extrinsic.reflag`).
-/

namespace AllfeatExplorer

open Projections Queries

variable {net : Network} {db : Db} {blk : NodeBlock} {n i : ℕ} {ext : NodeExtrinsic}

/-- **Block `n` is fully stored**: its row, the rows of its extrinsics and
those of its events are there and no other, and its numbers fit their
columns. -/
structure Db.FullyStored (db : Db) (blk : NodeBlock) (n : ℕ) : Prop where
  num_le : n ≤ i64Max
  count_le : blk.extrinsics.length ≤ i32Max
  phase_le : ∀ evt ∈ blk.events, ∀ i, evt.phase = .applyExtrinsic i → i ≤ i32Max
  block : ∃ authorId,
    db.blocks.find (asI64 n) = some (Sink.blockRow (Blocks.map blk n) authorId)
  extrinsics : rowsOfBlock db.extrinsics (asI64 n) =
    (Extrinsics.map blk n).map (Sink.extrinsicRow (fetchTimestamp blk))
  events : rowsOfBlock db.events (asI64 n) =
    (Events.map blk n).map (Sink.eventRow (fetchTimestamp blk))

/-- **The rows of block `n` are those of the block**: of its extrinsics and
of its events, with indices that fit their columns. -/
structure Db.RowsStored (db : Db) (blk : NodeBlock) (n : ℕ) : Prop where
  num_le : n ≤ i64Max
  index_le : ∀ i < blk.extrinsics.length, i ≤ i32Max
  phase_le : ∀ evt ∈ blk.events, ∀ i, evt.phase = .applyExtrinsic i → i ≤ i32Max
  extrinsics : rowsOfBlock db.extrinsics (asI64 n) =
    (Extrinsics.map blk n).map (Sink.extrinsicRow (fetchTimestamp blk))
  events : rowsOfBlock db.events (asI64 n) =
    (Events.map blk n).map (Sink.eventRow (fetchTimestamp blk))

theorem Db.FullyStored.rows (h : db.FullyStored blk n) : db.RowsStored blk n where
  num_le := h.num_le
  index_le := fun _ hi => le_trans (le_of_lt hi) h.count_le
  phase_le := h.phase_le
  extrinsics := h.extrinsics
  events := h.events

/-- **Unsigned, or signed by an account.** -/
def NodeExtrinsic.AccountSigned (ext : NodeExtrinsic) : Prop :=
  ∀ address, ext.addressBytes = some address → ∃ account, address = some (.id account)

/-- Of such an extrinsic the row has a signer exactly when it is signed. -/
theorem NodeExtrinsic.AccountSigned.isSome_signer (h : ext.AccountSigned) :
    (decodeSignerBytes ext.address).isSome = ext.isSigned := by
  unfold NodeExtrinsic.address NodeExtrinsic.isSigned
  rcases haddr : ext.addressBytes with - | address
  · rfl
  · obtain ⟨account, rfl⟩ := h address haddr
    rfl

/-- An extrinsic with the flag a stored row gives it. -/
def Extrinsic.reflag (x : Extrinsic) : Extrinsic := { x with signed := x.signer.isSome }

/-! ## Columns read back -/

/-- `v.max(0) as u64` of a number that fits a `BIGINT`. -/
theorem toNat_max_asI64 (h : n ≤ i64Max) : (max (asI64 n) 0).toNat = n := by
  rw [asI64_of_le h]
  omega

/-- `v.max(0) as u32` of a number that fits an `INT`. -/
theorem toNat_max_asI32 (h : n ≤ i32Max) : (max (asI32 n) 0).toNat = n := by
  rw [asI32_of_le h]
  omega

/-- A nonce loses the same bits either way. -/
theorem asU32_asI64 : asU32 (asI64 n) = wrapU32 n := by
  simp only [asU32, asI64, wrapU32]
  split <;> omega

/-- An amount's text reads back. -/
theorem parseU128_of_le (h : n ≤ u128Max) : parseU128 n = some n :=
  Decimal.readDec_showDec h

/-- The signer a row keeps is the one the mapper shows. -/
theorem map_decodeSignerBytes :
    (decodeSignerBytes ext.address).map net.encodeSs58 =
      if ext.isSigned then Rpc.decodeSignerSs58 net ext.address else none := by
  unfold NodeExtrinsic.isSigned NodeExtrinsic.address
  rcases ext.addressBytes with - | (- | addr)
  · rfl
  · rfl
  · rcases addr with account | i | bytes | bytes | bytes <;> rfl

/-! ## The two event loops -/

/-- The result shown for a success flag. -/
def callResult (success : Bool) : CallResult := if success then .success else .failed

/-- **The mapper's loop is the projection's**, with the events collected
beside it. -/
theorem foldl_mapEvent (evts : List NodeEvent) (events : List EventRef) (success : Bool)
    (fee : ℕ) :
    evts.foldl (Rpc.mapEvent net) (events, callResult success, fee) =
      (events ++ evts.map fun evt =>
          net.eventRef evt.body.palletName evt.body.eventName evt.fieldBytes,
        callResult (evts.foldl resolveEvent (success, fee)).1,
        (evts.foldl resolveEvent (success, fee)).2) := by
  induction evts generalizing events success fee with
  | nil => simp only [List.foldl_nil, List.map_nil, List.append_nil]
  | cons evt evts ih =>
    have hstep : Rpc.mapEvent net (events, callResult success, fee) evt =
        (events ++ [net.eventRef evt.body.palletName evt.body.eventName evt.fieldBytes],
          callResult (resolveEvent (success, fee) evt).1,
          (resolveEvent (success, fee) evt).2) := by
      unfold Rpc.mapEvent resolveEvent
      rcases evt with ⟨phase, body, fieldBytes⟩
      cases body <;> rfl
    rw [List.foldl_cons, hstep, ih, List.foldl_cons, List.map_cons, List.append_assoc]
    rfl

/-- A fee is the amount of some event, or zero. -/
theorem foldl_resolveEvent_le {evts : List NodeEvent} {st : Bool × ℕ} (hst : st.2 ≤ u128Max)
    (hfee : ∀ evt ∈ evts, ∀ who fee, evt.body = .transactionFeePaid who fee → fee ≤ u128Max) :
    (evts.foldl resolveEvent st).2 ≤ u128Max := by
  induction evts generalizing st with
  | nil => exact hst
  | cons evt evts ih =>
    rw [List.foldl_cons]
    refine ih ?_ fun e he => hfee e (List.mem_cons_of_mem evt he)
    simp only [resolveEvent]
    split
    · exact hst
    · rename_i who fee hbody
      exact hfee evt List.mem_cons_self who fee hbody
    · exact hst

/-! ## Events -/

/-- What holds of every element of a list, whatever its position, holds
of the list filtered and mapped. -/
theorem filter_map_mapIdx {α β γ : Type*} {l : List α} {f : ℕ → α → β} {p : β → Bool}
    {q : α → Bool} {g : β → γ} {g' : α → γ} (hp : ∀ i, ∀ a ∈ l, p (f i a) = q a)
    (hg : ∀ i, ∀ a ∈ l, g (f i a) = g' a) :
    ((l.mapIdx f).filter p).map g = (l.filter q).map g' := by
  induction l generalizing f with
  | nil => rfl
  | cons a l ih =>
    have htail : ((l.mapIdx fun i => f (i + 1)).filter p).map g = (l.filter q).map g' :=
      ih (fun i b hb => hp (i + 1) b (List.mem_cons_of_mem a hb))
        fun i b hb => hg (i + 1) b (List.mem_cons_of_mem a hb)
    have hhead : p (f 0 a) = q a := hp 0 a List.mem_cons_self
    rw [List.mapIdx_cons]
    by_cases hq : q a = true
    · rw [List.filter_cons_of_pos (hhead.trans hq), List.filter_cons_of_pos hq, List.map_cons,
        List.map_cons, htail, hg 0 a List.mem_cons_self]
    · rw [List.filter_cons_of_neg (by rw [hhead]; exact hq), List.filter_cons_of_neg hq, htail]

/-- The events of extrinsic `i`, as they are shown. -/
def shownEvents (net : Network) (blk : NodeBlock) (i : ℕ) : List EventRef :=
  (eventsOfExtrinsic blk.events i).map fun evt =>
    net.eventRef evt.body.palletName evt.body.eventName evt.fieldBytes

/-- **One extrinsic's events read back.** -/
theorem eventsForExtrinsic_eq (h : db.FullyStored blk n) (hi : i ≤ i32Max) :
    eventsForExtrinsic net db n i = shownEvents net blk i := by
  unfold eventsForExtrinsic shownEvents eventsOfExtrinsic
  rw [h.events, Events.map, List.filter_map, List.map_map]
  refine filter_map_mapIdx (fun j evt hmem => ?_) fun _ _ _ => rfl
  have hle := h.phase_le evt hmem
  simp only [Function.comp_apply, Sink.eventRow, Events.mapOne]
  -- The row keeps the phase as a tag and, of an extrinsic's event, the index.
  rcases hphase : evt.phase with j' | - | -
  · have hj' : j' ≤ i32Max := hle j' hphase
    simp only [i32Max] at hi hj'
    simp only [encodePhase, Option.map_some, Option.some.injEq, decide_true, Bool.true_and,
      asI32_inj (show j' ≤ u32Max by simp only [u32Max]; omega)
        (show i ≤ u32Max by simp only [u32Max]; omega), Phase.applyExtrinsic.injEq]
  · simp [encodePhase, phaseApplyExtrinsic, phaseFinalization]
  · simp [encodePhase, phaseApplyExtrinsic, phaseInitialization]

/-- **A block's events read back**, each extrinsic's in its bucket. -/
theorem getD_eventsByExtIdxInBlock (h : db.RowsStored blk n) :
    ((eventsByExtIdxInBlock net db n).get i).getD [] = shownEvents net blk i := by
  unfold eventsByExtIdxInBlock shownEvents eventsOfExtrinsic
  rw [Buckets.getD_ofRows, List.filter_filter, h.events, Events.map, List.filter_map,
    List.map_map]
  refine filter_map_mapIdx (fun j evt hmem => ?_) fun _ _ _ => rfl
  have hle := h.phase_le evt hmem
  simp only [Function.comp_apply, Sink.eventRow, Events.mapOne]
  rcases hphase : evt.phase with j' | - | -
  · simp only [encodePhase, Option.map_some, Option.getD_some, Option.isSome_some, decide_true,
      Bool.and_true, toNat_max_asI32 (hle j' hphase), Phase.applyExtrinsic.injEq]
  · simp [encodePhase, phaseApplyExtrinsic, phaseFinalization]
  · simp [encodePhase, phaseApplyExtrinsic, phaseInitialization]

/-- Filling in events is setting them, where there were none yet. -/
theorem fillEvents_of_nil {x : Extrinsic} {evs : Option (List EventRef)} (hx : x.events = []) :
    fillEvents x evs = x.setEvents (evs.getD []) := by
  rcases evs with - | evs
  · simp only [fillEvents, Extrinsic.setEvents, Option.getD_none, ← hx]
  · rfl

/-- Extrinsics of one block take the scan. -/
theorem hydrateEvents_of_block {xts : List Extrinsic}
    (hx : ∀ x ∈ xts, x.blockNumber = n ∧ x.events = []) :
    hydrateEvents net db xts =
      xts.map fun x => x.setEvents (((eventsByExtIdxInBlock net db n).get x.index).getD []) := by
  rcases xts with - | ⟨first, rest⟩
  · rfl
  · have hfirst : first.blockNumber = n := (hx first List.mem_cons_self).1
    have hall : ((first :: rest).all fun e => e.blockNumber = n) = true :=
      List.all_eq_true.mpr fun e he => decide_eq_true (hx e he).1
    simp only [hydrateEvents, hfirst]
    rw [if_pos hall]
    exact List.map_congr_left fun x hmem => fillEvents_of_nil (hx x hmem).2

/-! ## Extrinsics -/

/-- **One row reads back**, its events apart. -/
theorem rowToExtrinsic_extrinsicRow (htyped : blk.Typed) (hext : ext ∈ blk.extrinsics)
    (hn : n ≤ i64Max) (hi : i ≤ i32Max) :
    (rowToExtrinsic net (Sink.extrinsicRow (fetchTimestamp blk)
        (Extrinsics.mapOne blk n i ext))).setEvents (shownEvents net blk i) =
      (Rpc.mapExtrinsic net n blk i ext).reflag := by
  have hloop : (eventsOfExtrinsic blk.events i).foldl (Rpc.mapEvent net) ([], .success, 0) =
      (shownEvents net blk i, callResult (resolveOutcome (eventsOfExtrinsic blk.events i)).1,
        (resolveOutcome (eventsOfExtrinsic blk.events i)).2) :=
    foldl_mapEvent (eventsOfExtrinsic blk.events i) [] true 0
  have hfee : (resolveOutcome (eventsOfExtrinsic blk.events i)).2 ≤ u128Max := by
    refine foldl_resolveEvent_le (Nat.zero_le u128Max) fun evt he => ?_
    exact htyped.fee evt (List.mem_of_mem_filter he)
  have htip : (ext.tip.bind parseU128).getD 0 = ext.tip.getD 0 := by
    rcases htip : ext.tip with - | tip
    · rfl
    · rw [Option.bind_some, parseU128_of_le (htyped.tip ext hext tip htip)]
  have hnonce : (ext.nonce.map asI64).map asU32 = ext.nonce.map wrapU32 := by
    rw [Option.map_map]
    exact Option.map_congr fun _ _ => asU32_asI64
  simp only [rowToExtrinsic, Sink.extrinsicRow, Extrinsics.mapOne, Rpc.mapExtrinsic,
    Extrinsic.reflag, Extrinsic.setEvents, hloop, parseU128_of_le hfee, htip, hnonce,
    map_decodeSignerBytes, ofLex_toLex, toNat_max_asI64 hn, toNat_max_asI32 hi]
  rfl

/-- **The rows of a block's extrinsics read back** as the mapper shows
them. -/
theorem extrinsicsInBlock_of_rows (htyped : blk.Typed) (h : db.RowsStored blk n) :
    extrinsicsInBlock net db n = (Rpc.mapExtrinsics net n blk).map Extrinsic.reflag := by
  unfold extrinsicsInBlock
  rw [h.extrinsics, List.map_map, Extrinsics.map, Rpc.mapExtrinsics,
    hydrateEvents_of_block (n := n), List.map_map]
  · refine List.ext_getElem (by simp) fun i hi _ => ?_
    have hlen : i < blk.extrinsics.length := by simpa using hi
    have hidx : i ≤ i32Max := h.index_le i hlen
    simp only [List.getElem_map, List.getElem_mapIdx, Function.comp_apply]
    rw [← rowToExtrinsic_extrinsicRow htyped (List.getElem_mem hlen) h.num_le hidx]
    have hindex : (rowToExtrinsic net (Sink.extrinsicRow (fetchTimestamp blk)
        (Extrinsics.mapOne blk n i blk.extrinsics[i]))).index = i := toNat_max_asI32 hidx
    rw [hindex, getD_eventsByExtIdxInBlock h]
  · intro x hx
    obtain ⟨row, hrow, rfl⟩ := List.mem_map.mp hx
    obtain ⟨j, hj, rfl⟩ := List.mem_mapIdx.mp hrow
    exact ⟨toNat_max_asI64 h.num_le, rfl⟩

/-- **A stored block's extrinsics read back** as the mapper shows them. -/
theorem extrinsicsInBlock_eq (htyped : blk.Typed) (h : db.FullyStored blk n) :
    extrinsicsInBlock net db n = (Rpc.mapExtrinsics net n blk).map Extrinsic.reflag :=
  extrinsicsInBlock_of_rows htyped h.rows

/-- The row of extrinsic `i` of a stored block, under its key. -/
theorem find_extrinsics (h : db.FullyStored blk n) (hi : i < blk.extrinsics.length) :
    db.extrinsics.find (toLex (asI64 n, asI32 i)) =
      some (Sink.extrinsicRow (fetchTimestamp blk)
        (Extrinsics.mapOne blk n i blk.extrinsics[i])).2 := by
  refine Table.find_eq_some_iff.mpr ?_
  have hmem : Sink.extrinsicRow (fetchTimestamp blk)
      (Extrinsics.mapOne blk n i blk.extrinsics[i]) ∈ rowsOfBlock db.extrinsics (asI64 n) := by
    rw [h.extrinsics]
    exact List.mem_map_of_mem (List.mem_mapIdx.mpr ⟨i, hi, rfl⟩)
  exact List.mem_of_mem_filter hmem

/-- **One extrinsic of a stored block reads back** as the element of the
list it is. -/
theorem extrinsicByBlockIdx_eq (htyped : blk.Typed) (h : db.FullyStored blk n)
    (hi : i < blk.extrinsics.length) :
    extrinsicByBlockIdx net db n i =
      some (Rpc.mapExtrinsic net n blk i blk.extrinsics[i]).reflag := by
  have hidx : i ≤ i32Max := le_trans (le_of_lt hi) h.count_le
  simp only [extrinsicByBlockIdx, find_extrinsics h hi, Option.map_some]
  have hblock : (rowToExtrinsic net (Sink.extrinsicRow (fetchTimestamp blk)
      (Extrinsics.mapOne blk n i blk.extrinsics[i]))).blockNumber = n := toNat_max_asI64 h.num_le
  have hindex : (rowToExtrinsic net (Sink.extrinsicRow (fetchTimestamp blk)
      (Extrinsics.mapOne blk n i blk.extrinsics[i]))).index = i := toNat_max_asI32 hidx
  have hkey : (Sink.extrinsicRow (fetchTimestamp blk)
      (Extrinsics.mapOne blk n i blk.extrinsics[i])).1 = toLex (asI64 n, asI32 i) := rfl
  rw [← rowToExtrinsic_extrinsicRow htyped (List.getElem_mem hi) h.num_le hidx,
    ← eventsForExtrinsic_eq h hidx, ← hkey, Prod.mk.eta]
  simp only [withEvents, hblock, hindex]

end AllfeatExplorer
