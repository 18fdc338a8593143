import AllfeatExplorer.Indexer.Helpers.Rows
import AllfeatExplorer.Data.BlockViews

/-!
# A block's extrinsics, stored and read back

The indexer maps a block to rows and the reads map the rows to values;
the node's mapper takes the block to the values directly. Both ways give
the same list, whether the rows were written once or again: what is left
of the difference, the `signed` flag of a row, is the value's own on an
extrinsic that is unsigned or signed by an account.
-/

namespace AllfeatExplorer

open Projections Queries

variable {net : Network} {db : Db} {blk : NodeBlock} {n i : ℕ} {ext : NodeExtrinsic}

/-- **The rows inserted for a block are the block's rows**, where there
were none but those. -/
theorem rowsOfBlock_insertAll_of_own {ρ : Type} {t : Table (ℤ ×ₗ ℤ) ρ} {k : ℤ}
    {rows : List ((ℤ ×ₗ ℤ) × ρ)} (hrows : rows.Pairwise fun a b => a.1 < b.1)
    (hkey : ∀ r ∈ rows, (ofLex r.1).1 = k) (hown : ∀ r ∈ rowsOfBlock t k, r ∈ rows) :
    rowsOfBlock (t.insertAll rows) k = rows := by
  have hnodup : (rows.map Prod.fst).Nodup :=
    List.pairwise_map.mpr (hrows.imp fun h => ne_of_lt h)
  refine Table.filter_rows_eq (p := fun k' => decide ((ofLex k').1 = k)) hrows
    (fun r hr => decide_eq_true (hkey r hr)) ?_
  intro k' hk'
  rw [Table.find_insertAll]
  rcases hold : t.find k' with - | r
  · rw [Option.none_or]
  · -- A row that was there is one of those offered.
    have hmem : (k', r) ∈ rows :=
      hown _ (List.mem_filter.mpr ⟨Table.find_eq_some_iff.mp hold, hk'⟩)
    rw [Option.some_or, Table.firstOffered_of_mem hnodup hmem]

/-- The flag read off the signer is the extrinsic's own. -/
theorem reflag_mapExtrinsic (h : ext.AccountSigned) :
    (Rpc.mapExtrinsic net n blk i ext).reflag = Rpc.mapExtrinsic net n blk i ext := by
  have hflag : (Rpc.mapExtrinsic net n blk i ext).signer.isSome = ext.isSigned := by
    rw [← h.isSome_signer]
    change (if ext.isSigned then Rpc.decodeSignerSs58 net ext.address else none).isSome = _
    rw [← map_decodeSignerBytes, Option.isSome_map]
  rw [Extrinsic.reflag, hflag]
  rfl

/-- **A block's extrinsics read the same from the database as from the
node**, once its extrinsics and its events are inserted. -/
theorem extrinsicsInBlock_readBack (htyped : blk.Typed) (hn : n ≤ i64Max)
    (hindex : ∀ i < blk.extrinsics.length, i ≤ i32Max)
    (hevent : ∀ i < blk.events.length, i ≤ i32Max)
    (hphase : ∀ evt ∈ blk.events, ∀ i, evt.phase = .applyExtrinsic i → i ≤ i32Max)
    (hsigned : ∀ ext ∈ blk.extrinsics, ext.AccountSigned)
    (hblock : db.blocks.contains (asI64 n) = true)
    (hextrinsics : ∀ r ∈ rowsOfBlock db.extrinsics (asI64 n),
      r ∈ (Extrinsics.map blk n).map (Sink.extrinsicRow (fetchTimestamp blk)))
    (hevents : ∀ r ∈ rowsOfBlock db.events (asI64 n),
      r ∈ (Events.map blk n).map (Sink.eventRow (fetchTimestamp blk))) :
    ∃ xs es,
      Sink.insertExtrinsics db.blocks db.extrinsics (fetchTimestamp blk) (Extrinsics.map blk n) =
        .ok xs ∧
      Sink.insertEvents db.blocks db.events (fetchTimestamp blk) (Events.map blk n) = .ok es ∧
      Queries.extrinsicsInBlock net { db with extrinsics := xs, events := es } n =
        Rpc.mapExtrinsics net n blk := by
  have hxkey : ∀ r ∈ (Extrinsics.map blk n).map (Sink.extrinsicRow (fetchTimestamp blk)),
      (ofLex r.1).1 = asI64 n := by
    intro r hr
    obtain ⟨row, hrow, rfl⟩ := List.mem_map.mp hr
    obtain ⟨j, hj, rfl⟩ := List.mem_mapIdx.mp hrow
    rfl
  have hekey : ∀ r ∈ (Events.map blk n).map (Sink.eventRow (fetchTimestamp blk)),
      (ofLex r.1).1 = asI64 n := by
    intro r hr
    obtain ⟨row, hrow, rfl⟩ := List.mem_map.mp hr
    obtain ⟨j, hj, rfl⟩ := List.mem_mapIdx.mp hrow
    rfl
  refine ⟨_, _, insertOfBlock_of_contains (by decide) fun r hr => by rw [hxkey r hr, hblock],
    insertOfBlock_of_contains (by decide) fun r hr => by rw [hekey r hr, hblock], ?_⟩
  rw [extrinsicsInBlock_of_rows htyped]
  · refine (List.map_congr_left fun x hx => ?_).trans (List.map_id _)
    obtain ⟨j, hj, rfl⟩ := List.mem_mapIdx.mp hx
    exact reflag_mapExtrinsic (hsigned _ (List.getElem_mem hj))
  · exact
      { num_le := hn
        index_le := hindex
        phase_le := hphase
        extrinsics := rowsOfBlock_insertAll_of_own
          (sorted_map_mapIdx (k := asI64 n) (fun _ _ => rfl) hindex) hxkey hextrinsics
        events := rowsOfBlock_insertAll_of_own
          (sorted_map_mapIdx (k := asI64 n) (fun _ _ => rfl) hevent) hekey hevents }

/-- An empty database that has the block 1. -/
def tickBlocks : Db :=
  { Db.empty with
    blocks := Table.empty.insertNew 1 (Sink.blockRow (Blocks.map (tickChain 1) 1) none) }

/-- The timestamp inherent of block 1 and its event, into such a
database. -/
theorem extrinsicsInBlock_readBack_tick :
    ∃ xs es,
      Sink.insertExtrinsics tickBlocks.blocks .empty 0 (Extrinsics.map (tickChain 1) 1) =
        .ok xs ∧
      Sink.insertEvents tickBlocks.blocks .empty 0 (Events.map (tickChain 1) 1) = .ok es ∧
      Queries.extrinsicsInBlock tickNetwork { tickBlocks with extrinsics := xs, events := es } 1 =
        Rpc.mapExtrinsics tickNetwork 1 (tickChain 1) := by
  refine extrinsicsInBlock_readBack (tickChain_typed 1) (by decide) (by decide) (by decide)
    ?_ ?_ (by decide) ?_ ?_
  · intro evt hevt i hphase
    rw [List.mem_singleton.mp hevt] at hphase
    cases hphase
    decide
  · intro ext hext address haddr
    rw [List.mem_singleton.mp hext] at haddr
    cases haddr
  · exact fun r hr => absurd hr List.not_mem_nil
  · exact fun r hr => absurd hr List.not_mem_nil

end AllfeatExplorer
