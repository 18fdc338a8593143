import AllfeatExplorer.Indexer.Helpers.Frame

/-!
# The rows of a block's children

The extrinsics and the events of a block are inserted with
`ON CONFLICT DO NOTHING` under keys that start with the block's number.
So the tables blocks leave are all their rows offered one after the
other, and what lies under a block's number is what that block offered,
however often it was written and whatever came in between.
-/

namespace AllfeatExplorer

open Projections

variable {chain : Chain} {db db' : Db} {num n : ℕ} {cursor : Option ℤ} {bs : List ℕ}

/-- The rows `insert_extrinsics` binds for block `n`. -/
def extrinsicRowsAt (chain : Chain) (n : ℕ) : List ((ℤ ×ₗ ℤ) × StoredExtrinsic) :=
  (Extrinsics.map (chain n) n).map (Sink.extrinsicRow (fetchTimestamp (chain n)))

/-- The rows `insert_events` binds for block `n`. -/
def eventRowsAt (chain : Chain) (n : ℕ) : List ((ℤ ×ₗ ℤ) × StoredEvent) :=
  (Events.map (chain n) n).map (Sink.eventRow (fetchTimestamp (chain n)))

/-! ## What the statements insert -/

/-- **A child insert that goes through** offers its rows, batch after
batch. -/
theorem insertOfBlock_ok {κ ρ : Type*} [LinearOrder κ] {site : Site} {cols : ℕ}
    {blocks : Table ℤ StoredBlock} {ref : κ → ℤ} {t t' : Table κ ρ} {rows : List (κ × ρ)}
    (hcols : 0 < Sink.maxBindsPerQuery / cols)
    (h : Sink.insertOfBlock site cols blocks ref t rows = .ok t') : t' = t.insertAll rows := by
  refine inBatches_foldl hcols ?_ h
  intro t c t' hstmt
  split at hstmt
  · exact (Except.ok.inj hstmt).symm
  · cases hstmt

/-- **Where the block has its row** a child insert goes through. -/
theorem insertOfBlock_of_contains {κ ρ : Type*} [LinearOrder κ] {site : Site} {cols : ℕ}
    {blocks : Table ℤ StoredBlock} {ref : κ → ℤ} {t : Table κ ρ} {rows : List (κ × ρ)}
    (hcols : 0 < Sink.maxBindsPerQuery / cols)
    (h : ∀ r ∈ rows, blocks.contains (ref r.1) = true) :
    Sink.insertOfBlock site cols blocks ref t rows = .ok (t.insertAll rows) := by
  have hok : ∃ t', Sink.insertOfBlock site cols blocks ref t rows = .ok t' := by
    refine inBatches_isOk fun t chunk hchunk => ⟨t.insertAll chunk, if_pos ?_⟩
    refine List.all_eq_true.mpr fun r hr => ?_
    rw [h r (hchunk.subset hr), Bool.or_true]
  obtain ⟨t', ht'⟩ := hok
  rw [ht', insertOfBlock_ok hcols ht']

theorem Db.Indexed.extrinsics_eq (h : db.Indexed chain num cursor db') :
    db'.extrinsics = db.extrinsics.insertAll (extrinsicRowsAt chain num) :=
  insertOfBlock_ok (by decide) h.extrinsics

theorem Db.Indexed.events_eq (h : db.Indexed chain num cursor db') :
    db'.events = db.events.insertAll (eventRowsAt chain num) :=
  insertOfBlock_ok (by decide) h.events

/-- **The block's row**: the one it had, or the one the block is mapped
to. -/
theorem Db.Indexed.find_blocks (h : db.Indexed chain num cursor db') :
    ∃ authorId, db'.blocks =
      db.blocks.insertNew (asI64 num) (Sink.blockRow (Blocks.map (chain num) num) authorId) := by
  obtain ⟨authorIds, authorId, fresh, hlanded⟩ := h.block
  refine ⟨authorId, ?_⟩
  simp only [Sink.insertBlock] at hlanded
  split at hlanded
  · rename_i hold
    obtain ⟨hsame, -⟩ := Prod.mk.inj (Except.ok.inj hlanded)
    obtain ⟨row, hrow⟩ := Table.contains_eq_true_iff.mp hold
    rw [← hsame]
    refine Table.ext_find fun k => ?_
    rw [Table.find_insertNew]
    split
    · rename_i hk
      rw [hk]
      change db.blocks.find (asI64 num) = some row at hrow
      rw [hrow]
      rfl
    · rfl
  · split at hlanded
    · cases hlanded
    · split at hlanded
      · cases hlanded
      · exact (Prod.mk.inj (Except.ok.inj hlanded)).1.symm

/-! ## One block's rows among all -/

/-- **Of the rows of many blocks** those under a block's number are the
block's own. -/
theorem firstOffered_flatMap {ρ : Type} {rowsAt : ℕ → List ((ℤ ×ₗ ℤ) × ρ)}
    (hkey : ∀ m, ∀ r ∈ rowsAt m, (ofLex r.1).1 = asI64 m) (hbs : ∀ m ∈ bs, m ≤ u64Max)
    (hn : n ∈ bs) {k : ℤ ×ₗ ℤ} (hk : (ofLex k).1 = asI64 n) :
    Table.firstOffered (bs.flatMap rowsAt) k = Table.firstOffered (rowsAt n) k := by
  have hnone : ∀ m ∈ bs, m ≠ n → Table.firstOffered (rowsAt m) k = none := by
    intro m hm hmn
    refine Table.firstOffered_eq_none fun r hr heq => hmn ?_
    rw [← asI64_inj (hbs m hm) (hbs n hn), ← hkey m r hr, heq, hk]
  have hall : ∀ ms : List ℕ, (∀ m ∈ ms, m ∈ bs) → Table.firstOffered (ms.flatMap rowsAt) k =
      if n ∈ ms then Table.firstOffered (rowsAt n) k else none := by
    intro ms hms
    induction ms with
    | nil => rfl
    | cons m ms ih =>
      have hrest := ih fun m' hm' => hms m' (List.mem_cons_of_mem m hm')
      rw [List.flatMap_cons, Table.firstOffered_append, hrest]
      by_cases hmn : m = n
      · subst hmn
        rw [if_pos List.mem_cons_self]
        split
        · exact Option.or_self
        · exact Option.or_none
      · rw [hnone m (hms m List.mem_cons_self) hmn, Option.none_or]
        simp [Ne.symm hmn]
  rw [hall bs fun _ hm => hm, if_pos hn]

/-- The keys of rows numbered in order ascend, as long as the numbers fit
the column. -/
theorem sorted_map_mapIdx {α β ρ : Type*} {l : List α} {f : ℕ → α → β}
    {g : β → (ℤ ×ₗ ℤ) × ρ} {k : ℤ} (hkey : ∀ i a, (g (f i a)).1 = toLex (k, asI32 i))
    (hl : ∀ i < l.length, i ≤ i32Max) : ((l.mapIdx f).map g).Pairwise fun a b => a.1 < b.1 := by
  refine List.pairwise_iff_getElem.mpr fun i j hi hj hij => ?_
  rw [List.length_map, List.length_mapIdx] at hi hj
  simp only [List.getElem_map, List.getElem_mapIdx, hkey]
  rw [Prod.Lex.toLex_lt_toLex, asI32_of_le (hl i hi), asI32_of_le (hl j hj)]
  exact .inr ⟨rfl, by omega⟩

theorem key_extrinsicRowsAt {r : (ℤ ×ₗ ℤ) × StoredExtrinsic} (h : r ∈ extrinsicRowsAt chain n) :
    (ofLex r.1).1 = asI64 n := by
  obtain ⟨row, hrow, rfl⟩ := List.mem_map.mp h
  obtain ⟨i, hi, rfl⟩ := List.mem_mapIdx.mp hrow
  rfl

theorem key_eventRowsAt {r : (ℤ ×ₗ ℤ) × StoredEvent} (h : r ∈ eventRowsAt chain n) :
    (ofLex r.1).1 = asI64 n := by
  obtain ⟨row, hrow, rfl⟩ := List.mem_map.mp h
  obtain ⟨i, hi, rfl⟩ := List.mem_mapIdx.mp hrow
  rfl

theorem sorted_extrinsicRowsAt (h : (chain n).extrinsics.length ≤ i32Max) :
    (extrinsicRowsAt chain n).Pairwise fun a b => a.1 < b.1 :=
  sorted_map_mapIdx (k := asI64 n) (fun _ _ => rfl) fun _ hi => le_trans (le_of_lt hi) h

theorem sorted_eventRowsAt (h : (chain n).events.length ≤ i32Max) :
    (eventRowsAt chain n).Pairwise fun a b => a.1 < b.1 :=
  sorted_map_mapIdx (k := asI64 n) (fun _ _ => rfl) fun _ hi => le_trans (le_of_lt hi) h

end AllfeatExplorer
