import AllfeatExplorer.Indexer.Helpers.Authors
import AllfeatExplorer.Indexer.Helpers.Movements
import AllfeatExplorer.Indexer.Snapshots

/-!
# An `index_block` without faults

What the database can still refuse of a block: its hash, where another
number has it, and a version of an ATS whose registry row is not there.
Where it refuses neither, an `index_block` that meets no fault commits.
-/

namespace AllfeatExplorer

open Projections

variable {chain : Chain} {stmts rest : List Stmt} {db db' : Db} {n : ℕ}

theorem execAll_cons_of_ok {s : Stmt} (h : s.exec db = .ok db') :
    execAll (s :: rest) none db = execAll rest none db' := by
  simp only [execAll, h]
  rfl

/-- A statement that writes one table, where it computes it. -/
theorem exec_of_ok {τ : Type} {x : Except DataError τ} {t : τ} (g : τ → Db) (h : x = .ok t) :
    (do let t ← x; pure (g t) : Except DataError Db) = .ok (g t) := by
  rw [h]
  rfl

/-- **A block whose hash no other number has** is inserted, or is there. -/
theorem insertBlock_of_free {blocks : Table ℤ StoredBlock} {ids : List ℕ} {row : BlockRow}
    {authorId : Option ℕ}
    (hhash : ∀ r ∈ blocks.rows, r.2.hash = row.hash → r.1 = asI64 row.num)
    (hauthor : ∀ id ∈ authorId, id ∈ ids) :
    ∃ blocks' fresh, Sink.insertBlock blocks ids row authorId = .ok (blocks', fresh) := by
  simp only [Sink.insertBlock]
  by_cases hthere : blocks.contains (asI64 row.num) = true
  · rw [if_pos hthere]
    exact ⟨_, _, rfl⟩
  · have hfree : ¬ (blocks.rows.any fun r => r.2.hash = row.hash) = true := by
      rw [List.any_eq_true]
      rintro ⟨r, hr, heq⟩
      have hkey := hhash r hr (of_decide_eq_true heq)
      refine hthere (Table.contains_eq_true_iff.mpr ⟨r.2, ?_⟩)
      rw [← hkey]
      exact Table.find_eq_some_iff.mpr hr
    have hknown : ¬ (authorId.any fun id => id ∉ ids) = true := by
      rw [Option.any_eq_true]
      rintro ⟨id, hid, hnot⟩
      exact of_decide_eq_true hnot (hauthor id hid)
    rw [if_neg hthere, if_neg hfree, if_neg hknown]
    exact ⟨_, _, rfl⟩

/-- A block's snapshots name no account twice, so they are taken. -/
theorem applyBlockSnapshots_ok (chain : Chain) (n : ℕ) (t : AccountTable) :
    ∃ t', applyBlockSnapshots (projectAt (chain n) n) n t = .ok t' := by
  have hcalls : applySnapshotsOf chain t n =
      chain.snapshotFeed.applyAll t (chain.snapshotCalls n) := applySnapshotsOf_eq
  rw [SnapshotFeed.applyAll_eq fun c hc => Chain.nodup_snapshotCalls hc] at hcalls
  exact ⟨_, hcalls⟩

/-- **The statements of a block go through**, once its own row does. -/
theorem blockStatements_ok {authorId : Option ℕ} {blocks : Table ℤ StoredBlock} {fresh : Bool}
    {ats : AtsTables}
    (hblock : Sink.insertBlock db.blocks (db.authors.rows.map Prod.snd)
      (projectAt (chain n) n).row authorId = .ok (blocks, fresh))
    (hats : applyAtsOf chain db.ats n = .ok ats) :
    ∃ db', execAll (blockStatements (projectAt (chain n) n) n authorId) none db = .ok db' := by
  have hthere : blocks.contains (asI64 n) = true := by
    rw [contains_insertBlock hblock, Bool.or_eq_true, decide_eq_true_eq]
    exact .inl rfl
  have hxts : Sink.insertExtrinsics blocks db.extrinsics
      (projectAt (chain n) n).row.timestampMs (projectAt (chain n) n).extrinsicRows = .ok _ :=
    insertOfBlock_of_contains (by decide) fun r hr => by
      rwa [key_extrinsicRowsAt hr]
  have hevts : Sink.insertEvents blocks db.events
      (projectAt (chain n) n).row.timestampMs (projectAt (chain n) n).eventRows = .ok _ :=
    insertOfBlock_of_contains (by decide) fun r hr => by
      rwa [key_eventRowsAt hr]
  have hmoves : Sink.insertBalanceMovements blocks db.balanceMovements
      (projectAt (chain n) n).balanceProjection.movements = .ok _ :=
    insertBalanceMovements_eq hthere
  unfold blockStatements
  simp only [List.cons_append, List.nil_append]
  rw [execAll_cons_of_ok (exec_of_ok _ hblock), execAll_cons_of_ok (exec_of_ok _ hxts),
    execAll_cons_of_ok (exec_of_ok _ hevts), execAll_cons_of_ok (exec_of_ok _ hmoves)]
  obtain ⟨accounts, haccounts⟩ := applyBlockSnapshots_ok chain n db.accountBalances
  unfold applyBlockSnapshots at haccounts
  rcases htouched : Sink.applyAccountSnapshots db.accountBalances n
      (projectAt (chain n) n).row.timestampMs (projectAt (chain n) n).snapshots with e | touched
  · rw [htouched] at haccounts
    cases haccounts
  · rw [htouched] at haccounts
    rw [execAll_cons_of_ok (exec_of_ok _ htouched)]
    by_cases hzero : n = 0
    · -- Genesis has its accounts besides the ones it touches.
      rw [if_pos hzero]
      change (if n = 0 then Sink.applyAccountSnapshots touched 0 _ _ else pure touched) =
        .ok accounts at haccounts
      rw [if_pos hzero] at haccounts
      rw [List.singleton_append, execAll_cons_of_ok (exec_of_ok _ haccounts),
        execAll_cons_of_ok (exec_of_ok _ hats)]
      exact ⟨_, rfl⟩
    · rw [if_neg hzero, List.nil_append, execAll_cons_of_ok (exec_of_ok _ hats)]
      exact ⟨_, rfl⟩

/-- The author is resolved to an id that the table has. -/
theorem resolveRowAuthor_acked (author : Option AccountId) (db : Db) :
    ∃ db' authorId, resolveRowAuthor {} author db = (db', .ok authorId) ∧
      db.AuthorsOnly db' ∧ ∀ id ∈ authorId, id ∈ db'.authors.rows.map Prod.snd := by
  have honly : db.AuthorsOnly (resolveRowAuthor {} author db).1 := resolveRowAuthor_authorsOnly
  cases author with
  | none => exact ⟨db, none, rfl, honly, fun id hid => nomatch hid⟩
  | some bytes =>
    refine ⟨(db.resolveAuthor bytes).1, some (db.resolveAuthor bytes).2, rfl, honly, ?_⟩
    intro id hid
    obtain rfl := Option.some.inj hid
    exact List.mem_map.mpr ⟨_, Table.find_eq_some_iff.mp Db.find_resolveAuthor, rfl⟩

/-- **What lets block `n` in**: no other number has its hash, and its ATS
effects apply. -/
structure Db.Takes (chain : Chain) (n : ℕ) (db : Db) : Prop where
  hash : ∀ r ∈ db.blocks.rows, r.2.hash = (chain n).hash → r.1 = asI64 n
  ats : ∃ ats, applyAtsOf chain db.ats n = .ok ats

/-- **An `index_block` without faults commits** where the database takes
the block. -/
theorem Db.Takes.indexBlock (h : db.Takes chain n) :
    ∃ db', Backfill.indexBlock chain n {} db = (db', .ok ()) := by
  obtain ⟨db₁, authorId, hres, honly, hknown⟩ :=
    resolveRowAuthor_acked (projectAt (chain n) n).row.author db
  have hkeeps := honly.keeps
  obtain ⟨blocks, fresh, hblock⟩ : ∃ blocks fresh, Sink.insertBlock db₁.blocks
      (db₁.authors.rows.map Prod.snd) (projectAt (chain n) n).row authorId =
        .ok (blocks, fresh) := by
    refine insertBlock_of_free ?_ hknown
    rw [hkeeps.blocks]
    exact h.hash
  obtain ⟨ats, hats⟩ := h.ats
  rw [← hkeeps.ats] at hats
  obtain ⟨db', hexec⟩ := blockStatements_ok hblock hats
  refine ⟨db', ?_⟩
  unfold Backfill.indexBlock indexBlockWith
  rw [if_neg Bool.false_ne_true]
  simp only [hres, List.append_nil, transact, hexec]

end AllfeatExplorer
