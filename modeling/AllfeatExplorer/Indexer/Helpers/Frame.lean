import AllfeatExplorer.Indexer.Model.Worker

/-!
# What one `index_block` leaves behind

Either nothing but an author's row (`Db.AuthorsOnly`), or the block's row
and its children, in one piece (`Db.Indexed`). The queue is never
touched, and the cursor only by the live form. The system's invariants
read these two relations and no statement of the transaction.
-/

namespace AllfeatExplorer

open Projections

variable {stmts rest : List Stmt} {db db' db'' : Db} {num : ℕ} {f : Faults}

/-- **Only authors were written.** -/
def Db.AuthorsOnly (db db' : Db) : Prop :=
  db' = { db with authors := db'.authors, nextAuthorId := db'.nextAuthorId }

/-- The account snapshots of one block, as `index_block` applies them. -/
def applyBlockSnapshots (p : BlockProjection) (num : ℕ) (t : AccountTable) :
    Except DataError AccountTable := do
  let t ← Sink.applyAccountSnapshots t num p.row.timestampMs p.snapshots
  if num = 0 then Sink.applyAccountSnapshots t 0 p.row.timestampMs p.genesisSnapshots
  else pure t

/-- **Block `num` was written**, each table by its statement, and the
cursor is left at `cursor`. -/
structure Db.Indexed (chain : Chain) (num : ℕ) (cursor : Option ℤ) (db db' : Db) : Prop where
  block : ∃ authorIds authorId fresh,
    Sink.insertBlock db.blocks authorIds (projectAt (chain num) num).row authorId =
      .ok (db'.blocks, fresh)
  extrinsics : Sink.insertExtrinsics db'.blocks db.extrinsics
    (projectAt (chain num) num).row.timestampMs (projectAt (chain num) num).extrinsicRows =
      .ok db'.extrinsics
  events : Sink.insertEvents db'.blocks db.events (projectAt (chain num) num).row.timestampMs
    (projectAt (chain num) num).eventRows = .ok db'.events
  movements : Sink.insertBalanceMovements db'.blocks db.balanceMovements
    (projectAt (chain num) num).balanceProjection.movements = .ok db'.balanceMovements
  queue : db'.backfillChunks = db.backfillChunks
  cursor : db'.indexerCursor = cursor
  accounts : applyBlockSnapshots (projectAt (chain num) num) num db.accountBalances =
    .ok db'.accountBalances
  ats : Sink.applyAts db.ats (projectAt (chain num) num).atsOps = .ok db'.ats

/-- `insert_block` leaves the block's row there, and adds no other. -/
theorem contains_insertBlock {blocks blocks' : Table ℤ StoredBlock} {ids : List ℕ}
    {row : BlockRow} {authorId : Option ℕ} {fresh : Bool} {k : ℤ}
    (h : Sink.insertBlock blocks ids row authorId = .ok (blocks', fresh)) :
    blocks'.contains k = (decide (k = asI64 row.num) || blocks.contains k) := by
  simp only [Sink.insertBlock] at h
  split at h
  -- On the conflict nothing is inserted, because the row is there already.
  · rename_i hold
    cases h
    by_cases hk : k = asI64 row.num
    · rw [hk, hold, decide_eq_true rfl]
      rfl
    · simp [hk]
  · split at h
    · cases h
    · split at h
      · cases h
      · cases h
        exact Table.contains_insertNew

theorem Db.Indexed.blocks {chain : Chain} {cursor : Option ℤ} (h : db.Indexed chain num cursor db')
    (k : ℤ) : db'.blocks.contains k = (decide (k = asI64 num) || db.blocks.contains k) := by
  obtain ⟨authorIds, authorId, fresh, hlanded⟩ := h.block
  exact contains_insertBlock hlanded

/-- The block written is there. -/
theorem Db.Indexed.there {chain : Chain} {cursor : Option ℤ} (h : db.Indexed chain num cursor db') :
    db'.blocks.contains (asI64 num) = true := by
  rw [h.blocks, decide_eq_true rfl, Bool.true_or]

/-- No other block is lost. -/
theorem Db.Indexed.kept {chain : Chain} {cursor : Option ℤ} {k : ℤ}
    (h : db.Indexed chain num cursor db') (hk : db.blocks.contains k = true) :
    db'.blocks.contains k = true := by
  rw [h.blocks, hk, Bool.or_true]

/-- What one `index_block` reads or writes of the database, the authors
apart, is the same in both. -/
structure Db.Keeps (db db' : Db) : Prop where
  blocks : db'.blocks = db.blocks
  extrinsics : db'.extrinsics = db.extrinsics
  events : db'.events = db.events
  movements : db'.balanceMovements = db.balanceMovements
  queue : db'.backfillChunks = db.backfillChunks
  cursor : db'.indexerCursor = db.indexerCursor
  accounts : db'.accountBalances = db.accountBalances
  ats : db'.ats = db.ats

/-! ## Statement lists -/

/-- A transaction that went through met no fault on the way. -/
theorem execAll_ok_none {k : Option ℕ} (h : execAll stmts k db = .ok db') :
    execAll stmts none db = .ok db' := by
  induction stmts generalizing db k with
  | nil => simpa only [execAll] using h
  | cons s rest ih =>
    match k with
    | some 0 => cases h
    | none => exact h
    | some (k + 1) =>
      -- The fault is further down: this statement ran in both.
      simp only [execAll] at h ⊢
      cases hs : s.exec db with
      | error e => rw [hs] at h; cases h
      | ok u =>
        rw [hs] at h
        exact ih h

theorem execAll_cons_ok {s : Stmt} (h : execAll (s :: rest) none db = .ok db') :
    ∃ u, s.exec db = .ok u ∧ execAll rest none u = .ok db' := by
  simp only [execAll] at h
  cases hs : s.exec db with
  | error e => rw [hs] at h; cases h
  | ok u =>
    rw [hs] at h
    exact ⟨u, rfl, h⟩

theorem execAll_append_ok (h : execAll (stmts ++ rest) none db = .ok db') :
    ∃ u, execAll stmts none db = .ok u ∧ execAll rest none u = .ok db' := by
  induction stmts generalizing db with
  | nil => exact ⟨db, rfl, h⟩
  | cons s stmts ih =>
    obtain ⟨u, hs, hu⟩ := execAll_cons_ok h
    obtain ⟨v, hv, hr⟩ := ih hu
    refine ⟨v, ?_, hr⟩
    simp only [execAll, hs]
    exact hv

/-! ## The statements of a block -/

/-- Peels a statement that writes one table: what it computed, and the
database with it written. -/
theorem exec_ok {τ : Type} {x : Except DataError τ} {g : τ → Db}
    (h : (do let t ← x; pure (g t) : Except DataError Db) = .ok db') :
    ∃ t, x = .ok t ∧ db' = g t := by
  cases x with
  | error e => cases h
  | ok t => exact ⟨t, rfl, (Except.ok.inj h).symm⟩

/-- The genesis statement, where the block has it. -/
theorem genesisStatement_ok {p : BlockProjection} (blockTs : ℤ)
    (h : execAll ((if num = 0 then
        [ ⟨.applyAccountSnapshots, fun db => do
            let accountBalances ←
              Sink.applyAccountSnapshots db.accountBalances 0 blockTs p.genesisSnapshots
            pure { db with accountBalances }⟩ ]
      else []) ++ rest) none db = .ok db') :
    ∃ accountBalances,
      (if num = 0 then Sink.applyAccountSnapshots db.accountBalances 0 blockTs p.genesisSnapshots
        else pure db.accountBalances) = .ok accountBalances ∧
      execAll rest none { db with accountBalances } = .ok db' := by
  split at h
  · rename_i hzero
    rw [if_pos hzero]
    obtain ⟨u, hs, hu⟩ := execAll_cons_ok h
    obtain ⟨t, ht, rfl⟩ := exec_ok hs
    exact ⟨t, ht, hu⟩
  · rename_i hpos
    rw [if_neg hpos]
    exact ⟨_, rfl, h⟩

/-- **The block's own statements**: its row and their children land, its
snapshots and ATS effects are applied, the queue and the cursor stay. -/
theorem blockStatements_indexed {chain : Chain} {authorId : Option ℕ}
    (h : execAll (blockStatements (projectAt (chain num) num) num authorId) none db = .ok db') :
    db.Indexed chain num db.indexerCursor db' := by
  unfold blockStatements at h
  simp only [List.cons_append, List.nil_append] at h
  obtain ⟨u₁, hblock, h⟩ := execAll_cons_ok h
  obtain ⟨⟨blocks, fresh⟩, hlanded, rfl⟩ := exec_ok hblock
  obtain ⟨u₂, hextrinsics, h⟩ := execAll_cons_ok h
  obtain ⟨extrinsics, hxts, rfl⟩ := exec_ok hextrinsics
  obtain ⟨u₃, hevents, h⟩ := execAll_cons_ok h
  obtain ⟨events, hevts, rfl⟩ := exec_ok hevents
  obtain ⟨u₄, hmovements, h⟩ := execAll_cons_ok h
  obtain ⟨movements, hmoves, rfl⟩ := exec_ok hmovements
  obtain ⟨u₅, hsnapshots, h⟩ := execAll_cons_ok h
  obtain ⟨snapshots, htouched, rfl⟩ := exec_ok hsnapshots
  obtain ⟨genesis, hgenesis, h⟩ := genesisStatement_ok _ h
  obtain ⟨u₆, hats, h⟩ := execAll_cons_ok h
  obtain ⟨ats, hops, rfl⟩ := exec_ok hats
  obtain rfl := Except.ok.inj h
  refine ⟨⟨_, _, _, hlanded⟩, hxts, hevts, hmoves, rfl, rfl, ?_, hops⟩
  simp only [applyBlockSnapshots, htouched]
  exact hgenesis

/-! ## `index_block` -/

/-- The author's upsert writes authors only. -/
theorem resolveRowAuthor_authorsOnly {author : Option AccountId} :
    db.AuthorsOnly (resolveRowAuthor f author db).1 := by
  unfold resolveRowAuthor Db.AuthorsOnly
  cases author with
  | none => rfl
  | some bytes =>
    cases hf : f.author with
    | lost => simp only
    | acked =>
      simp only [Db.resolveAuthor]
      cases db.authors.find bytes <;> rfl
    | unacked =>
      simp only [Db.resolveAuthor]
      cases db.authors.find bytes <;> rfl

theorem Db.AuthorsOnly.keeps (h : db.AuthorsOnly db') : db.Keeps db' := by
  unfold Db.AuthorsOnly at h
  rw [h]
  exact ⟨rfl, rfl, rfl, rfl, rfl, rfl, rfl, rfl⟩

/-- What is kept before a block is written is kept of it. -/
theorem Db.Keeps.indexed {chain : Chain} {cursor : Option ℤ} (h : db.Keeps db')
    (hi : db'.Indexed chain num cursor db'') : db.Indexed chain num cursor db'' where
  block := by
    rw [← h.blocks]
    exact hi.block
  extrinsics := by
    rw [← h.extrinsics]
    exact hi.extrinsics
  events := by
    rw [← h.events]
    exact hi.events
  movements := by
    rw [← h.movements]
    exact hi.movements
  queue := hi.queue.trans h.queue
  cursor := hi.cursor
  accounts := by
    rw [← h.accounts]
    exact hi.accounts
  ats := by
    rw [← h.ats]
    exact hi.ats

/-- **The two ends of an `index_block`.** An error with nothing but
authors written, or the whole block written; the second may be reported
as an error too. -/
theorem indexBlockWith_cases {extra : List Stmt} {chain : Chain} {res : Except DataError Unit}
    (h : indexBlockWith extra chain num f db = (db', res)) :
    ((∃ e, res = .error e) ∧ db.AuthorsOnly db') ∨
    f.Through ∧
      ∃ u v, db.Keeps u ∧ u.Indexed chain num u.indexerCursor v ∧
        execAll extra none v = .ok db' := by
  unfold indexBlockWith at h
  split at h
  -- The node did not answer: the database was not reached.
  · obtain ⟨rfl, rfl⟩ := Prod.mk.inj h
    exact .inl ⟨⟨_, rfl⟩, rfl⟩
  · rename_i hread
    have hauthors : db.AuthorsOnly
        (resolveRowAuthor f (projectAt (chain num) num).row.author db).1 :=
      resolveRowAuthor_authorsOnly
    simp only at h
    split at h
    -- The author's upsert failed; it runs outside the transaction.
    · rename_i db₁ e hres
      rw [hres] at hauthors
      obtain ⟨rfl, rfl⟩ := Prod.mk.inj h
      exact .inl ⟨⟨_, rfl⟩, hauthors⟩
    · rename_i db₁ authorId hres
      rw [hres] at hauthors
      unfold transact at h
      cases hexec : execAll (blockStatements (projectAt (chain num) num) num authorId ++ extra)
          f.statement db₁ with
      | error e =>
        rw [hexec] at h
        obtain ⟨rfl, rfl⟩ := Prod.mk.inj h
        exact .inl ⟨⟨_, rfl⟩, hauthors⟩
      | ok db₂ =>
        obtain ⟨v, hv, hextra⟩ := execAll_append_ok (execAll_ok_none hexec)
        have hindexed := blockStatements_indexed hv
        rw [hexec] at h
        -- A commit whose answer is lost has taken effect like one that is
        -- acknowledged; only the answer differs.
        cases hc : f.commit with
        | acked =>
          simp only [hc] at h
          obtain ⟨rfl, -⟩ := Prod.mk.inj h
          exact .inr ⟨⟨Bool.not_eq_true _ ▸ hread, by rw [hc]; nofun⟩, db₁, v, hauthors.keeps,
            hindexed, hextra⟩
        | lost =>
          simp only [hc] at h
          obtain ⟨rfl, rfl⟩ := Prod.mk.inj h
          exact .inl ⟨⟨_, rfl⟩, hauthors⟩
        | unacked =>
          simp only [hc] at h
          obtain ⟨rfl, -⟩ := Prod.mk.inj h
          exact .inr ⟨⟨Bool.not_eq_true _ ▸ hread, by rw [hc]; nofun⟩, db₁, v, hauthors.keeps,
            hindexed, hextra⟩

/-- **The backfill form**: the cursor stays in any case. -/
theorem Backfill.indexBlock_cases {chain : Chain} {res : Except DataError Unit}
    (h : Backfill.indexBlock chain num f db = (db', res)) :
    ((∃ e, res = .error e) ∧ db.AuthorsOnly db') ∨ db.Indexed chain num db.indexerCursor db' := by
  rcases indexBlockWith_cases h with hfail | ⟨-, u, v, hkeeps, hindexed, hextra⟩
  · exact .inl hfail
  · obtain rfl : v = db' := Except.ok.inj hextra
    rw [hkeeps.cursor] at hindexed
    exact .inr (hkeeps.indexed hindexed)

/-- **The live form**: the block and the cursor move together. -/
theorem Live.indexBlock_cases {chain : Chain} {res : Except DataError Unit}
    (h : Live.indexBlock chain num f db = (db', res)) :
    ((∃ e, res = .error e) ∧ db.AuthorsOnly db') ∨
      f.Through ∧ db.Indexed chain num (Sink.bumpCursor db.indexerCursor num) db' := by
  rcases indexBlockWith_cases h with hfail | ⟨hthrough, u, v, hkeeps, hindexed, hextra⟩
  · exact .inl hfail
  · obtain ⟨w, hw, hdone⟩ := execAll_cons_ok hextra
    obtain rfl := Except.ok.inj hdone
    obtain rfl := Except.ok.inj hw
    refine .inr ⟨hthrough, hkeeps.indexed { hindexed with cursor := ?_ }⟩
    rw [← hkeeps.cursor, ← hindexed.cursor]

end AllfeatExplorer
