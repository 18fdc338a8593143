import AllfeatExplorer.Indexer.Helpers.Applied
import AllfeatExplorer.Indexer.Helpers.Authors

/-!
# Every block's author

`index_block` resolves the author before it opens the transaction, and
the row it writes there names the id it was given. Authors are never
taken away and keep their ids, so in every run a block's row names the
author of that block (`authored_run`).
-/

namespace AllfeatExplorer

open Interned Projections

variable {chain : Chain} {chunkSize : ℕ} {as : List Action} {s t : Sys} {db db' : Db}
  {num : ℕ} {f : Faults} {extra stmts : List Stmt} {authorId : Option ℕ}

/-! ## The transaction, seen from the blocks -/

/-- The blocks and the authors are the same in both. -/
structure Db.SameBlocks (db db' : Db) : Prop where
  blocks : db'.blocks = db.blocks
  authors : db'.authors = db.authors
  next : db'.nextAuthorId = db.nextAuthorId

theorem Db.SameBlocks.refl (db : Db) : db.SameBlocks db := ⟨rfl, rfl, rfl⟩

theorem Db.SameBlocks.trans {db'' : Db} (h : db.SameBlocks db') (h' : db'.SameBlocks db'') :
    db.SameBlocks db'' :=
  ⟨h'.blocks.trans h.blocks, h'.authors.trans h.authors, h'.next.trans h.next⟩

/-- A statement about other tables. -/
def Stmt.Aside (st : Stmt) : Prop :=
  ∀ db db', st.exec db = .ok db' → db.SameBlocks db'

theorem execAll_aside (hstmts : ∀ st ∈ stmts, st.Aside)
    (h : execAll stmts none db = .ok db') : db.SameBlocks db' := by
  induction stmts generalizing db with
  | nil =>
    obtain rfl := Except.ok.inj h
    exact .refl db
  | cons st stmts ih =>
    obtain ⟨u, hst, hrest⟩ := execAll_cons_ok h
    have hthis : db.SameBlocks u := hstmts st List.mem_cons_self db u hst
    exact hthis.trans (ih (fun st' hst' => hstmts st' (List.mem_cons_of_mem _ hst')) hrest)

theorem bumpStatement_aside : (bumpStatement num).Aside := by
  intro db db' h
  obtain rfl := Except.ok.inj h
  exact ⟨rfl, rfl, rfl⟩

/-- A statement that writes one table, with what it computed. -/
theorem Stmt.aside_of_write {τ : Type} {site : Site} {x : Db → Except DataError τ}
    {g : Db → τ → Db} (hg : ∀ (db : Db) y, db.SameBlocks (g db y)) :
    (⟨site, fun db => do let y ← x db; pure (g db y)⟩ : Stmt).Aside := by
  intro db db' h
  obtain ⟨y, -, rfl⟩ := exec_ok h
  exact hg db y

/-- **Of a block's statements** the first writes the block's row, under
the author's id, and the others are aside. -/
theorem blockStatements_eq (p : BlockProjection) (num : ℕ) (authorId : Option ℕ) :
    ∃ rest : List Stmt, (∀ st ∈ rest, st.Aside) ∧
      blockStatements p num authorId =
        ⟨.insertBlock, fun db => do
          let (blocks, _) ←
            Sink.insertBlock db.blocks (db.authors.rows.map Prod.snd) p.row authorId
          pure { db with blocks }⟩ :: rest := by
  refine ⟨(blockStatements p num authorId).tail, ?_, rfl⟩
  intro st hst
  simp only [blockStatements, List.cons_append, List.nil_append, List.tail_cons, List.mem_cons,
    List.mem_append, List.not_mem_nil, or_false] at hst
  rcases hst with rfl | rfl | rfl | rfl | hgenesis | rfl
  · exact Stmt.aside_of_write fun _ _ => ⟨rfl, rfl, rfl⟩
  · exact Stmt.aside_of_write fun _ _ => ⟨rfl, rfl, rfl⟩
  · exact Stmt.aside_of_write fun _ _ => ⟨rfl, rfl, rfl⟩
  · exact Stmt.aside_of_write fun _ _ => ⟨rfl, rfl, rfl⟩
  · split at hgenesis
    · obtain rfl := List.mem_singleton.mp hgenesis
      exact Stmt.aside_of_write fun _ _ => ⟨rfl, rfl, rfl⟩
    · exact absurd hgenesis List.not_mem_nil
  · exact Stmt.aside_of_write fun _ _ => ⟨rfl, rfl, rfl⟩

/-- **What a transaction does to the blocks**: nothing, or it writes the
block's row under the author's id. -/
theorem transact_blocks (hextra : ∀ st ∈ extra, st.Aside) (db : Db) (p : BlockProjection)
    (num : ℕ) (authorId : Option ℕ) (f : Faults) :
    db.SameBlocks (transact (blockStatements p num authorId ++ extra) f db).1 ∨
    ∃ blocks fresh,
      Sink.insertBlock db.blocks (db.authors.rows.map Prod.snd) p.row authorId =
        .ok (blocks, fresh) ∧
      { db with blocks }.SameBlocks
        (transact (blockStatements p num authorId ++ extra) f db).1 := by
  unfold transact
  rcases hexec : execAll (blockStatements p num authorId ++ extra) f.statement db with e | db'
  · exact .inl (.refl db)
  · have hwritten : ∃ blocks fresh,
        Sink.insertBlock db.blocks (db.authors.rows.map Prod.snd) p.row authorId =
          .ok (blocks, fresh) ∧ { db with blocks }.SameBlocks db' := by
      obtain ⟨rest, hrest, heq⟩ := blockStatements_eq p num authorId
      rw [heq, List.cons_append] at hexec
      obtain ⟨u, hblock, hafter⟩ := execAll_cons_ok (execAll_ok_none hexec)
      obtain ⟨⟨blocks, fresh⟩, hlanded, rfl⟩ := exec_ok hblock
      refine ⟨blocks, fresh, hlanded, execAll_aside (fun st hst => ?_) hafter⟩
      rcases List.mem_append.mp hst with hown | hmore
      · exact hrest st hown
      · exact hextra st hmore
    rcases f.commit with - | - | -
    · exact .inr hwritten
    · exact .inl (.refl db)
    · exact .inr hwritten

/-! ## One `index_block` -/

/-- **An author is named** by the id its row has. -/
def Db.Names (db : Db) (author : Option AccountId) (authorId : Option ℕ) : Prop :=
  authorId = author.bind db.authors.find ∧ authorId.isSome = author.isSome

/-- **Each block's row names its author**, and no two authors share an
id. -/
structure Db.Authored (chain : Chain) (db : Db) : Prop where
  numbered : db.AuthorsNumbered
  row : ∀ n ≤ u64Max, ∀ row, db.blocks.find (asI64 n) = some row →
    db.Names (chain n).author row.authorId

/-- An author named stays named. -/
theorem Db.Names.mono {author : Option AccountId} (h : db.Names author authorId)
    (hext : Extends db.authors db'.authors) : db'.Names author authorId := by
  obtain ⟨heq, hsome⟩ := h
  refine ⟨?_, hsome⟩
  rcases author with - | bytes
  · exact heq
  · rw [Option.bind_some] at heq ⊢
    rcases authorId with - | id
    · cases hsome
    · rw [hext bytes id heq.symm]

theorem Db.Authored.empty : Db.empty.Authored chain where
  numbered := Numbered.empty
  row := by
    intro n hn row hrow
    have hnone : Db.empty.blocks.find (asI64 n) = none := Table.find_empty
    rw [hnone] at hrow
    cases hrow

theorem Db.Authored.of_same (h : db.Authored chain) (hsame : db.SameBlocks db') :
    db'.Authored chain where
  numbered := by
    unfold Db.AuthorsNumbered
    rw [hsame.authors, hsame.next]
    exact h.numbered
  row := by
    intro n hn row hrow
    rw [hsame.blocks] at hrow
    refine (h.row n hn row hrow).mono ?_
    rw [hsame.authors]
    exact Extends.refl _

theorem Db.Authored.resolveAuthor {bytes : AccountId} (h : db.Authored chain) :
    (db.resolveAuthor bytes).1.Authored chain where
  numbered := h.numbered.resolveAuthor
  row := by
    intro n hn row hrow
    refine (h.row n hn row ?_).mono Db.extends_resolveAuthor
    rcases hfind : db.authors.find bytes with - | id
    · rwa [Db.resolveAuthor_of_free hfind] at hrow
    · rwa [Db.resolveAuthor_of_find hfind] at hrow

/-- **The author resolved** is named by the id it is given. -/
theorem Db.Authored.resolveRowAuthor (h : db.Authored chain) (f : Faults)
    (author : Option AccountId) :
    (resolveRowAuthor f author db).1.Authored chain ∧
    ∀ authorId, (resolveRowAuthor f author db).2 = .ok authorId →
      (resolveRowAuthor f author db).1.Names author authorId := by
  unfold AllfeatExplorer.resolveRowAuthor
  rcases author with - | bytes
  · refine ⟨h, fun authorId hok => ?_⟩
    obtain rfl := Except.ok.inj hok
    exact ⟨rfl, rfl⟩
  · rcases f.author with - | - | -
    · refine ⟨h.resolveAuthor, fun authorId hok => ?_⟩
      obtain rfl := Except.ok.inj hok
      exact ⟨Db.find_resolveAuthor.symm, rfl⟩
    · exact ⟨h, nofun⟩
    · exact ⟨h.resolveAuthor, nofun⟩

/-- **The row written** names the author; a row that was there stays. -/
theorem Db.Authored.insertBlock {ids : List ℕ} {blocks : Table ℤ StoredBlock} {fresh : Bool}
    (h : db.Authored chain) (hnum : num ≤ u64Max) (hnames : db.Names (chain num).author authorId)
    (hlanded : Sink.insertBlock db.blocks ids (projectAt (chain num) num).row authorId =
      .ok (blocks, fresh)) : { db with blocks }.Authored chain where
  numbered := h.numbered
  row := by
    intro n hn row hrow
    simp only [Sink.insertBlock] at hlanded
    split at hlanded
    · obtain ⟨rfl, -⟩ := Prod.mk.inj (Except.ok.inj hlanded)
      exact h.row n hn row hrow
    · rename_i hfresh
      split at hlanded
      · cases hlanded
      · split at hlanded
        · cases hlanded
        · obtain ⟨rfl, -⟩ := Prod.mk.inj (Except.ok.inj hlanded)
          have hnum' : (projectAt (chain num) num).row.num = num := rfl
          rw [hnum'] at hfresh hrow
          have hfree : db.blocks.find (asI64 num) = none := by
            rwa [← Table.contains_eq_false_iff, ← Bool.not_eq_true]
          rw [Table.find_insertNew] at hrow
          split at hrow
          · rename_i hkey
            obtain rfl := (asI64_inj hn hnum).mp hkey
            rw [hfree] at hrow
            obtain rfl := Option.some.inj hrow
            exact hnames
          · exact h.row n hn row hrow

/-- **`index_block` keeps the rows authored**, in either form and however
it ends. -/
theorem Db.Authored.indexBlockWith (h : db.Authored chain) (hextra : ∀ st ∈ extra, st.Aside)
    (hnum : num ≤ u64Max) : (indexBlockWith extra chain num f db).1.Authored chain := by
  unfold AllfeatExplorer.indexBlockWith
  split
  · exact h
  · obtain ⟨hdb, hnames⟩ :=
      h.resolveRowAuthor f (projectAt (chain num) num).row.author
    simp only
    split
    · rename_i u e hres
      rw [hres] at hdb
      exact hdb
    · rename_i u authorId hres
      rw [hres] at hdb hnames
      have hname : u.Names (chain num).author authorId := hnames authorId rfl
      rcases transact_blocks hextra u (projectAt (chain num) num) num authorId f with
        hsame | ⟨blocks, fresh, hlanded, hsame⟩
      · exact hdb.of_same hsame
      · exact (hdb.insertBlock hnum hname hlanded).of_same hsame

/-! ## Runs -/

/-- A worker or the live worker is at block `num`. -/
def Sys.At (s : Sys) (num : ℕ) : Prop :=
  (∃ w chunk lease, (s.workers w).task = some ⟨chunk, .indexing num, lease⟩ ∧
    num ≤ chunk.toBlock) ∨
  ∃ last head, s.live = .indexing last num head

/-- The block a worker is at is a `u64`. -/
theorem AppliedInv.at_le (h : AppliedInv chain s) (hat : s.At num) : num ≤ u64Max := by
  rcases hat with ⟨w, chunk, lease, htask, hle⟩ | ⟨last, head, hlive⟩
  · have hbound := h.task w _ htask
    exact hle.trans hbound
  · obtain ⟨hle, hhead, -⟩ := h.live.range last num head hlive
    exact hle.trans hhead

/-- **What a step does to the blocks and the authors**: nothing, or it is
the `index_block` of the block a worker is at. -/
theorem Sys.step_blocks {a : Action} (h : Sys.step chain chunkSize s a = some t) :
    s.db.SameBlocks t.db ∨
    ∃ num f extra, s.At num ∧ (∀ st ∈ extra, st.Aside) ∧
      t.db = (indexBlockWith extra chain num f s.db).1 := by
  cases a with
  | tick dt | publish head =>
    obtain rfl := Option.some.inj h
    exact .inl (.refl s.db)
  | seed i a =>
    left
    cases Sys.seedStep_cases (show Sys.seedStep chunkSize s i a = some t from h) <;>
      exact ⟨rfl, rfl, rfl⟩
  | worker w a =>
    change Sys.workerStep chain s w a = some t at h
    rcases a with locked | faults | - | err | -
    · left
      cases Sys.workerStep_cases h
      all_goals exact ⟨rfl, rfl, rfl⟩
    · right
      unfold Sys.workerStep at h
      split at h
      case h_2 chunk next lease faults' halive htask hact =>
        split at h
        · rename_i hle
          refine ⟨next, faults', [], .inl ⟨w, chunk, lease, htask, hle⟩, nofun, ?_⟩
          split at h
          · rename_i db hindex
            obtain rfl := Option.some.inj h
            exact (congrArg Prod.fst hindex).symm
          · rename_i db e hindex
            obtain rfl := Option.some.inj h
            exact (congrArg Prod.fst hindex).symm
        · cases h
      all_goals simp_all
    · left
      cases Sys.workerStep_cases h
      all_goals exact ⟨rfl, rfl, rfl⟩
    · left
      cases Sys.workerStep_cases h
      all_goals exact ⟨rfl, rfl, rfl⟩
    · left
      cases Sys.workerStep_cases h
      all_goals exact ⟨rfl, rfl, rfl⟩
  | live a =>
    change Sys.liveStep chain s a = some t at h
    rcases a with - | - | faults | -
    · left
      cases Sys.liveStep_cases h
      all_goals exact .refl _
    · left
      cases Sys.liveStep_cases h
      all_goals exact .refl _
    · right
      unfold Sys.liveStep at h
      split at h
      case h_3 last num head faults' hlive hact =>
        refine ⟨num, faults', [bumpStatement num], .inr ⟨last, head, hlive⟩, ?_, ?_⟩
        · intro st hst
          rw [List.mem_singleton.mp hst]
          exact bumpStatement_aside
        · split at h
          · rename_i db hindex
            obtain rfl := Option.some.inj h
            exact (congrArg Prod.fst hindex).symm
          · rename_i db e hindex
            obtain rfl := Option.some.inj h
            exact (congrArg Prod.fst hindex).symm
      all_goals simp_all
    · left
      cases Sys.liveStep_cases h
      all_goals exact .refl _

/-- **In every run a block's row names the block's author.** -/
theorem authored_run (h : run (Sys.step chain chunkSize) (Sys.start Db.empty) as = some s) :
    s.db.Authored chain := by
  have hinv : AppliedInv chain s ∧ s.db.Authored chain := by
    have hstart : AppliedInv chain (Sys.start Db.empty) :=
      ⟨LiveInv.start rfl rfl, nofun, [], Db.Applied.empty⟩
    refine inv_run (I := fun u => AppliedInv chain u ∧ u.db.Authored chain) ?_
      ⟨hstart, Db.Authored.empty⟩ h
    rintro u a v ⟨happlied, hauthored⟩ hstep
    refine ⟨happlied.of_step hstep, ?_⟩
    rcases Sys.step_blocks hstep with hsame | ⟨num, f, extra, hat, hextra, hdb⟩
    · exact hauthored.of_same hsame
    · rw [hdb]
      exact hauthored.indexBlockWith hextra (happlied.at_le hat)
  exact hinv.2

end AllfeatExplorer
