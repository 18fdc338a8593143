import AllfeatExplorer.Indexer.Helpers.Coverage
import AllfeatExplorer.Indexer.Helpers.Live

/-!
# The seam between backfill and live

On a fresh database the seed queues everything up to the head `H` it
reads, and the live worker starts at the head it reads. The two reads are
apart, so the live worker may anchor past `H + 1`; nothing then asks for
the blocks in between. The seam is closed along every run in which no
commit without an in-memory cursor lands past the seed's head and past
the stored cursor (`Sys.anchorsPast`).
-/

namespace AllfeatExplorer

open Backfill

variable {chain : Chain} {chunkSize : ℕ} {as : List Action} {s t u v : Sys} {i : ℕ}

/-- The head a seed task has read. -/
def Seed.head : Seed → Option ℕ
  | .headRead head => some head.toNat
  | .planned head _ => some head.toNat
  | .completed head => some head.toNat
  | .idle => none
  | .crashed => none

/-- **The seam is closed** along the run: once seed `i` has completed and
a cursor is stored, a block up to the cursor is there or queued. -/
def SeamClosed (chain : Chain) (chunkSize : ℕ) (as : List Action) (i : ℕ) : Prop :=
  ∀ pre u, pre <+: as → run (Sys.step chain chunkSize) (Sys.start Db.empty) pre = some u →
    ∀ head c, u.seeds i = .completed head → u.db.indexerCursor = some c →
      ∀ n : ℕ, (n : ℤ) ≤ c → u.db.hasBlock n ∨ u.db.Queued n

/-- The watch publishes no lower head than it holds. -/
def Sys.publishesUp (s : Sys) (a : Action) : Bool :=
  match a, s.published with
  | .publish head, some held => held ≤ head
  | _, _ => true

/-- **The live worker anchors past the seed**: a commit without an
in-memory cursor, more than a block above the head seed `i` has read and,
where a cursor is stored, more than a block above that too. -/
def Sys.anchorsPast (i : ℕ) (s : Sys) (a : Action) : Bool :=
  match a, s.live, (s.seeds i).head with
  | .live (.index faults), .indexing none num _, some seedHead =>
    decide (faults.Through ∧ seedHead + 1 < num) &&
      s.db.indexerCursor.all fun c => c + 1 < asI64 num
  | _, _, _ => false

/-- **The seam invariant.** Whatever the live worker is at was published;
a seed's head was published too; and above the head of seed `i` every
block up to the cursor is there. -/
structure SeamInv (i : ℕ) (s : Sys) : Prop where
  cursor : ∀ c, s.db.indexerCursor = some c → ∃ p, s.published = some p ∧ c ≤ p.toNat
  range : ∀ l num head, s.live = .indexing l num head →
    num ≤ head ∧ ∃ p, s.published = some p ∧ head ≤ p.toNat
  above : ∀ seedHead c, (s.seeds i).head = some seedHead → s.db.indexerCursor = some c →
    ∀ k, (seedHead : ℤ) < k → k ≤ c → s.db.blocks.contains k = true

theorem SeamInv.start : SeamInv i (Sys.start Db.empty) where
  cursor := nofun
  range := nofun
  above := nofun

/-- A step that leaves the watch, the cursor, the live worker and the
head seed `i` has read, and drops no block. -/
theorem SeamInv.of_same (h : SeamInv i s) (hpub : t.published = s.published)
    (hcursor : t.db.indexerCursor = s.db.indexerCursor) (hlive : t.live = s.live)
    (hseed : ∀ hd, (t.seeds i).head = some hd → (s.seeds i).head = some hd)
    (hblocks : ∀ k, s.db.blocks.contains k = true → t.db.blocks.contains k = true) :
    SeamInv i t := by
  refine ⟨?_, ?_, ?_⟩
  · rw [hcursor, hpub]
    exact h.cursor
  · rw [hlive, hpub]
    exact h.range
  · intro hd c hhd hc k hlo hhi
    rw [hcursor] at hc
    exact hblocks k (h.above hd c (hseed hd hhd) hc k hlo hhi)

/-- A seed reads the head the watch holds, which no cursor is above. -/
theorem SeamInv.of_seedStep {j : ℕ} {a : SeedAction} (h : SeamInv i s)
    (hstep : Sys.SeedStep chunkSize s j a t) : SeamInv i t := by
  have hmoved : ∀ (q : Queue) (x : Seed),
      (∀ hd, x.head = some hd → (s.seeds j).head = some hd) →
      SeamInv i ((s.withQueue q).setSeed j x) := by
    intro q x hx
    refine SeamInv.of_same h rfl rfl rfl ?_ (fun _ hk => hk)
    intro hd hhd
    simp only [Sys.setSeed, Function.update_apply] at hhd
    split at hhd
    · rename_i hij
      rw [hij]
      exact hx hd hhd
    · exact hhd
  cases hstep with
  | @readHead head hseed hhead =>
    refine ⟨h.cursor, h.range, ?_⟩
    intro hd c hhd hc k hlo hhi
    simp only [Sys.setSeed, Function.update_apply] at hhd
    split at hhd
    · obtain rfl : head.toNat = hd := Option.some.inj hhd
      obtain ⟨p, hp, hle⟩ := h.cursor c hc
      obtain rfl := Option.some.inj (hhead.symm.trans hp)
      omega
    · exact h.above hd c hhd hc k hlo hhi
  | plan hseed hplan =>
    refine hmoved s.db.backfillChunks _ ?_
    intro hd hhd
    rw [hseed]
    exact hhd
  | insert hseed hend =>
    refine hmoved _ _ ?_
    intro hd hhd
    rw [hseed]
    rcases hend with ⟨rfl, -⟩ | ⟨rfl, -⟩
    · exact hhd
    · cases hhd
  | stop =>
    refine hmoved s.db.backfillChunks _ ?_
    intro hd hhd
    cases hhd

/-- **A live commit keeps the seam**, unless it anchors past the seed:
what lies between the old cursor and the block is there, or below the
seed's head. -/
theorem SeamInv.of_indexed {l : Option ℕ} {num head : ℕ} {faults : Faults} {db : Db}
    {live : LiveWorker} (hinv : LiveInv s) (h : SeamInv i s)
    (hlive : s.live = .indexing l num head) (hthrough : faults.Through)
    (hdb : s.db.Indexed chain num (Sink.bumpCursor s.db.indexerCursor num) db)
    (hnext : live = Sys.catchUp (some num) (num + 1) head ∨ live = .waiting l)
    (hok : s.anchorsPast i (.live (.index faults)) = false) :
    SeamInv i { s with db, live } := by
  obtain ⟨hle, p, hp, hhead⟩ := h.range l num head hlive
  have hnum := asI64_le num
  refine ⟨?_, ?_, ?_⟩
  · intro c hc
    simp only at hc
    rw [hdb.cursor] at hc
    rcases bumpCursor_cases s.db.indexerCursor num with ⟨hb, -⟩ | ⟨c', hc', -, hb⟩
    · refine ⟨p, hp, ?_⟩
      rw [← Option.some.inj (hb.symm.trans hc)]
      omega
    · exact h.cursor c (hc'.trans (hb.symm.trans hc))
  · intro l' num' head' hl'
    rcases hnext with rfl | rfl
    · obtain ⟨rfl, rfl, rfl, hle'⟩ := catchUp_eq_indexing hl'
      exact ⟨hle', p, hp, hhead⟩
    · cases hl'
  · intro seedHead c hseed hc k hlo hhi
    simp only at hseed hc ⊢
    rw [hdb.cursor] at hc
    rcases bumpCursor_cases s.db.indexerCursor num with ⟨hb, hlow⟩ | ⟨c', hc', hge, hb⟩
    · obtain rfl := Option.some.inj (hb.symm.trans hc)
      rcases eq_or_lt_of_le hhi with rfl | hlt
      · exact hdb.there
      · -- `k` is strictly between the seed's head and the block.
        refine hdb.kept ?_
        have habove : seedHead + 1 < num := by omega
        cases hstored : s.db.indexerCursor with
        | none =>
          -- The first cursor is stored by a worker without one: the case `anchorsPast` names.
          have hl : l = none := by
            have hfresh := hinv.fresh hstored
            rwa [hlive] at hfresh
          subst hl
          simp only [Sys.anchorsPast, hlive, hseed, hstored, hthrough, habove, and_self,
            decide_true, Option.all_none, Bool.and_self, Bool.true_eq_false] at hok
        | some c₀ =>
          rcases le_or_gt k c₀ with hold | hnew
          · exact h.above seedHead c₀ hseed hstored k hlo hold
          · cases l with
            | none =>
              simp only [Sys.anchorsPast, hlive, hseed, hstored, hthrough, habove, and_self,
                decide_true, Option.all_some, Bool.true_and, decide_eq_false_iff_not,
                not_lt] at hok
              omega
            | some x =>
              have hx := (hinv.range (some x) num head hlive).2.2 x rfl
              have hlast : s.live.last = some x := by rw [hlive]; rfl
              exact hinv.ahead x c₀ hlast hstored k hnew (by omega)
    · obtain rfl := Option.some.inj (hb.symm.trans hc)
      exact hdb.kept (h.above seedHead c' hseed hc' k hlo hhi)

theorem SeamInv.of_liveStep {a : LiveAction} (hinv : LiveInv s) (h : SeamInv i s)
    (hstep : Sys.LiveStep chain s a t) (hok : s.anchorsPast i (.live a) = false) : SeamInv i t := by
  cases hstep with
  | start | crash => exact ⟨h.cursor, nofun, h.above⟩
  | noHead => exact h
  | @observe last head hlive hhead =>
    refine ⟨h.cursor, ?_, h.above⟩
    intro l num hd hl
    obtain ⟨rfl, rfl, rfl, hle⟩ := catchUp_eq_indexing hl
    exact ⟨hle, head, hhead, le_rfl⟩
  | indexed hlive hthrough hdb hnext => exact h.of_indexed hinv hlive hthrough hdb hnext hok
  | notIndexed hlive hdb =>
    refine ⟨?_, nofun, ?_⟩
    · simp only
      rw [hdb.keeps.cursor]
      exact h.cursor
    · simp only
      rw [hdb.keeps.cursor, hdb.keeps.blocks]
      exact h.above

theorem SeamInv.of_publish {head : UInt64} (h : SeamInv i s)
    (hup : s.publishesUp (.publish head) = true) :
    SeamInv i { s with published := some head } := by
  have hle : ∀ p, s.published = some p → p.toNat ≤ head.toNat := by
    intro p hp
    simp only [Sys.publishesUp, hp, decide_eq_true_eq] at hup
    exact UInt64.le_iff_toNat_le.mp hup
  refine ⟨?_, ?_, h.above⟩
  · intro c hc
    obtain ⟨p, hp, hcp⟩ := h.cursor c hc
    have := hle p hp
    exact ⟨head, rfl, by omega⟩
  · intro l num hd hl
    obtain ⟨hnum, p, hp, hhd⟩ := h.range l num hd hl
    exact ⟨hnum, head, rfl, hhd.trans (hle p hp)⟩

/-- **A step keeps the seam invariant**, if the watch does not go back
and the live worker does not anchor past the seed. -/
theorem SeamInv.of_step {a : Action} (hinv : LiveInv s) (h : SeamInv i s)
    (hup : s.publishesUp a = true) (hok : s.anchorsPast i a = false)
    (hstep : Sys.step chain chunkSize s a = some t) : SeamInv i t := by
  cases a with
  | tick dt =>
    obtain rfl := Option.some.inj hstep
    exact h.of_same rfl rfl rfl (fun _ hhd => hhd) (fun _ hk => hk)
  | publish head =>
    obtain rfl := Option.some.inj hstep
    exact h.of_publish hup
  | seed j a => exact h.of_seedStep (Sys.seedStep_cases hstep)
  | worker w a =>
    obtain ⟨hcursor, hlive, hblocks⟩ := Sys.step_same_of_not_live hstep nofun
    cases Sys.workerStep_cases (show Sys.workerStep chain s w a = some t from hstep) <;>
      exact h.of_same rfl hcursor hlive (fun _ hhd => hhd) hblocks
  | live a => exact h.of_liveStep hinv (Sys.liveStep_cases hstep) hok

/-- **The seam between backfill and live is closed** along every run from
a fresh database in which the published heads do not go back and the live
worker does not anchor past the seed. -/
theorem seamClosed_run
    (h : run (Sys.step chain chunkSize) (Sys.start Db.empty) as = some t)
    (hup : EveryStep (Sys.step chain chunkSize) (fun u a => u.publishesUp a = true)
      (Sys.start Db.empty) as)
    (hok : EveryStep (Sys.step chain chunkSize) (fun u a => u.anchorsPast i a = false)
      (Sys.start Db.empty) as) :
    SeamClosed chain chunkSize as i := by
  intro pre u hpre hu head c hseed hc n hn
  have hboth : LiveInv u ∧ SeamInv i u := by
    refine inv_run_of_every (I := fun x => LiveInv x ∧ SeamInv i x) ?_
      ⟨LiveInv.start rfl rfl, SeamInv.start⟩ ((hup.earlier h hpre).and (hok.earlier h hpre)) hu
    rintro x a y ⟨hlive, hseam⟩ ⟨hxup, hxok⟩ hxy
    exact ⟨hlive.of_step hxy, hseam.of_step hlive hxup hxok hxy⟩
  have hcov : Coverage u :=
    inv_run (fun _ _ _ hx hstep => hx.of_step hstep) Coverage.start hu
  rcases Nat.lt_or_ge head.toNat n with habove | hbelow
  -- Above the seed's head the live worker has every block, below it the seed accounts for them.
  · have hkey : asI64 n = n := by
      obtain ⟨m, hm⟩ := hboth.1.stored c hc
      refine asI64_of_le ?_
      simp only [hm, asI64, i64Max] at hn ⊢
      split at hn <;> omega
    refine .inl (hboth.2.above head.toNat c ?_ hc (asI64 n) ?_ ?_)
    · rw [hseed]
      rfl
    · omega
    · omega
  · exact hcov.completed i head hseed n hbelow

/-- The seed reads head 5, the live worker anchors at it, and both go
on. -/
def together : List Action :=
  [.publish 5, .seed 0 .readHead, .live .start, .live .observe, .live (.index {}),
    .publish 6, .seed 0 .readExisting, .seed 0 (.insert .acked),
    .live .observe, .live (.index {})]

theorem seamClosed_together : SeamClosed bareChain 10 together 0 := by
  have hrun : (run (Sys.step bareChain 10) (Sys.start Db.empty) together).isSome := by decide
  obtain ⟨t, ht⟩ := Option.isSome_iff_exists.mp hrun
  exact seamClosed_run ht (by decide) (by decide)

/-- The seed reads head 5, the chain moves to 9, and the live worker
anchors there. -/
def apart : List Action :=
  [.publish 5, .seed 0 .readHead, .publish 9, .live .start, .live .observe,
    .live (.index {}), .seed 0 .readExisting, .seed 0 (.insert .acked)]

/-- **The seam is open**: block 7 is below the cursor, missing, and in no
chunk, though the heads published only go up. -/
theorem not_seamClosed_apart :
    (run (Sys.step bareChain 10) (Sys.start Db.empty) apart).isSome = true ∧
      EveryStep (Sys.step bareChain 10) (fun u a => u.publishesUp a = true)
        (Sys.start Db.empty) apart ∧
      ¬ SeamClosed bareChain 10 apart 0 := by
  refine ⟨by decide, by decide, ?_⟩
  intro hclosed
  have hend : (run (Sys.step bareChain 10) (Sys.start Db.empty) apart).map (fun u =>
      (u.seeds 0, u.db.indexerCursor, decide (u.db.hasBlock 7),
        u.db.backfillChunks.rows.rows.any fun r => decide (7 ≤ asU64 r.2.toBlock))) =
      some (.completed 5, some 9, false, false) := by decide
  obtain ⟨u, hu, heq⟩ := Option.map_eq_some_iff.mp hend
  simp only [Prod.mk.injEq, decide_eq_false_iff_not] at heq
  obtain ⟨hseed, hcursor, hmissing, hunqueued⟩ := heq
  rcases hclosed apart u List.prefix_rfl hu 5 9 hseed hcursor 7 (by decide) with hthere | hqueued
  · exact hmissing hthere
  · obtain ⟨id, row, hrow, -, hholds⟩ := hqueued
    have hnone := List.any_eq_false.mp hunqueued (id, row) (Table.find_eq_some_iff.mp hrow)
    exact hnone (decide_eq_true hholds.2)

end AllfeatExplorer
