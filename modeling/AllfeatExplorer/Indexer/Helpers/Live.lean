import AllfeatExplorer.Indexer.Helpers.Steps

/-!
# The live worker's two cursors

The stored cursor moves with the block it names and never back. The
in-memory cursor runs ahead of it only over blocks that are there
(`LiveInv.ahead`), so a worker that has one asks for the right next
block. One that has none asks for the head, whatever is stored.
-/

namespace AllfeatExplorer

variable {chain : Chain} {chunkSize : ℕ} {s s' : Sys} {db db' : Db} {num n : ℕ}

/-! ## The stored cursor -/

/-- `bump_cursor` leaves a cursor: the new value, or a stored one that is
no lower. -/
theorem bumpCursor_cases (cursor : Option ℤ) (num : ℕ) :
    Sink.bumpCursor cursor num = some (asI64 num) ∧ (∀ c, cursor = some c → c < asI64 num) ∨
    ∃ c, cursor = some c ∧ asI64 num ≤ c ∧ Sink.bumpCursor cursor num = some c := by
  unfold Sink.bumpCursor
  cases cursor with
  | none => exact .inl ⟨rfl, nofun⟩
  | some stored =>
    simp only
    split
    · rename_i hlt
      refine .inl ⟨rfl, ?_⟩
      intro c hc
      rwa [← Option.some.inj hc]
    · rename_i hge
      exact .inr ⟨stored, rfl, not_lt.mp hge, rfl⟩

/-- A step takes a block number up by one at most, as stored. -/
theorem asI64_succ_le (n : ℕ) : asI64 (n + 1) ≤ asI64 n + 1 := by
  simp only [asI64]
  split <;> split <;> omega

theorem asI64_satAdd_le {x : ℕ} (hx : x ≤ u64Max) : asI64 (satAddU64 x 1) ≤ asI64 x + 1 := by
  rcases Nat.lt_or_ge x u64Max with hlt | hge
  · rw [satAddU64_of_le hlt]
    exact asI64_succ_le x
  · have hsat : satAddU64 x 1 = x := by
      simp only [satAddU64]
      omega
    rw [hsat]
    omega

/-! ## The in-memory cursor -/

namespace LiveWorker

/-- The in-memory cursor, empty when the worker is not running. -/
def last : LiveWorker → Option ℕ
  | off => none
  | waiting last => last
  | indexing last _ _ => last

@[simp] theorem last_catchUp (l : Option ℕ) (num head : ℕ) :
    (Sys.catchUp l num head).last = l := by
  unfold Sys.catchUp
  split <;> rfl

end LiveWorker

theorem catchUp_eq_indexing {l l' : Option ℕ} {num num' head head' : ℕ}
    (h : Sys.catchUp l num head = .indexing l' num' head') :
    l' = l ∧ num' = num ∧ head' = head ∧ num ≤ head := by
  unfold Sys.catchUp at h
  split at h
  · rename_i hle
    obtain ⟨rfl, rfl, rfl⟩ := LiveWorker.indexing.inj h
    exact ⟨rfl, rfl, rfl, hle⟩
  · cases h

/-- **The live worker's invariant.** -/
structure LiveInv (s : Sys) : Prop where
  /-- The stored cursor is a block number. -/
  stored : ∀ c, s.db.indexerCursor = some c → ∃ n, c = asI64 n
  /-- Before a cursor is stored the worker has none. -/
  fresh : s.db.indexerCursor = none → s.live.last = none
  /-- The in-memory cursor is a `u64`. -/
  bound : ∀ x, s.live.last = some x → x ≤ u64Max
  /-- The block it is at is in the range, and the one after its cursor. -/
  range : ∀ l num head, s.live = .indexing l num head →
    num ≤ head ∧ head ≤ u64Max ∧ ∀ x, l = some x → asI64 num ≤ asI64 x + 1
  /-- Blocks between the stored cursor and the in-memory one are there. -/
  ahead : ∀ x c, s.live.last = some x → s.db.indexerCursor = some c →
    ∀ k, c < k → k ≤ asI64 x → s.db.blocks.contains k = true

/-- A step that leaves the cursor and the live worker, and drops no
block. -/
theorem LiveInv.of_same (h : LiveInv s) (hcursor : s'.db.indexerCursor = s.db.indexerCursor)
    (hlive : s'.live = s.live)
    (hblocks : ∀ k, s.db.blocks.contains k = true → s'.db.blocks.contains k = true) :
    LiveInv s' := by
  refine ⟨?_, ?_, ?_, ?_, ?_⟩
  · rw [hcursor]
    exact h.stored
  · rw [hcursor, hlive]
    exact h.fresh
  · rw [hlive]
    exact h.bound
  · rw [hlive]
    exact h.range
  · rw [hcursor, hlive]
    exact fun x c hx hc k hlo hhi => hblocks k (h.ahead x c hx hc k hlo hhi)

/-- The worker moves without a write, and keeps its in-memory cursor. -/
theorem LiveInv.of_move {live : LiveWorker} (h : LiveInv s) (hlast : live.last = s.live.last)
    (hrange : ∀ l num head, live = .indexing l num head →
      num ≤ head ∧ head ≤ u64Max ∧ ∀ x, l = some x → asI64 num ≤ asI64 x + 1) :
    LiveInv { s with live } where
  stored := h.stored
  fresh := by
    intro hnone
    rw [hlast]
    exact h.fresh hnone
  bound := by
    rw [hlast]
    exact h.bound
  range := hrange
  ahead := by
    rw [hlast]
    exact h.ahead

/-- **A block indexed keeps the invariant**, whether the commit is
reported or not. -/
theorem LiveInv.of_indexed {l : Option ℕ} {head : ℕ} {live : LiveWorker} (h : LiveInv s)
    (hlive : s.live = .indexing l num head)
    (hdb : s.db.Indexed chain num (Sink.bumpCursor s.db.indexerCursor num) db)
    (hnext : live = Sys.catchUp (some num) (num + 1) head ∨ live = .waiting l) :
    LiveInv { s with db, live } := by
  obtain ⟨hle, hhead, hstep⟩ := h.range l num head hlive
  have hlast : s.live.last = l := by rw [hlive]; rfl
  -- The stored cursor afterwards: at the block or past it, and no lower than before.
  have hcursor : ∃ c, db.indexerCursor = some c ∧ asI64 num ≤ c ∧
      (c = asI64 num ∨ s.db.indexerCursor = some c) ∧
      ∀ c₀, s.db.indexerCursor = some c₀ → c₀ ≤ c := by
    rcases bumpCursor_cases s.db.indexerCursor num with ⟨hb, hlow⟩ | ⟨c, hc, hge, hb⟩
    · exact ⟨asI64 num, hdb.cursor.trans hb, le_rfl, .inl rfl, fun c₀ hc₀ => (hlow c₀ hc₀).le⟩
    · refine ⟨c, hdb.cursor.trans hb, hge, .inr hc, ?_⟩
      intro c₀ hc₀
      rw [Option.some.inj (hc.symm.trans hc₀)]
  obtain ⟨c, hc, hnum, horigin, hup⟩ := hcursor
  refine ⟨?_, ?_, ?_, ?_, ?_⟩
  · intro c' hc'
    obtain rfl := Option.some.inj (hc.symm.trans hc')
    rcases horigin with rfl | hold
    · exact ⟨num, rfl⟩
    · exact h.stored c hold
  · intro hnone
    rw [hc] at hnone
    cases hnone
  · intro x hx
    rcases hnext with rfl | rfl
    · rw [LiveWorker.last_catchUp] at hx
      obtain rfl := Option.some.inj hx
      exact hle.trans hhead
    · exact h.bound x (hlast.trans hx)
  · intro l' num' head' hl'
    rcases hnext with rfl | rfl
    · obtain ⟨rfl, rfl, rfl, hle'⟩ := catchUp_eq_indexing hl'
      refine ⟨hle', hhead, ?_⟩
      intro x hx
      obtain rfl := Option.some.inj hx
      exact asI64_succ_le num
    · cases hl'
  · intro x c' hx hc' k hlo hhi
    obtain rfl := Option.some.inj (hc.symm.trans hc')
    rcases hnext with rfl | rfl
    · -- The in-memory cursor is the block just stored: nothing lies between.
      rw [LiveWorker.last_catchUp] at hx
      obtain rfl := Option.some.inj hx
      omega
    · -- The old in-memory cursor is kept, and the stored one has only gone up.
      rw [hdb.blocks, Bool.or_eq_true]
      have hx' : s.live.last = some x := hlast.trans hx
      cases hc₀ : s.db.indexerCursor with
      | none =>
        rw [h.fresh hc₀] at hx'
        cases hx'
      | some c₀ => exact .inr (h.ahead x c₀ hx' hc₀ k (lt_of_le_of_lt (hup c₀ hc₀) hlo) hhi)

theorem LiveInv.of_liveStep {a : LiveAction} (h : LiveInv s) (hstep : Sys.LiveStep chain s a s') :
    LiveInv s' := by
  cases hstep with
  | start hlive =>
    refine ⟨h.stored, ?_, ?_, nofun, ?_⟩
    · intro hnone
      simp only [LiveWorker.last, Sink.loadCursor]
      rw [hnone]
      rfl
    · intro x hx
      obtain ⟨c, -, rfl⟩ := Option.map_eq_some_iff.mp hx
      exact asU64_le c
    · intro x c hx hc k hlo hhi
      -- The cursor just loaded is the one stored.
      simp only at hc
      simp only [LiveWorker.last, Sink.loadCursor, hc, Option.map_some, Option.some.injEq] at hx
      obtain ⟨m, rfl⟩ := h.stored c hc
      rw [← hx, asI64_asU64_asI64] at hhi
      omega
  | noHead hlive hhead => exact h
  | @observe last head hlive hhead =>
    have hlast : s.live.last = last := by rw [hlive]; rfl
    refine h.of_move (by rw [LiveWorker.last_catchUp, hlast]) ?_
    intro l num head' hl
    obtain ⟨rfl, rfl, rfl, hle⟩ := catchUp_eq_indexing hl
    refine ⟨hle, toNat_le_u64Max head, ?_⟩
    rintro x rfl
    exact asI64_satAdd_le (h.bound x hlast)
  | indexed hlive hthrough hdb hnext => exact h.of_indexed hlive hdb hnext
  | @notIndexed last num head faults db hlive hdb =>
    have hsame : LiveInv { s with db } :=
      h.of_same hdb.keeps.cursor rfl (fun k hk => by rw [hdb.keeps.blocks]; exact hk)
    refine hsame.of_move ?_ nofun
    simp only [hlive]
    rfl
  | crash => exact ⟨h.stored, fun _ => rfl, nofun, nofun, nofun⟩

/-- The cursor and the live worker are the live worker's. -/
theorem Sys.step_same_of_not_live {a : Action} (h : Sys.step chain chunkSize s a = some s')
    (ha : ∀ b, a ≠ .live b) :
    s'.db.indexerCursor = s.db.indexerCursor ∧ s'.live = s.live ∧
      ∀ k, s.db.blocks.contains k = true → s'.db.blocks.contains k = true := by
  cases a with
  | tick dt =>
    obtain rfl := Option.some.inj h
    exact ⟨rfl, rfl, fun _ hk => hk⟩
  | publish head =>
    obtain rfl := Option.some.inj h
    exact ⟨rfl, rfl, fun _ hk => hk⟩
  | seed i a =>
    cases Sys.seedStep_cases (show Sys.seedStep chunkSize s i a = some s' from h) <;>
      exact ⟨rfl, rfl, fun _ hk => hk⟩
  | worker w a =>
    have hstep := Sys.workerStep_cases (show Sys.workerStep chain s w a = some s' from h)
    cases hstep with
    | drained | claim | markDone | markFailed | crash => exact ⟨rfl, rfl, fun _ hk => hk⟩
    | indexed halive htask hnext hdb hstage => exact ⟨hdb.cursor, rfl, fun _ hk => hdb.kept hk⟩
    | notIndexed halive htask hdb =>
      refine ⟨hdb.keeps.cursor, rfl, fun k hk => ?_⟩
      simp only [Sys.setWorker]
      rwa [hdb.keeps.blocks]
  | live a => exact absurd rfl (ha a)

/-- **Every step keeps the live worker's invariant.** -/
theorem LiveInv.of_step {a : Action} (h : LiveInv s)
    (hstep : Sys.step chain chunkSize s a = some s') : LiveInv s' := by
  by_cases ha : ∃ b, a = .live b
  · obtain ⟨b, rfl⟩ := ha
    exact h.of_liveStep (Sys.liveStep_cases hstep)
  · obtain ⟨hcursor, hlive, hblocks⟩ :=
      Sys.step_same_of_not_live hstep fun b hb => ha ⟨b, hb⟩
    exact h.of_same hcursor hlive hblocks

/-- A live worker that has not run, over no cursor. -/
theorem LiveInv.start (hcursor : s.db.indexerCursor = none) (hlive : s.live = .off) :
    LiveInv s := by
  refine ⟨?_, ?_, ?_, ?_, ?_⟩
  · intro c hc
    rw [hcursor] at hc
    cases hc
  · intro _
    rw [hlive]
    rfl
  · intro x hx
    rw [hlive] at hx
    cases hx
  · intro l num head hl
    rw [hlive] at hl
    cases hl
  · intro x c hx
    rw [hlive] at hx
    cases hx

end AllfeatExplorer
