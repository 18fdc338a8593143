import AllfeatExplorer.Indexer.Helpers.Live

/-!
# The live cursor

Along any run in which the live worker starts on no cursor: the stored
cursor never moves back, it names no block above a finalized head the
worker observed, and a block is written whole or not at all. Whether it
leaves a hole turns on one step, a worker with no in-memory cursor
committing over a stored one (`Sys.reanchors`), which takes a first
commit that was reported failed.
-/

namespace AllfeatExplorer

variable {chain : Chain} {chunkSize : ℕ} {as : List Action} {s t u v : Sys}

/-- **The stored cursor never decreases** along the run. -/
def CursorNeverDecreases (chain : Chain) (chunkSize : ℕ) (s : Sys) (as : List Action) : Prop :=
  ∀ pre mid u v, pre ++ mid <+: as → run (Sys.step chain chunkSize) s pre = some u →
    run (Sys.step chain chunkSize) u mid = some v →
    ∀ c, u.db.indexerCursor = some c → ∃ c', v.db.indexerCursor = some c' ∧ c ≤ c'

/-- The live worker read `head` off the watch during the run. -/
def Observed (chain : Chain) (chunkSize : ℕ) (s : Sys) (as : List Action) (head : UInt64) :
    Prop :=
  ∃ pre u, pre ++ [.live .observe] <+: as ∧ run (Sys.step chain chunkSize) s pre = some u ∧
    u.published = some head

/-- **The cursor leaves no hole** along the run: with `first` the first
value stored, every block from there to the cursor is present. -/
def CursorLeavesNoHole (chain : Chain) (chunkSize : ℕ) (s : Sys) (as : List Action) : Prop :=
  ∀ pre a mid u v t first, pre ++ a :: mid <+: as →
    run (Sys.step chain chunkSize) s pre = some u → u.db.indexerCursor = none →
    Sys.step chain chunkSize u a = some v → v.db.indexerCursor = some first →
    run (Sys.step chain chunkSize) v mid = some t →
    ∃ c, t.db.indexerCursor = some c ∧
      ∀ k, first ≤ k → k ≤ c → t.db.blocks.contains k = true

/-- **A worker with no in-memory cursor commits over a stored one**, more
than a block past it. -/
def Sys.reanchors (s : Sys) (a : Action) : Bool :=
  match a, s.live, s.db.indexerCursor with
  | .live (.index faults), .indexing none num _, some c => faults.Through ∧ c + 1 < asI64 num
  | _, _, _ => false

/-! ## Up, and no higher than the chain -/

/-- A step moves the cursor up or not at all. -/
theorem cursor_le_of_step {a : Action} (hstep : Sys.step chain chunkSize s a = some t) {c : ℤ}
    (hc : s.db.indexerCursor = some c) : ∃ c', t.db.indexerCursor = some c' ∧ c ≤ c' := by
  by_cases ha : ∃ b, a = .live b
  · obtain ⟨b, rfl⟩ := ha
    have hlive := Sys.liveStep_cases (show Sys.liveStep chain s b = some t from hstep)
    cases hlive with
    | start | noHead | observe | crash => exact ⟨c, hc, le_rfl⟩
    | @indexed last num head faults db live hl hthrough hdb hnext =>
      simp only
      rw [hdb.cursor]
      rcases bumpCursor_cases s.db.indexerCursor num with ⟨hb, hlow⟩ | ⟨c', hc', hge, hb⟩
      · exact ⟨_, hb, (hlow c hc).le⟩
      · exact ⟨c', hb, (Option.some.inj (hc.symm.trans hc')).le⟩
    | notIndexed hl hdb =>
      simp only
      rw [hdb.keeps.cursor]
      exact ⟨c, hc, le_rfl⟩
  · obtain ⟨hcursor, -, -⟩ := Sys.step_same_of_not_live hstep fun b hb => ha ⟨b, hb⟩
    rw [hcursor]
    exact ⟨c, hc, le_rfl⟩

theorem cursorNeverDecreases_run : CursorNeverDecreases chain chunkSize s as := by
  intro pre mid u v _ _ hv c hc
  have hinv : ∃ c', v.db.indexerCursor = some c' ∧ c ≤ c' := by
    refine inv_run (I := fun x => ∃ c', x.db.indexerCursor = some c' ∧ c ≤ c') ?_
      ⟨c, hc, le_rfl⟩ hv
    rintro x a y ⟨c₁, hc₁, hle₁⟩ hxy
    obtain ⟨c₂, hc₂, hle₂⟩ := cursor_le_of_step hxy hc₁
    exact ⟨c₂, hc₂, hle₁.trans hle₂⟩
  exact hinv

theorem Observed.append {head : UInt64} (h : Observed chain chunkSize s as head)
    (a : Action) : Observed chain chunkSize s (as ++ [a]) head := by
  obtain ⟨pre, u, hpre, hu, hhead⟩ := h
  exact ⟨pre, u, hpre.trans (List.prefix_append as [a]), hu, hhead⟩

/-- What the run has observed bounds the cursor and the range the worker
is in. -/
structure ObservedInv (chain : Chain) (chunkSize : ℕ) (s : Sys) (as : List Action) (u : Sys) :
    Prop where
  cursor : ∀ c, u.db.indexerCursor = some c →
    ∃ head, Observed chain chunkSize s as head ∧ ∃ n ≤ head.toNat, c = asI64 n
  range : ∀ l num hd, u.live = .indexing l num hd →
    num ≤ hd ∧ ∃ head, Observed chain chunkSize s as head ∧ hd ≤ head.toNat

theorem ObservedInv.append {a : Action} (h : ObservedInv chain chunkSize s as u)
    (hcursor : v.db.indexerCursor = u.db.indexerCursor) (hlive : v.live = u.live) :
    ObservedInv chain chunkSize s (as ++ [a]) v := by
  constructor
  · intro c hc
    rw [hcursor] at hc
    obtain ⟨head, hobs, hn⟩ := h.cursor c hc
    exact ⟨head, hobs.append a, hn⟩
  · intro l num hd hl
    rw [hlive] at hl
    obtain ⟨hle, head, hobs, hhd⟩ := h.range l num hd hl
    exact ⟨hle, head, hobs.append a, hhd⟩

theorem ObservedInv.of_step {a : Action} (hu : run (Sys.step chain chunkSize) s as = some u)
    (h : ObservedInv chain chunkSize s as u)
    (hstep : Sys.step chain chunkSize u a = some v) :
    ObservedInv chain chunkSize s (as ++ [a]) v := by
  by_cases ha : ∃ b, a = .live b
  · obtain ⟨b, rfl⟩ := ha
    have hold : ObservedInv chain chunkSize s (as ++ [.live b]) u := h.append rfl rfl
    have hlive := Sys.liveStep_cases (show Sys.liveStep chain u b = some v from hstep)
    cases hlive with
    | start | crash => exact ⟨hold.cursor, nofun⟩
    | noHead => exact hold
    | @observe last head hl hhead =>
      refine ⟨hold.cursor, ?_⟩
      intro l num hd hcatch
      obtain ⟨rfl, rfl, rfl, hle⟩ := catchUp_eq_indexing hcatch
      exact ⟨hle, head, ⟨as, u, List.prefix_rfl, hu, hhead⟩, le_rfl⟩
    | @indexed last num hd faults db live hl hthrough hdb hnext =>
      obtain ⟨hle, head, hobs, hhd⟩ := hold.range last num hd hl
      constructor
      · intro c hc
        simp only at hc
        rw [hdb.cursor] at hc
        rcases bumpCursor_cases u.db.indexerCursor num with ⟨hb, -⟩ | ⟨c', hc', -, hb⟩
        · exact ⟨head, hobs, num, hle.trans hhd, Option.some.inj (hc.symm.trans hb)⟩
        · rw [hb] at hc
          exact hold.cursor c (hc'.trans hc)
      · intro l num' hd' hcatch
        rcases hnext with rfl | rfl
        · obtain ⟨rfl, rfl, rfl, hle'⟩ := catchUp_eq_indexing hcatch
          exact ⟨hle', head, hobs, hhd⟩
        · cases hcatch
    | notIndexed hl hdb =>
      refine ⟨?_, nofun⟩
      simp only
      rw [hdb.keeps.cursor]
      exact hold.cursor
  · obtain ⟨hcursor, hlive, -⟩ := Sys.step_same_of_not_live hstep fun b hb => ha ⟨b, hb⟩
    exact h.append hcursor hlive

theorem observedInv_run (hcursor : s.db.indexerCursor = none) (hlive : s.live = .off)
    (h : run (Sys.step chain chunkSize) s as = some t) : ObservedInv chain chunkSize s as t := by
  refine inv_run_history (P := fun as u => ObservedInv chain chunkSize s as u) ?_ ?_ h
  · constructor
    · intro c hc
      rw [hcursor] at hc
      cases hc
    · intro l num hd hl
      rw [hlive] at hl
      cases hl
  · exact fun pre u a v hu hinv hstep => hinv.of_step hu hstep

/-! ## No hole -/

/-- The blocks from `first` to the cursor are there. -/
def Contiguous (first : ℤ) (s : Sys) : Prop :=
  ∃ c, s.db.indexerCursor = some c ∧ ∀ k, first ≤ k → k ≤ c → s.db.blocks.contains k = true

theorem Contiguous.of_same {first : ℤ} (h : Contiguous first s)
    (hcursor : t.db.indexerCursor = s.db.indexerCursor)
    (hblocks : ∀ k, s.db.blocks.contains k = true → t.db.blocks.contains k = true) :
    Contiguous first t := by
  obtain ⟨c, hc, hall⟩ := h
  exact ⟨c, hcursor.trans hc, fun k hlo hhi => hblocks k (hall k hlo hhi)⟩

/-- **A commit leaves no hole** above the stored cursor: with an
in-memory cursor the blocks in between are there, and without one the
block is the next. -/
theorem Contiguous.of_indexed {first : ℤ} {l : Option ℕ} {num head : ℕ} {db : Db}
    {live : LiveWorker} (hinv : LiveInv s) (h : Contiguous first s)
    (hlive : s.live = .indexing l num head)
    (hdb : s.db.Indexed chain num (Sink.bumpCursor s.db.indexerCursor num) db)
    (hanchor : ∀ c, l = none → s.db.indexerCursor = some c → asI64 num ≤ c + 1) :
    Contiguous first { s with db, live } := by
  obtain ⟨c, hc, hall⟩ := h
  rcases bumpCursor_cases s.db.indexerCursor num with ⟨hb, hlow⟩ | ⟨c', hc', hge, hb⟩
  · have hlt := hlow c hc
    refine ⟨asI64 num, hdb.cursor.trans hb, ?_⟩
    intro k hlo hhi
    simp only
    rcases lt_trichotomy k (asI64 num) with hbelow | rfl | habove
    · rcases le_or_gt k c with hle | hgt
      · exact hdb.kept (hall k hlo hle)
      · -- Past the old cursor and below the block.
        cases l with
        | none =>
          have := hanchor c rfl hc
          omega
        | some x =>
          have hx := (hinv.range (some x) num head hlive).2.2 x rfl
          have hlast : s.live.last = some x := by rw [hlive]; rfl
          exact hdb.kept (hinv.ahead x c hlast hc k hgt (by omega))
    · exact hdb.there
    · omega
  · obtain rfl := Option.some.inj (hc.symm.trans hc')
    exact ⟨c, hdb.cursor.trans hb, fun k hlo hhi => hdb.kept (hall k hlo hhi)⟩

theorem le_of_not_reanchors {num head : ℕ} {c : ℤ} {faults : Faults}
    (hok : s.reanchors (.live (.index faults)) = false) (hthrough : faults.Through)
    (hlive : s.live = .indexing none num head) (hc : s.db.indexerCursor = some c) :
    asI64 num ≤ c + 1 := by
  simp only [Sys.reanchors, hlive, hc, hthrough, true_and, decide_eq_false_iff_not,
    not_lt] at hok
  exact hok

theorem Contiguous.of_step {first : ℤ} {a : Action} (hinv : LiveInv s) (h : Contiguous first s)
    (hok : s.reanchors a = false) (hstep : Sys.step chain chunkSize s a = some t) :
    Contiguous first t := by
  by_cases ha : ∃ b, a = .live b
  · obtain ⟨b, rfl⟩ := ha
    have hlive := Sys.liveStep_cases (show Sys.liveStep chain s b = some t from hstep)
    cases hlive with
    | start | noHead | observe | crash => exact h.of_same rfl fun _ hk => hk
    | indexed hl hthrough hdb hnext =>
      refine h.of_indexed hinv hl hdb ?_
      rintro c rfl hc
      exact le_of_not_reanchors hok hthrough hl hc
    | notIndexed hl hdb =>
      exact h.of_same hdb.keeps.cursor fun k hk => by rw [hdb.keeps.blocks]; exact hk
  · obtain ⟨hcursor, -, hblocks⟩ := Sys.step_same_of_not_live hstep fun b hb => ha ⟨b, hb⟩
    exact h.of_same hcursor hblocks

/-- The step that stores the first cursor stores the block with it. -/
theorem Contiguous.of_first {first : ℤ} {a : Action} (hnone : s.db.indexerCursor = none)
    (hstep : Sys.step chain chunkSize s a = some t) (hfirst : t.db.indexerCursor = some first) :
    Contiguous first t := by
  by_cases ha : ∃ b, a = .live b
  · obtain ⟨b, rfl⟩ := ha
    have hlive := Sys.liveStep_cases (show Sys.liveStep chain s b = some t from hstep)
    cases hlive with
    | start | noHead | observe | crash =>
      simp only [hnone] at hfirst
      cases hfirst
    | @indexed last num head faults db live hl hthrough hdb hnext =>
      refine ⟨first, hfirst, ?_⟩
      intro k hlo hhi
      have hbump : Sink.bumpCursor s.db.indexerCursor num = some (asI64 num) := by
        rw [hnone]
        rfl
      have hnum : asI64 num = first :=
        Option.some.inj (hbump.symm.trans (hdb.cursor.symm.trans hfirst))
      obtain rfl : k = asI64 num := by omega
      exact hdb.there
    | notIndexed hl hdb =>
      simp only [hdb.keeps.cursor, hnone] at hfirst
      cases hfirst
  · obtain ⟨hcursor, -, -⟩ := Sys.step_same_of_not_live hstep fun b hb => ha ⟨b, hb⟩
    rw [hcursor, hnone] at hfirst
    cases hfirst

theorem cursorLeavesNoHole_run (hcursor : s.db.indexerCursor = none) (hlive : s.live = .off)
    (h : run (Sys.step chain chunkSize) s as = some t)
    (hok : EveryStep (Sys.step chain chunkSize) (fun u a => u.reanchors a = false) s as) :
    CursorLeavesNoHole chain chunkSize s as := by
  intro pre a mid u v w first hinit hu hnone huv hfirst hw
  have hinvu : LiveInv u :=
    inv_run (fun _ _ _ hx hstep => hx.of_step hstep) (LiveInv.start hcursor hlive) hu
  have hmid : EveryStep (Sys.step chain chunkSize) (fun u a => u.reanchors a = false) v mid := by
    have hall := ((everyStep_append hu).1 (hok.earlier h hinit)).2
    exact ((everyStep_cons huv).1 hall).2
  have hend : LiveInv w ∧ Contiguous first w := by
    refine inv_run_of_every (I := fun x => LiveInv x ∧ Contiguous first x) ?_
      ⟨hinvu.of_step huv, Contiguous.of_first hnone huv hfirst⟩ hmid hw
    rintro x b y ⟨hx, hcont⟩ hb hxy
    exact ⟨hx.of_step hxy, hcont.of_step hx hb hxy⟩
  exact hend.2

/-! ## The result -/

/-- **The live cursor.** It never decreases and stays at or below an
observed head; a block is written whole or not at all; and it leaves no
hole if no worker without an in-memory cursor commits over a stored one
more than a block past it. -/
theorem live_cursor (hcursor : s.db.indexerCursor = none) (hlive : s.live = .off)
    (h : run (Sys.step chain chunkSize) s as = some t) :
    CursorNeverDecreases chain chunkSize s as ∧
    (∀ c, t.db.indexerCursor = some c →
      ∃ head, Observed chain chunkSize s as head ∧ asU64 c ≤ head.toNat) ∧
    (∀ num faults db db' res, Live.indexBlock chain num faults db = (db', res) →
      (∃ e, res = .error e) ∧ db.AuthorsOnly db' ∨
        faults.Through ∧ db.Indexed chain num (Sink.bumpCursor db.indexerCursor num) db') ∧
    (EveryStep (Sys.step chain chunkSize) (fun u a => u.reanchors a = false) s as →
      CursorLeavesNoHole chain chunkSize s as) := by
  refine ⟨cursorNeverDecreases_run, ?_, ?_, cursorLeavesNoHole_run hcursor hlive h⟩
  · intro c hc
    obtain ⟨head, hobs, n, hn, rfl⟩ := (observedInv_run hcursor hlive h).cursor c hc
    refine ⟨head, hobs, ?_⟩
    rw [asU64_asI64 (hn.trans (toNat_le_u64Max head))]
    exact hn
  · intro num faults db db' res hindex
    exact Live.indexBlock_cases hindex

/-- The live worker anchors at 10 and catches up to 12. -/
def followed : List Action :=
  [.publish 10, .live .start, .live .observe, .live (.index {}),
    .publish 12, .live .observe, .live (.index {}), .live (.index {})]

/-- Its cursor leaves no hole. -/
theorem live_cursor_followed :
    CursorLeavesNoHole bareChain 1 (Sys.start Db.empty) followed := by
  have hrun : (run (Sys.step bareChain 1) (Sys.start Db.empty) followed).isSome := by decide
  obtain ⟨t, ht⟩ := Option.isSome_iff_exists.mp hrun
  exact (live_cursor rfl rfl ht).2.2.2 (by decide)

/-- The live worker anchors at 10 in a commit that is reported failed,
and the next head it sees is 15. -/
def lostAck : List Action :=
  [.publish 10, .live .start, .live .observe, .live (.index { commit := .unacked }),
    .publish 15, .live .observe, .live (.index {})]

/-- **The cursor leaves a hole**: it stands at 15, the first value stored
was 10, and block 11 is missing. -/
theorem not_cursorLeavesNoHole_lostAck :
    (run (Sys.step bareChain 1) (Sys.start Db.empty) lostAck).isSome = true ∧
      ¬ CursorLeavesNoHole bareChain 1 (Sys.start Db.empty) lostAck := by
  refine ⟨by decide, ?_⟩
  intro hnohole
  have hbefore : (run (Sys.step bareChain 1) (Sys.start Db.empty) (lostAck.take 3)).map
      (fun u => u.db.indexerCursor) = some none := by decide
  obtain ⟨u, hu, hnone⟩ := Option.map_eq_some_iff.mp hbefore
  have hanchor : (run (Sys.step bareChain 1) (Sys.start Db.empty)
      (lostAck.take 3 ++ [.live (.index { commit := .unacked })])).map
      (fun v => v.db.indexerCursor) = some (some 10) := by decide
  obtain ⟨v, hv, hten⟩ := Option.map_eq_some_iff.mp hanchor
  have hend : (run (Sys.step bareChain 1) (Sys.start Db.empty)
      ((lostAck.take 3 ++ [.live (.index { commit := .unacked })]) ++ lostAck.drop 4)).map
      (fun w => (w.db.indexerCursor, w.db.blocks.contains 11)) = some (some 15, false) := by decide
  obtain ⟨w, hw, hhole⟩ := Option.map_eq_some_iff.mp hend
  obtain ⟨hfifteen, hmissing⟩ := Prod.mk.inj hhole
  rw [run_append, hv] at hw
  rw [run_append, hu, Option.bind_some, run_singleton] at hv
  obtain ⟨c, hc, hall⟩ := hnohole _ _ _ u v w 10 (by decide) hu hnone hv hten hw
  obtain rfl := Option.some.inj (hc.symm.trans hfifteen)
  have hthere := hall 11 (by decide) (by decide)
  rw [hmissing] at hthere
  cases hthere

end AllfeatExplorer
