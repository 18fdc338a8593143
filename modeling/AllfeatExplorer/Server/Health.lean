import AllfeatExplorer.Server.Model.Health
import Mathlib.Tactic.Linarith
import Mathlib.Tactic.Positivity

/-!
# What the indexer status tells

The share of the backfill is taken of the whole chain up to the finalized
head, so it is below 100 whenever the live cursor lags at all: the state
is `Backfilling` just if fewer rows than the head's number and one are
stored (`state_eq_backfilling_iff`). From this the inputs on which the
status tells the truth are read off.
-/

namespace AllfeatExplorer

namespace Health

variable {done total : ℕ} {lag : Option ℕ} {age : Option ℤ} {pct : ℚ}

/-- **The share is below 100** just if something is missing. -/
theorem backfillPct_lt_iff : backfillPct done total < 100 ↔ done < total := by
  unfold backfillPct
  by_cases htotal : total = 0
  · rw [if_pos htotal, htotal]
    simp
  · have hpos : (0 : ℚ) < total := by exact_mod_cast Nat.pos_of_ne_zero htotal
    rw [if_neg htotal, max_lt_iff, min_lt_iff]
    have hshare : (done / total * 100 : ℚ) < 100 ↔ done < total := by
      rw [div_mul_eq_mul_div, div_lt_iff₀ hpos]
      constructor
      · intro h
        have : (done : ℚ) < total := by linarith
        exact_mod_cast this
      · intro h
        have : (done : ℚ) < total := by exact_mod_cast h
        linarith
    simp [hshare]

/-- The cursor is stale. -/
def Stale (age : Option ℤ) : Prop := ∃ a, age = some a ∧ offlineCursorAgeSeconds < a

theorem any_stale : (age.any fun a => decide (offlineCursorAgeSeconds < a)) = true ↔ Stale age := by
  cases age <;> simp [Stale]

/-- **Backfilling** is a share below 100 under a cursor that is not
stale. -/
theorem deriveState_eq_backfilling_iff :
    deriveState lag age pct = .backfilling ↔ ¬ Stale age ∧ pct < 100 := by
  rw [← any_stale]
  unfold deriveState
  split
  · next h => simp [h]
  · next h =>
    split
    · next hp => simp [h, hp]
    · next hp => split <;> simp [hp]

/-- Otherwise the lag decides. -/
theorem deriveState_of_done (hage : ¬ Stale age) (hpct : ¬ pct < 100) {n : ℕ} :
    deriveState (some n) age pct = if n ≤ healthyLagBlocks then .healthy else .catchingUp := by
  rw [← any_stale] at hage
  rw [deriveState, if_neg hage, if_neg hpct, Option.any_some]
  by_cases hn : n ≤ healthyLagBlocks
  · rw [if_pos hn, if_neg (by simpa using hn)]
  · rw [if_neg hn, if_pos (by simpa using hn)]

end Health

open Health

variable {db : Db} {age : ℤ} {head : Option ℕ} {i : ℕ}

/-- The database has exactly the blocks up to `i`. -/
def Db.HoldsUpTo (db : Db) (i : ℕ) : Prop :=
  ∀ n : ℤ, n ∈ db.blocks.keys ↔ 0 ≤ n ∧ n ≤ i

/-- A block below the greatest indexed number is missing. -/
def Db.HasGap (db : Db) : Prop :=
  ∃ n : ℕ, (n : ℤ) ∉ db.blocks.keys ∧ ∃ m ∈ db.blocks.keys, (n : ℤ) < m

theorem Db.HoldsUpTo.not_hasGap (h : db.HoldsUpTo i) : ¬ db.HasGap := by
  rintro ⟨n, hn, m, hm, hnm⟩
  have hmi := ((h m).1 hm).2
  exact hn ((h n).2 ⟨by omega, by omega⟩)

namespace Health

/-- The state `collect_status_from` computes for a database. -/
def stateOf (net : String) (head : Option ℕ) (db : Db) (age : ℤ) : IndexerState :=
  (collectStatusFrom net head (some (db.readings age))).state

/-- The age the database reports. -/
def cursorAge (db : Db) (age : ℤ) : Option ℤ := db.indexerCursor.map fun _ => age

/-- **When the state is `Backfilling`**: fewer rows than the head's number
and one. -/
theorem stateOf_eq_backfilling_iff {net : String} :
    stateOf net head db age = .backfilling ↔
      ¬ Stale (cursorAge db age) ∧ ∃ f, head = some f ∧ db.blocks.rows.length < satAddU64 f 1 := by
  have htotal : db.blocks.rows.length < (head.map fun h => satAddU64 h 1).getD 0 ↔
      ∃ f, head = some f ∧ db.blocks.rows.length < satAddU64 f 1 := by
    cases head <;> simp
  rw [← htotal, ← backfillPct_lt_iff]
  exact deriveState_eq_backfilling_iff

/-- **The status tells the truth**: on a database without a gap and with a
fresh cursor at its end it says how the lag is, and it says `Backfilling`
only if there is a gap. -/
structure Truthful (net : String) (head : Option ℕ) (db : Db) (age : ℤ) : Prop where
  live : ∀ i f, db.HoldsUpTo i → db.indexerCursor = some (i : ℤ) → age ≤ offlineCursorAgeSeconds →
    head = some f → i ≤ f →
      stateOf net head db age = if f - i ≤ healthyLagBlocks then .healthy else .catchingUp
  backfilling : stateOf net head db age = .backfilling → db.HasGap

/-- **When it does.** Just if the cursor is stale, no head is known, there
is a gap, or all blocks up to the head are stored. -/
theorem truthful_iff (net : String) (head : Option ℕ) (db : Db) (age : ℤ)
    (hhead : ∀ f, head = some f → f ≤ u64Max) :
    Truthful net head db age ↔ (db.indexerCursor.isSome ∧ offlineCursorAgeSeconds < age) ∨
      head = none ∨ (∃ f, head = some f ∧ satAddU64 f 1 ≤ db.blocks.rows.length) ∨ db.HasGap := by
  have hstale : Stale (cursorAge db age) ↔
      db.indexerCursor.isSome ∧ offlineCursorAgeSeconds < age := by
    unfold Stale cursorAge
    cases db.indexerCursor <;> simp
  rw [← hstale]
  constructor
  · intro htruth
    by_cases hback : stateOf net head db age = .backfilling
    · exact .inr (.inr (.inr (htruth.backfilling hback)))
    · rw [stateOf_eq_backfilling_iff, not_and_or, not_not] at hback
      rcases hback with hs | hdone
      · exact .inl hs
      · rcases head with - | f
        · exact .inr (.inl rfl)
        · exact .inr (.inr (.inl ⟨f, rfl, Nat.not_lt.1 fun hlt => hdone ⟨f, rfl, hlt⟩⟩))
  · intro hcases
    refine ⟨fun i f hup hcursor hage hf hif => ?_, fun hback => ?_⟩
    · subst hf
      have hns : ¬ Stale (cursorAge db age) := by
        rw [hstale]
        exact fun h => absurd h.2 (Int.not_lt.2 hage)
      have hdone : satAddU64 f 1 ≤ db.blocks.rows.length := by
        rcases hcases with hs | hnone | ⟨f', hf', hle⟩ | hgap
        · exact absurd hs hns
        · exact absurd hnone (by simp)
        · rwa [Option.some.inj hf']
        · exact absurd hgap hup.not_hasGap
      have hpct : ¬ backfillPct db.blocks.rows.length (satAddU64 f 1) < 100 := by
        rw [backfillPct_lt_iff]
        exact Nat.not_lt.2 hdone
      have hi : asU64 (i : ℤ) = i := by
        have := hhead f rfl
        simp only [u64Max] at this
        unfold asU64
        omega
      have hlag : stateOf net (some f) db age = deriveState (some (f - asU64 (i : ℤ)))
          (cursorAge db age) (backfillPct db.blocks.rows.length (satAddU64 f 1)) := by
        unfold stateOf collectStatusFrom Db.readings cursorAge
        rw [hcursor]
        rfl
      rw [hlag, hi, deriveState_of_done hns hpct]
    · obtain ⟨hns, f, rfl, hlt⟩ := stateOf_eq_backfilling_iff.1 hback
      rcases hcases with hs | hnone | ⟨f', hf', hle⟩ | hgap
      · exact absurd hs hns
      · exact absurd hnone (by simp)
      · rw [Option.some.inj hf'] at hlt
        omega
      · exact hgap

/-- A database with some blocks, and its cursor. -/
def storedDb (nums : List ℤ) (cursor : ℤ) : Db :=
  { Db.empty with
    blocks := Table.empty.insertAll (nums.map fun n => (n,
      { hash := .fill 0
        parentHash := .fill 0
        stateRoot := .fill 0
        extrinsicsRoot := .fill 0
        authorId := none
        timestampMs := 0
        specVersion := 1
        extrinsicCount := 0
        eventCount := 0
        refTime := 0
        proofSize := 0
        refTimePct := 0
        sizeBytes := 0 }))
    indexerCursor := some cursor }

/-- The blocks up to 2, and a database that lacks some. -/
def wholeDb : Db := storedDb [0, 1, 2] 2
def gapDb : Db := storedDb [0, 1, 3, 7] 7

theorem wholeDb_holdsUpTo : wholeDb.HoldsUpTo 2 := by
  intro n
  have hkeys : wholeDb.blocks.keys = [0, 1, 2] := rfl
  rw [hkeys]
  simp only [List.mem_cons, List.not_mem_nil, or_false]
  omega

theorem gapDb_hasGap : gapDb.HasGap := ⟨2, by decide, 7, by decide, by decide⟩

/-- At the head, and where blocks are missing, the status tells the
truth. -/
theorem truthful_iff_whole_gap :
    Truthful "allfeat" (some 2) wholeDb 5 ∧ Truthful "allfeat" (some 9) gapDb 5 := by
  constructor
  · refine (truthful_iff "allfeat" (some 2) wholeDb 5 fun f hf => ?_).2
      (.inr (.inr (.inl ⟨2, rfl, by decide⟩)))
    rw [← Option.some.inj hf]
    decide
  · refine (truthful_iff "allfeat" (some 9) gapDb 5 fun f hf => ?_).2
      (.inr (.inr (.inr gapDb_hasGap)))
    rw [← Option.some.inj hf]
    decide

/-- **One block behind the head is called a backfill**, with nothing
missing below it. -/
theorem not_truthful_behind : ¬ ∀ net head db age, (∀ f, head = some f → f ≤ u64Max) →
    Truthful net head db age := by
  intro hall
  have htruth := hall "allfeat" (some 3) wholeDb 5 fun f hf => by
    rw [← Option.some.inj hf]
    decide
  have hback : stateOf "allfeat" (some 3) wholeDb 5 = .backfilling := by
    refine stateOf_eq_backfilling_iff.2 ⟨?_, 3, rfl, by decide⟩
    rintro ⟨a, ha, hlt⟩
    rw [← Option.some.inj ha] at hlt
    exact absurd hlt (by decide)
  exact wholeDb_holdsUpTo.not_hasGap (htruth.backfilling hback)

end Health

end AllfeatExplorer
