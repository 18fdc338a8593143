import AllfeatExplorer.Indexer.Ats
import AllfeatExplorer.Data.Model.Lists

/-!
# The version counter

`version_count` is kept by `GREATEST` in one table, the versions it
counts are rows of another. Whatever blocks of a valid history are
applied, in any order and again, and whichever are refused, the count
stays one past the greatest version stored; but both columns are `INT`,
so the count of version `i32::MAX` wraps, and the row that version
belongs to is left behind.
-/

namespace AllfeatExplorer

open Projections Queries

/-! ## The counter -/

/-- **The counter matches the rows**: a registry row has its version 0,
a version row its registry row, the count is one past the greatest
version stored, and of its versions the feed shows one as the latest. -/
structure CountsMatch (t : AtsTables) : Prop where
  initial : ∀ k row, t.parents.find k = some row → t.children.contains (toLex (k, 0)) = true
  registered : ∀ k', t.children.contains k' = true → t.parents.contains (ofLex k').1 = true
  greatest : ∀ k row, t.parents.find k = some row →
    IsGreatest {v : ℤ | t.children.contains (toLex (k, v)) = true} (row.versionCount - 1)
  latest : ∀ (net : Network) (db : Db), db.ats = t → ∀ k row, t.parents.find k = some row →
    ∃ v e r, t.children.find (toLex (k, v)) = some e ∧ feedRow db (toLex (k, v), e) = some r ∧
      (feedRowToItem net r).isLatest = true

variable {h : AtsHistory} {t t' : AtsTables} {b : ℕ} {x : UInt64} {v : UInt32} {k : ℤ}
  {attempts pre : List ℕ} {row : AtsRegistryEntry}

/-- The foreign key is the tables' own, and the greatest version is one
the reader takes for the latest. -/
theorem CountsMatch.of_greatest
    (hinitial : ∀ k row, t.parents.find k = some row → t.children.contains (toLex (k, 0)) = true)
    (hgreatest : ∀ k row, t.parents.find k = some row →
      IsGreatest {v : ℤ | t.children.contains (toLex (k, v)) = true} (row.versionCount - 1)) :
    CountsMatch t where
  initial := hinitial
  registered := t.fk
  greatest := hgreatest
  latest := by
    rintro net db rfl k row hrow
    obtain ⟨hstored, hbound⟩ := hgreatest k row hrow
    have hpos : 0 ≤ row.versionCount - 1 := hbound (hinitial k row hrow)
    obtain ⟨e, he⟩ := Table.contains_eq_true_iff.mp hstored
    have hjoin : (feedRow db (toLex (k, row.versionCount - 1), e)).isSome = true := by
      rw [feedRow, ofLex_toLex, hrow]
      rfl
    obtain ⟨r, hr⟩ := Option.isSome_iff_exists.mp hjoin
    refine ⟨row.versionCount - 1, e, r, he, hr, ?_⟩
    rw [feedRow, ofLex_toLex, hrow] at hr
    obtain rfl := Option.some.inj hr
    simp only [feedRowToItem, decide_eq_true_eq]
    omega

theorem CountsMatch.empty : CountsMatch .empty :=
  .of_greatest (fun _ _ hrow => by cases hrow) (fun _ _ hrow => by cases hrow)

/-! ## One block -/

namespace AtsHistory

/-- Block `b` adds version `v` to id `x`. -/
def Adds (h : AtsHistory) (b : ℕ) (x : UInt64) (v : UInt32) : Prop :=
  ∃ p ∈ h.block b, p.2.atsId = x ∧ p.2.version = some v

instance : Decidable (h.Adds b x v) := inferInstanceAs (Decidable (∃ p ∈ h.block b, _))

/-- **The versions a block stores** under the id's key. -/
theorem mem_versionKeys_iff {v : ℤ} :
    toLex (atsKey x, v) ∈ (h.ops b).versionRows.map Prod.fst ↔
      ∃ w, h.Adds b x w ∧ v = asI32 w.toNat := by
  rw [List.mem_map]
  constructor
  · rintro ⟨⟨k', e⟩, hrow, hk⟩
    obtain ⟨p, hp, w, hw, hkey, -⟩ := mem_versionRows_iff.mp hrow
    obtain ⟨hid, hv⟩ := Prod.mk.inj (toLex_inj.mp (hk.symm.trans hkey))
    exact ⟨w, ⟨p, hp, (asI64_toNat_inj.mp hid).symm, hw⟩, hv⟩
  · rintro ⟨w, ⟨p, hp, rfl, hw⟩, rfl⟩
    obtain ⟨e, he⟩ := exists_versionRow hp hw
    exact ⟨_, he, rfl⟩

/-- The key of a version row is an id's. -/
theorem exists_id_of_versionKey {v : ℤ}
    (hk : toLex (k, v) ∈ (h.ops b).versionRows.map Prod.fst) : ∃ x, k = atsKey x := by
  obtain ⟨⟨k', e⟩, hrow, hkey⟩ := List.mem_map.mp hk
  obtain ⟨p, -, w, -, hkey', -⟩ := mem_versionRows_iff.mp hrow
  exact ⟨p.2.atsId, (Prod.mk.inj (toLex_inj.mp (hkey.symm.trans hkey'))).1⟩

/-- **The counts a block raises a row to**: one past each version it
adds, as `INT`. -/
theorem mem_countsAt {m : ℤ} (hm : m ∈ (h.ops b).countsAt (atsKey x)) :
    ∃ w, h.Adds b x w ∧ m = asI32 (satAddU32 w.toNat 1) := by
  rw [countsAt_ops, List.mem_flatMap] at hm
  obtain ⟨⟨extIdx, evt⟩, hp, hm⟩ := hm
  cases evt with
  | updated id w commitment pv =>
    simp only [AtsOps.push, AtsOps.countsAt, List.nil_append, List.mem_map, List.mem_filter,
      List.mem_singleton, decide_eq_true_eq] at hm
    obtain ⟨bump, ⟨rfl, hk⟩, rfl⟩ := hm
    exact ⟨w, ⟨_, hp, asI64_toNat_inj.mp hk, rfl⟩, rfl⟩
  | created | revoked => simp [AtsOps.push, AtsOps.countsAt] at hm

/-- A version past 0 comes with its count. -/
theorem count_mem_countsAt {w : UInt32} (hw : h.Adds b x w) :
    w = 0 ∨ asI32 (satAddU32 w.toNat 1) ∈ (h.ops b).countsAt (atsKey x) := by
  obtain ⟨⟨extIdx, evt⟩, hp, rfl, hversion⟩ := hw
  cases evt with
  | created id owner commitment pv => exact .inl (Option.some.inj hversion).symm
  | updated id w' commitment pv =>
    obtain rfl := Option.some.inj hversion
    right
    rw [countsAt_ops, List.mem_flatMap]
    refine ⟨_, hp, ?_⟩
    simp [AtsOps.push, AtsOps.countsAt, atsKey, DecodedAtsEvent.atsId]
  | revoked id => cases hversion

/-- A row the block creates starts at count 1, with version 0. -/
theorem registryRow_initial (hrow : (k, row) ∈ (h.ops b).registryRows) :
    row.versionCount = 1 ∧ toLex (k, 0) ∈ (h.ops b).versionRows.map Prod.fst := by
  rw [registryRows_ops, List.mem_flatMap] at hrow
  obtain ⟨⟨extIdx, evt⟩, hp, hrow⟩ := hrow
  cases evt with
  | created id owner commitment pv =>
    obtain ⟨rfl, rfl⟩ := Prod.mk.inj (List.mem_singleton.mp hrow)
    exact ⟨rfl, mem_versionKeys_iff.mpr ⟨0, ⟨_, hp, rfl, rfl⟩, rfl⟩⟩
  | updated | revoked => simp [AtsOps.push, AtsOps.registryRows] at hrow

theorem mem_revokedKeys_atsKey_iff : atsKey x ∈ (h.ops b).revokedKeys ↔ h.Revokes b x := by
  rw [mem_revokedKeys_iff]
  constructor
  · rintro ⟨y, hy, hkey⟩
    rwa [asI64_toNat_inj.mp hkey]
  · exact fun hx => ⟨x, hx, rfl⟩

/-- **What is stored** under a key the block does not revoke. -/
theorem stored_apply (hb : h.apply t b = .ok t') (hk : k ∉ (h.ops b).revokedKeys) {v : ℤ} :
    t'.children.contains (toLex (k, v)) = true ↔
      t.children.contains (toLex (k, v)) = true ∨
        toLex (k, v) ∈ (h.ops b).versionRows.map Prod.fst := by
  rw [Table.contains, (applyAts_ok hb).versions, ofLex_toLex, if_neg hk, Option.isSome_or,
    Bool.or_eq_true, Table.firstOffered_isSome_iff, Table.contains]

end AtsHistory

/-! ## The greatest of the counts -/

theorem le_foldl_max (m : ℤ) (ms : List ℤ) :
    m ≤ ms.foldl max m ∧ ∀ m' ∈ ms, m' ≤ ms.foldl max m := by
  have hgreatest := AtsHistory.isGreatest_foldl_max (isGreatest_singleton (a := m)) ms
  exact ⟨hgreatest.2 (.inl rfl), fun m' hm' => hgreatest.2 (.inr hm')⟩

theorem foldl_max_eq_or_mem (m : ℤ) (ms : List ℤ) : ms.foldl max m = m ∨ ms.foldl max m ∈ ms := by
  have hgreatest := AtsHistory.isGreatest_foldl_max (isGreatest_singleton (a := m)) ms
  exact hgreatest.1

/-- **One past a version, as `INT`**: wrapped at `i32::MAX`, saturated at
`u32::MAX`, and exact everywhere else. -/
theorem asI32_succ {n : ℕ} (hn : n ≤ u32Max) (hmax : n ≠ i32Max) :
    asI32 (satAddU32 n 1) = asI32 n + 1 ∨
      asI32 (satAddU32 n 1) = -1 ∧ asI32 n = -1 := by
  by_cases hlast : n = u32Max
  · subst hlast
    exact .inr (by decide)
  · have hsum : satAddU32 n 1 = n + 1 := min_eq_left (by omega)
    rw [hsum]
    left
    simp only [asI32, u32Max, i32Max] at *
    split <;> split <;> omega

/-! ## Every block -/

namespace AtsHistory

/-- **A block keeps the counter**, if the ids it gives version
`i32::MAX` to are ids it revokes. -/
theorem countsMatch_apply (ht : CountsMatch t) (hb : h.apply t b = .ok t')
    (hmax : ∀ x w, h.Adds b x w → w.toNat = i32Max → h.Revokes b x) : CountsMatch t' := by
  have hrow : ∀ k row', t'.parents.find k = some row' →
      t'.children.contains (toLex (k, 0)) = true ∧
        IsGreatest {v : ℤ | t'.children.contains (toLex (k, v)) = true}
          (row'.versionCount - 1) := by
    intro k row' hfind
    rw [(applyAts_ok hb).registry] at hfind
    by_cases hk : k ∈ (h.ops b).revokedKeys
    · rw [if_pos hk] at hfind
      cases hfind
    rw [if_neg hk] at hfind
    obtain ⟨row₀, hrow₀, rfl⟩ := Option.map_eq_some_iff.mp hfind
    -- The row before the bumps: an old one, or the block's own with nothing stored under it.
    have hold : t'.children.contains (toLex (k, 0)) = true ∧
        t'.children.contains (toLex (k, row₀.versionCount - 1)) = true ∧
        1 ≤ row₀.versionCount ∧
        ∀ v : ℤ, t.children.contains (toLex (k, v)) = true → v ≤ row₀.versionCount - 1 := by
      cases hthere : t.parents.find k with
      | some row₁ =>
        rw [hthere, Option.some_or] at hrow₀
        obtain rfl := Option.some.inj hrow₀
        have hinitial := ht.initial k row₁ hthere
        obtain ⟨hcount, hbound⟩ := ht.greatest k row₁ hthere
        have hpos : 0 ≤ row₁.versionCount - 1 := hbound hinitial
        exact ⟨(stored_apply hb hk).mpr (.inl hinitial), (stored_apply hb hk).mpr (.inl hcount),
          by omega, fun v hv => hbound hv⟩
      | none =>
        rw [hthere, Option.none_or] at hrow₀
        obtain ⟨hone, hzero⟩ := registryRow_initial (Table.mem_of_firstOffered hrow₀)
        have hstored := (stored_apply hb hk).mpr (.inr hzero)
        rw [hone]
        refine ⟨hstored, hstored, le_rfl, fun v hv => ?_⟩
        have hregistered := t.fk _ hv
        rw [Table.contains, ofLex_toLex, hthere] at hregistered
        cases hregistered
    obtain ⟨hinitial, hcount, hpos, hbound⟩ := hold
    obtain ⟨hle, hcounts⟩ := le_foldl_max row₀.versionCount ((h.ops b).countsAt k)
    refine ⟨hinitial, ?_, ?_⟩
    · change t'.children.contains (toLex
        (k, ((h.ops b).countsAt k).foldl max row₀.versionCount - 1)) = true
      rcases foldl_max_eq_or_mem row₀.versionCount ((h.ops b).countsAt k) with heq | hmem
      · rw [heq]
        exact hcount
      · -- A count of the block is the greatest: the version it counts is stored.
        obtain ⟨k', e, hkey, he⟩ := exists_versionRow_of_count hmem
        obtain ⟨p, -, w₀, -, rfl, -⟩ := mem_versionRows_iff.mp he
        obtain rfl : atsKey p.2.atsId = k := hkey
        obtain ⟨w, hw, hcw⟩ := mem_countsAt hmem
        have hne : w.toNat ≠ i32Max := fun heq =>
          hk (mem_revokedKeys_atsKey_iff.mpr (hmax _ w hw heq))
        have hsucc : asI32 (satAddU32 w.toNat 1) = asI32 w.toNat + 1 := by
          rcases asI32_succ (toNat_le_u32Max w) hne with hsucc | ⟨hneg, -⟩
          · exact hsucc
          · omega
        rw [hcw, hsucc, add_sub_cancel_right]
        exact (stored_apply hb hk).mpr (.inr (mem_versionKeys_iff.mpr ⟨w, hw, rfl⟩))
    · intro v hv
      change v ≤ ((h.ops b).countsAt k).foldl max row₀.versionCount - 1
      rcases (stored_apply hb hk).mp hv with hv | hv
      · have hvle := hbound v hv
        omega
      · obtain ⟨x, rfl⟩ := exists_id_of_versionKey hv
        obtain ⟨w, hw, rfl⟩ := mem_versionKeys_iff.mp hv
        rcases count_mem_countsAt hw with rfl | hmem
        · have hzero : asI32 (0 : UInt32).toNat = 0 := by decide
          rw [hzero]
          omega
        · have hcle := hcounts _ hmem
          have hne : w.toNat ≠ i32Max := fun heq =>
            hk (mem_revokedKeys_atsKey_iff.mpr (hmax x w hw heq))
          rcases asI32_succ (toNat_le_u32Max w) hne with hsucc | ⟨-, hneg⟩ <;> omega
  exact .of_greatest (fun k row hfind => (hrow k row hfind).1)
    fun k row hfind => (hrow k row hfind).2

/-- Every count is an `INT`. -/
def CountsFit (t : AtsTables) : Prop :=
  ∀ k row, t.parents.find k = some row → row.versionCount ≤ i32Max

theorem countsFit_apply (ht : CountsFit t) (hb : h.apply t b = .ok t') : CountsFit t' := by
  intro k row' hfind
  rw [(applyAts_ok hb).registry] at hfind
  split at hfind
  · cases hfind
  · obtain ⟨row₀, hrow₀, rfl⟩ := Option.map_eq_some_iff.mp hfind
    change ((h.ops b).countsAt k).foldl max row₀.versionCount ≤ i32Max
    rcases foldl_max_eq_or_mem row₀.versionCount ((h.ops b).countsAt k) with heq | hmem
    · rw [heq]
      cases hthere : t.parents.find k with
      | some row₁ =>
        rw [hthere, Option.some_or] at hrow₀
        exact Option.some.inj hrow₀ ▸ ht k row₁ hthere
      | none =>
        rw [hthere, Option.none_or] at hrow₀
        rw [(registryRow_initial (Table.mem_of_firstOffered hrow₀)).1]
        decide
    · obtain ⟨bump, -, hcount⟩ := List.mem_map.mp hmem
      rw [← hcount]
      exact asI32_le_max _

/-! ## Every attempt -/

theorem attempt_cases (h : AtsHistory) (t : AtsTables) (b : ℕ) :
    (h.apply t b = .ok (h.attempt t b)) ∨
      (h.attempt t b = t ∧ ∃ e, h.apply t b = .error e) := by
  unfold attempt
  cases hb : h.apply t b with
  | ok t' => exact .inl rfl
  | error e => exact .inr ⟨rfl, e, rfl⟩

theorem countsFit_attemptAll (attempts : List ℕ) : CountsFit (h.attemptAll attempts) := by
  induction attempts using List.reverseRecOn with
  | nil => exact fun _ _ hrow => by cases hrow
  | append_singleton pre b ih =>
    rw [attemptAll, List.foldl_append, List.foldl_cons, List.foldl_nil]
    rcases h.attempt_cases (pre.foldl h.attempt .empty) b with hok | ⟨hsame, -⟩
    · exact countsFit_apply ih hok
    · rw [hsame]
      exact ih

/-- **The attempts that go through**, with one more. -/
theorem committedFrom_append (t : AtsTables) (pre more : List ℕ) :
    h.committedFrom t (pre ++ more) =
      h.committedFrom t pre ++ h.committedFrom (pre.foldl h.attempt t) more := by
  induction pre generalizing t with
  | nil => rfl
  | cons b pre ih =>
    rw [List.cons_append, committedFrom, committedFrom, List.foldl_cons, attempt]
    cases h.apply t b with
    | ok t' => exact congrArg (b :: ·) (ih t')
    | error e => exact ih t

theorem mem_committed_iff :
    b ∈ h.committed attempts ↔
      ∃ pre, pre ++ [b] <+: attempts ∧ ∃ t', h.apply (h.attemptAll pre) b = .ok t' := by
  have hone : ∀ t, b ∈ h.committedFrom t [b] ↔ ∃ t', h.apply t b = .ok t' := by
    intro t
    rw [committedFrom]
    cases h.apply t b with
    | ok t' => simp
    | error e => simp [committedFrom]
  constructor
  · intro hb
    induction attempts using List.reverseRecOn with
    | nil => cases hb
    | append_singleton pre c ih =>
      rw [committed, committedFrom_append] at hb
      rcases List.mem_append.mp hb with hb | hb
      · obtain ⟨pre', hpre', hgoes⟩ := ih hb
        exact ⟨pre', hpre'.trans (List.prefix_append _ _), hgoes⟩
      · have hbc : b = c := by
          rw [committedFrom] at hb
          cases hc : h.apply (pre.foldl h.attempt .empty) c with
          | ok t' =>
            rw [hc] at hb
            simpa [committedFrom] using hb
          | error e =>
            rw [hc] at hb
            cases hb
        subst hbc
        exact ⟨pre, List.prefix_rfl, (hone _).mp hb⟩
  · rintro ⟨pre, ⟨more, rfl⟩, hgoes⟩
    rw [committed, committedFrom_append, committedFrom_append]
    refine List.mem_append_left _ (List.mem_append_right _ ((hone _).mpr hgoes))

/-- **A block that stores version `i32::MAX`** leaves a row whose count is
not one past it. -/
theorem not_countsMatch_apply (hb : h.apply (h.attemptAll pre) b = .ok t')
    (hw : h.Adds b x v) (hmax : v.toNat = i32Max) (hkept : ¬ h.Revokes b x) : ¬ CountsMatch t' := by
  intro hmatch
  have hk : atsKey x ∉ (h.ops b).revokedKeys := fun hr => hkept (mem_revokedKeys_atsKey_iff.mp hr)
  have hstored : t'.children.contains (toLex (atsKey x, asI32 v.toNat)) = true :=
    (stored_apply hb hk).mpr (.inr (mem_versionKeys_iff.mpr ⟨v, hw, rfl⟩))
  obtain ⟨row, hrow⟩ := Table.contains_eq_true_iff.mp (hmatch.registered _ hstored)
  have hle : asI32 v.toNat ≤ row.versionCount - 1 := (hmatch.greatest _ row hrow).2 hstored
  have hfit : row.versionCount ≤ i32Max := countsFit_apply (countsFit_attemptAll pre) hb _ row hrow
  rw [hmax, asI32_of_le le_rfl] at hle
  omega

end AtsHistory

open AtsHistory

/-- **In every state of a run the counter matches the rows, exactly when
no block that goes through leaves an id with version `i32::MAX`.** -/
theorem versionCounts_match_iff (h : AtsHistory) (attempts : List ℕ) :
    (∀ pre, pre <+: attempts → CountsMatch (h.attemptAll pre)) ↔
      ∀ b ∈ h.committed attempts, ∀ x v, h.Adds b x v → v.toNat = i32Max → h.Revokes b x := by
  constructor
  · intro hall b hb x v hw hmax
    obtain ⟨pre, hpre, t', hgoes⟩ := mem_committed_iff.mp hb
    by_contra hkept
    have hmatch := hall (pre ++ [b]) hpre
    rw [attemptAll, List.foldl_append, List.foldl_cons, List.foldl_nil] at hmatch
    have hstep : h.attempt (pre.foldl h.attempt .empty) b = t' := by
      rw [attempt, show h.apply (pre.foldl h.attempt .empty) b = .ok t' from hgoes]
    rw [hstep] at hmatch
    exact not_countsMatch_apply hgoes hw hmax hkept hmatch
  · intro hok pre
    induction pre using List.reverseRecOn with
    | nil => exact fun _ => .empty
    | append_singleton pre b ih =>
      intro hpre
      have hbefore := ih ((List.prefix_append pre [b]).trans hpre)
      rw [attemptAll, List.foldl_append, List.foldl_cons, List.foldl_nil]
      rcases h.attempt_cases (pre.foldl h.attempt .empty) b with hgoes | ⟨hsame, -⟩
      · exact countsMatch_apply hbefore hgoes
          (hok b (mem_committed_iff.mpr ⟨pre, hpre, _, hgoes⟩))
      · rw [hsame]
        exact hbefore

/-! ## Two billion updates -/

namespace AtsHistory

/-- The update of id 7 that adds version `v`. -/
def updateOf (v : ℕ) : DecodedAtsEvent := .updated 7 (UInt32.ofNat v) (.fill 3) 0

/-- Id 7 is created in block 0 and updated in each of the next `n`. -/
def updatedTimes (n : ℕ) : AtsHistory :=
  [(0, .created 7 (.fill 1) (.fill 2) 0)] ::
    (List.range' 1 n).map fun v => [(0, updateOf v)]

theorem timeline_singletons (e : ℕ → DecodedAtsEvent) (vs : List ℕ) (i : ℕ) :
    ((vs.map fun v => [(0, e v)]).zipIdx i).flatMap
        (fun (evs, b) => evs.map fun p : ℕ × DecodedAtsEvent => (b, p)) =
      (vs.zipIdx i).map fun (v, b) => (b, 0, e v) := by
  induction vs generalizing i with
  | nil => rfl
  | cons v vs ih =>
    rw [List.map_cons, List.zipIdx_cons, List.zipIdx_cons, List.flatMap_cons, List.map_cons,
      ih (i + 1)]
    rfl

theorem eventsOf_updatedTimes (n : ℕ) (x : UInt64) :
    (updatedTimes n).eventsOf x =
      if x = 7 then .created 7 (.fill 1) (.fill 2) 0 :: (List.range' 1 n).map updateOf else [] := by
  have hevents : (updatedTimes n).timeline.map (fun p => p.2.2) =
      .created 7 (.fill 1) (.fill 2) 0 :: (List.range' 1 n).map updateOf := by
    rw [timeline, updatedTimes, List.zipIdx_cons, List.flatMap_cons, timeline_singletons]
    simp only [List.map_cons, List.map_nil, List.singleton_append, List.map_map, List.cons.injEq,
      true_and, Function.comp_def]
    change ((List.range' 1 n).zipIdx 1).map (updateOf ∘ Prod.fst) = _
    rw [← List.map_map, List.zipIdx_map_fst]
  rw [eventsOf, hevents]
  by_cases hx : x = 7
  · subst hx
    rw [if_pos rfl]
    refine List.filter_eq_self.mpr fun e he => ?_
    rcases List.mem_cons.mp he with rfl | he
    · rfl
    · obtain ⟨v, -, rfl⟩ := List.mem_map.mp he
      rfl
  · rw [if_neg hx]
    refine List.filter_eq_nil_iff.mpr fun e he => ?_
    rcases List.mem_cons.mp he with rfl | he
    · exact fun heq => hx (of_decide_eq_true heq).symm
    · obtain ⟨v, -, rfl⟩ := List.mem_map.mp he
      exact fun heq => hx (of_decide_eq_true heq).symm

/-- Updates from version `v` on, in order. -/
theorem run_updates {v n : ℕ} (hn : v + n ≤ u32Max) :
    run Life.step (.live v) ((List.range' v n).map updateOf) = some (.live (v + n)) := by
  induction n generalizing v with
  | zero => rfl
  | succ n ih =>
    rw [List.range'_succ, List.map_cons, run_cons]
    have hv : (UInt32.ofNat v).toNat = v := by
      rw [UInt32.toNat_ofNat']
      simp only [u32Max] at hn
      omega
    have hstep : Life.step (.live v) (updateOf v) = some (.live (v + 1)) := if_pos hv
    rw [hstep, Option.bind_some, ih (by omega)]
    congr 2
    omega

theorem updatedTimes_valid {n : ℕ} (hn : n < u32Max) : (updatedTimes n).Valid := by
  intro x
  rw [eventsOf_updatedTimes]
  by_cases hx : x = 7
  · rw [if_pos hx]
    exact ⟨.live (1 + n), run_updates (by omega)⟩
  · rw [if_neg hx]
    exact ⟨.unborn, rfl⟩

theorem block_updatedTimes {n v : ℕ} (hv : 1 ≤ v) (hvn : v ≤ n) :
    (updatedTimes n).block v = [(0, updateOf v)] := by
  obtain ⟨i, rfl⟩ : ∃ i, v = i + 1 := ⟨v - 1, by omega⟩
  rw [block, updatedTimes, List.getElem?_cons_succ, List.getElem?_map,
    List.getElem?_range' (by omega)]
  simp [add_comm]

/-- Block 0 goes through, and then any update does. -/
theorem apply_updatedTimes {n v : ℕ} (hv : 1 ≤ v) (hvn : v ≤ n) :
    ∃ t', (updatedTimes n).apply ((updatedTimes n).attemptAll [0]) v = .ok t' := by
  have hzero : (updatedTimes n).ops 0 =
      Ats.project [(0, .created 7 (.fill 1) (.fill 2) 0)] 0 := rfl
  have hthere : ((updatedTimes n).attemptAll [0]).parents.contains (atsKey 7) = true := by
    rw [attemptAll, List.foldl_cons, List.foldl_nil, attempt, AtsHistory.apply, hzero]
    decide
  refine apply_isOk_iff.mpr fun x hx => ?_
  obtain ⟨⟨p, hp, rfl, -⟩, -, hnone⟩ := orphaned_iff.mp hx
  rw [block_updatedTimes hv hvn] at hp
  obtain rfl := List.mem_singleton.mp hp
  exact Bool.eq_false_iff.mp hnone hthere

end AtsHistory

/-- What applying the creation and the last of the updates takes. -/
theorem AtsHistory.updatedTimes_last {n : ℕ} (hn : n = i32Max) :
    (updatedTimes n).Valid ∧ (∀ b ∈ [0, n], b ∈ (updatedTimes n).committed [0, n]) ∧
      ¬ CountsMatch ((updatedTimes n).attemptAll [0, n]) := by
  have hpos : 1 ≤ n := by
    rw [hn]
    decide
  have hfit : n < u32Max := by
    rw [hn]
    decide
  have hblock := block_updatedTimes hpos le_rfl
  obtain ⟨t', ht'⟩ := apply_updatedTimes hpos (le_refl n)
  refine ⟨updatedTimes_valid hfit, ?_, ?_⟩
  · intro b hb
    rcases List.mem_cons.mp hb with rfl | hb
    · exact mem_committed_iff.mpr ⟨[], ⟨[n], rfl⟩, _, rfl⟩
    · obtain rfl := List.mem_singleton.mp hb
      exact mem_committed_iff.mpr ⟨[0], List.prefix_rfl, t', ht'⟩
  · have hversion : (UInt32.ofNat n).toNat = i32Max := by
      rw [UInt32.toNat_ofNat']
      simp only [u32Max, i32Max] at *
      omega
    have hadds : (updatedTimes n).Adds n 7 (UInt32.ofNat n) :=
      ⟨(0, updateOf n), by rw [hblock]; exact List.mem_singleton_self _, rfl, rfl⟩
    have hkept : ¬ (updatedTimes n).Revokes n 7 := by
      rintro ⟨p, hp, -, hrevokes⟩
      rw [hblock] at hp
      rw [List.mem_singleton.mp hp] at hrevokes
      cases hrevokes
    have hstep : (updatedTimes n).attemptAll [0, n] = t' := by
      rw [attemptAll, List.foldl_cons, List.foldl_cons, List.foldl_nil]
      change (updatedTimes n).attempt ((updatedTimes n).attemptAll [0]) n = t'
      rw [attempt, ht']
    rw [hstep]
    exact not_countsMatch_apply ht' hadds hversion hkept

/-- **Version `i32::MAX` is stored, and the count stays 1**: id 7 has
`2^31 - 1` updates, and its creation and the last of them are applied. -/
theorem not_countsMatch_updatedTimes :
    (updatedTimes i32Max).Valid ∧
      (∀ b ∈ [0, i32Max], b ∈ (updatedTimes i32Max).committed [0, i32Max]) ∧
      ¬ CountsMatch ((updatedTimes i32Max).attemptAll [0, i32Max]) :=
  updatedTimes_last rfl

end AllfeatExplorer
