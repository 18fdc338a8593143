import Mathlib.Data.Prod.Lex
import AllfeatExplorer.Data.Helpers.Stored

/-!
# Events are filled in

Three reads attach events to extrinsics: one extrinsic's, a whole block's
grouped by index, and those of several keys in one join. The two bulk
reads group by the columns clamped at zero, and so part from the single
read where a column is negative: an event row whose extrinsic index is
negative goes to extrinsic 0 of its block, and a key beyond the columns
finds nothing in the bucket of its own key.

`ReadsAlike` is when this does not happen, and `hydrateEvents_eq_iff` says
that it is exactly when every extrinsic gets its own events.
-/

namespace AllfeatExplorer

open Projections Queries

namespace Hydration

variable {net : Network} {db : Db} {xts : List Extrinsic} {x : Extrinsic} {b i : ℕ}

/-! ## The events of one extrinsic -/

/-- What is shown of a row. -/
def eventShown (net : Network) (r : (ℤ ×ₗ ℤ) × StoredEvent) : EventRef := rowToEventRef net r.2

/-- An event row of an extrinsic with an index as stored. -/
def appliedAt (i : ℤ) (r : (ℤ ×ₗ ℤ) × StoredEvent) : Bool :=
  r.2.phaseKind = phaseApplyExtrinsic && r.2.phaseIdx = some i

/-- **The rows of the ApplyExtrinsic events of extrinsic `i` of block
`b`**, by ascending event index. -/
def eventRowsOf (db : Db) (b i : ℕ) : List ((ℤ ×ₗ ℤ) × StoredEvent) :=
  (rowsOfBlock db.events (asI64 b)).filter (appliedAt (asI32 i))

theorem mem_eventRowsOf {r : (ℤ ×ₗ ℤ) × StoredEvent} :
    r ∈ eventRowsOf db b i ↔ r ∈ db.events.rows ∧ (ofLex r.1).1 = asI64 b ∧
      r.2.phaseKind = phaseApplyExtrinsic ∧ r.2.phaseIdx = some (asI32 i) := by
  simp only [eventRowsOf, rowsOfBlock, appliedAt, List.mem_filter, Bool.and_eq_true,
    decide_eq_true_eq, and_assoc]

/-- The events of one extrinsic come in event order, each once. -/
theorem pairwise_eventRowsOf :
    (eventRowsOf db b i).Pairwise fun r s => (ofLex r.1).2 < (ofLex s.1).2 := by
  have hsorted : (eventRowsOf db b i).Pairwise fun r s => r.1 < s.1 :=
    (db.events.sorted.filter _).filter _
  refine hsorted.imp_of_mem fun {r s} hr hs hlt => ?_
  have hrb := (mem_eventRowsOf.mp hr).2.1
  have hsb := (mem_eventRowsOf.mp hs).2.1
  rcases Prod.Lex.lt_iff.mp hlt with hblock | ⟨-, hidx⟩
  · omega
  · exact hidx

/-- **The read of one extrinsic.** -/
theorem eventsForExtrinsic_eq_map :
    eventsForExtrinsic net db b i = (eventRowsOf db b i).map (eventShown net) := rfl

/-! ## One block -/

/-- Two selections of a list, one within the other, read alike only if
they are the same. -/
theorem map_filter_eq_map_filter_iff {α β : Type*} {f : α → β} {l : List α} {p q : α → Bool}
    (hqp : ∀ a ∈ l, q a = true → p a = true) :
    (l.filter p).map f = (l.filter q).map f ↔ ∀ a ∈ l, p a = true → q a = true := by
  constructor
  · intro heq
    have hlen : (l.filter p).length = (l.filter q).length := by
      simpa only [List.length_map] using congrArg List.length heq
    have hwithin : l.filter q = (l.filter p).filter q := by
      rw [List.filter_filter]
      refine List.filter_congr fun a ha => ?_
      cases hq : q a with
      | false => rfl
      | true => rw [hqp a ha hq, Bool.and_true]
    have hall : (l.filter p).filter q = l.filter p :=
      List.filter_sublist.eq_of_length (by rw [← hwithin, hlen])
    intro a ha hp
    exact (List.filter_eq_self.mp hall) a (List.mem_filter.mpr ⟨ha, hp⟩)
  · intro hpq
    refine congrArg (List.map f) (List.filter_congr fun a ha => ?_)
    cases hq : q a with
    | true => exact hqp a ha hq
    | false => exact Bool.eq_false_iff.mpr fun hp => Bool.eq_false_iff.mp hq (hpq a ha hp)

/-- The columns of the event table: an extrinsic index is an `INT`. -/
def IndexColumns (db : Db) : Prop :=
  ∀ r ∈ db.events.rows, ∀ p ∈ r.2.phaseIdx, p ≤ i32Max

/-- What the by-block read groups under index `i`. -/
def clampedAt (i : ℕ) (r : (ℤ ×ₗ ℤ) × StoredEvent) : Bool :=
  r.2.phaseKind = phaseApplyExtrinsic && r.2.phaseIdx.any fun p => (max p 0).toNat = i

theorem getD_eventsByExtIdxInBlock_eq :
    ((eventsByExtIdxInBlock net db b).get i).getD [] =
      ((rowsOfBlock db.events (asI64 b)).filter (clampedAt i)).map (eventShown net) := by
  unfold eventsByExtIdxInBlock
  rw [Buckets.getD_ofRows, List.filter_filter]
  refine congrArg (List.map (eventShown net)) (List.filter_congr fun r _ => ?_)
  rw [clampedAt]
  cases r.2.phaseIdx with
  | none => simp
  | some p => simp [Bool.and_comm]

/-- **Extrinsic `i` of a block reads alike**: no event of extrinsic 0 has
a negative index, and no event is under an index past `i32::MAX`. -/
def IndexReadsAlike (db : Db) (b i : ℕ) : Prop :=
  (i = 0 → ∀ r ∈ rowsOfBlock db.events (asI64 b), r.2.phaseKind = phaseApplyExtrinsic →
    ∀ p ∈ r.2.phaseIdx, 0 ≤ p) ∧
  (i32Max < i → eventRowsOf db b i = [])

/-- The by-block read of one index and the single read. -/
theorem byBlock_eq_iff (hcols : IndexColumns db) (hi : i ≤ u32Max) :
    ((eventsByExtIdxInBlock net db b).get i).getD [] = eventsForExtrinsic net db b i ↔
      IndexReadsAlike db b i := by
  rw [getD_eventsByExtIdxInBlock_eq, eventsForExtrinsic_eq_map, eventRowsOf]
  rcases Nat.lt_or_ge i32Max i with hbig | hfits
  · -- No index column reaches `i`, so nothing is grouped under it.
    have hnone : (rowsOfBlock db.events (asI64 b)).filter (clampedAt i) = [] := by
      refine List.filter_eq_nil_iff.mpr fun r hr => ?_
      have hle := hcols r (List.mem_of_mem_filter hr)
      rw [clampedAt]
      cases hp : r.2.phaseIdx with
      | none => simp
      | some p =>
        have := hle p hp
        simp only [i32Max] at this hbig
        simp only [Option.any_some, Bool.and_eq_true, decide_eq_true_eq, not_and]
        intro _
        omega
    rw [hnone, List.map_nil, eq_comm, List.map_eq_nil_iff]
    exact ⟨fun h => ⟨fun h0 => absurd hbig (by omega), fun _ => h⟩, fun h => h.2 hbig⟩
  · have hcast : asI32 i = i := asI32_of_le hfits
    have hwithin : ∀ r ∈ rowsOfBlock db.events (asI64 b), appliedAt (asI32 i) r = true →
        clampedAt i r = true := by
      intro r _ h
      simp only [appliedAt, Bool.and_eq_true, decide_eq_true_eq] at h
      simp only [clampedAt, h.1, h.2, hcast, decide_true, Option.any_some, Bool.true_and,
        decide_eq_true_eq]
      omega
    rw [map_filter_eq_map_filter_iff hwithin]
    constructor
    · intro h
      refine ⟨?_, fun hlt => absurd hlt (by omega)⟩
      rintro rfl r hr hkind p hp
      by_contra hneg
      have hclamped : clampedAt 0 r = true := by
        simp only [clampedAt, hkind, Option.mem_def.mp hp, decide_true, Option.any_some,
          Bool.true_and, decide_eq_true_eq]
        omega
      have happlied := h r hr hclamped
      simp only [appliedAt, Bool.and_eq_true, decide_eq_true_eq, Option.mem_def.mp hp,
        Option.some.injEq, hcast] at happlied
      omega
    · intro h r hr hclamped
      simp only [clampedAt, Bool.and_eq_true, decide_eq_true_eq, Option.any_eq_true] at hclamped
      obtain ⟨hkind, p, hp, hclamp⟩ := hclamped
      have hp0 : i = 0 → 0 ≤ p := fun h0 => h.1 h0 r hr hkind p hp
      simp only [appliedAt, hkind, hp, hcast, decide_true, Bool.true_and, decide_eq_true_eq,
        Option.some.injEq]
      omega

/-! ## Several blocks -/

/-- `unnest(…) AS r ON e.block_num = r.block_num AND e.phase_idx =
r.ext_idx`. -/
def onPair (r : (ℤ ×ₗ ℤ) × StoredEvent) (p : ℕ × ℕ) : Bool :=
  (ofLex r.1).1 = asI64 p.1 && r.2.phaseIdx = some (asI32 p.2)

/-- What the join groups a row under. -/
def clampedKey (r : (ℤ ×ₗ ℤ) × StoredEvent) : ℕ × ℕ :=
  ((max (ofLex r.1).1 0).toNat, (max (r.2.phaseIdx.getD 0) 0).toNat)

/-- Keys of the types the read side has: `u64` and `u32`. -/
def InRange (p : ℕ × ℕ) : Prop := p.1 ≤ u64Max ∧ p.2 ≤ u32Max

/-- A key that the columns do not hold as it is. -/
def Wrapped (p : ℕ × ℕ) : Prop := i64Max < p.1 ∨ i32Max < p.2

/-- A row is joined with one key at most. -/
theorem onPair_unique {r : (ℤ ×ₗ ℤ) × StoredEvent} {p q : ℕ × ℕ} (hp : InRange p) (hq : InRange q)
    (hrp : onPair r p = true) (hrq : onPair r q = true) : p = q := by
  simp only [onPair, Bool.and_eq_true, decide_eq_true_eq] at hrp hrq
  have hblock : asI64 p.1 = asI64 q.1 := hrp.1.symm.trans hrq.1
  have hidx : asI32 p.2 = asI32 q.2 := Option.some.inj (hrp.2.symm.trans hrq.2)
  exact Prod.ext ((asI64_inj hp.1 hq.1).mp hblock) ((asI32_inj hp.2 hq.2).mp hidx)

/-- A join in which a row matches one key at most selects rows. -/
theorem flatMap_filter_map_eq_filter {α β : Type*} {m : α → β → Bool} {pairs : List β}
    (hnodup : pairs.Nodup) (honce : ∀ a, ∀ p ∈ pairs, ∀ q ∈ pairs, m a p = true → m a q = true →
      p = q) (rows : List α) :
    (rows.flatMap fun a => (pairs.filter (m a)).map fun _ => a) =
      rows.filter fun a => pairs.any (m a) := by
  have hrow : ∀ a, ((pairs.filter (m a)).map fun _ => a) =
      if pairs.any (m a) then [a] else [] := by
    intro a
    by_cases hany : pairs.any (m a) = true
    · obtain ⟨p, hp, hmp⟩ := List.any_eq_true.mp hany
      have hsingle : pairs.filter (m a) = [p] := by
        refine List.perm_singleton.mp ((List.perm_ext_iff_of_nodup (hnodup.filter _)
          (List.nodup_singleton p)).mpr fun q => ?_)
        rw [List.mem_filter, List.mem_singleton]
        exact ⟨fun h => honce a q h.1 p hp h.2 hmp, fun h => h ▸ ⟨hp, hmp⟩⟩
      rw [if_pos hany, hsingle, List.map_singleton]
    · have hnil : pairs.filter (m a) = [] := by
        refine List.filter_eq_nil_iff.mpr fun p hp hmp => hany ?_
        exact List.any_eq_true.mpr ⟨p, hp, hmp⟩
      rw [if_neg hany, hnil, List.map_nil]
  induction rows with
  | nil => rfl
  | cons a rows ih =>
    rw [List.flatMap_cons, ih, hrow, List.filter_cons]
    split <;> rfl

/-- The rows `events_for_pairs` reads, in their order. -/
def pairRows (db : Db) (pairs : List (ℕ × ℕ)) : List ((ℤ ×ₗ ℤ) × StoredEvent) :=
  ((db.events.rows.filter fun r => pairs.any (onPair r)).filter fun r =>
    r.2.phaseKind = phaseApplyExtrinsic).mergeSort newestBlockFirst

theorem mem_pairRows {pairs : List (ℕ × ℕ)} {r : (ℤ ×ₗ ℤ) × StoredEvent} :
    r ∈ pairRows db pairs ↔ r ∈ db.events.rows ∧ (∃ p ∈ pairs, onPair r p = true) ∧
      r.2.phaseKind = phaseApplyExtrinsic := by
  rw [pairRows, List.mem_mergeSort, List.mem_filter, List.mem_filter, List.any_eq_true,
    decide_eq_true_eq, and_assoc]

theorem getD_eventsForPairs {pairs : List (ℕ × ℕ)} {k : ℕ × ℕ} (hnodup : pairs.Nodup)
    (hrange : ∀ p ∈ pairs, InRange p) :
    ((eventsForPairs net db pairs).get k).getD [] =
      ((pairRows db pairs).filter fun r => clampedKey r = k).map (eventShown net) := by
  have hjoin := flatMap_filter_map_eq_filter (m := onPair) hnodup
    (fun r p hp q hq => onPair_unique (hrange p hp) (hrange q hq)) db.events.rows
  rcases pairs with - | ⟨p, pairs⟩
  · simp [eventsForPairs, Buckets.empty, pairRows]
  · rw [eventsForPairs, if_neg (by simp)]
    unfold onPair at hjoin
    rw [Buckets.getD_ofRows, hjoin]
    rfl

/-- Newest block first, and in a block ascending. -/
theorem newestBlockFirst_iff {r s : (ℤ ×ₗ ℤ) × StoredEvent} :
    newestBlockFirst r s = true ↔ (ofLex s.1).1 < (ofLex r.1).1 ∨
      (ofLex r.1).1 = (ofLex s.1).1 ∧ (ofLex r.1).2 ≤ (ofLex s.1).2 := by
  simp only [newestBlockFirst, Bool.or_eq_true, Bool.and_eq_true, decide_eq_true_eq]

theorem pairwise_pairRows (db : Db) (pairs : List (ℕ × ℕ)) :
    (pairRows db pairs).Pairwise fun r s => newestBlockFirst r s = true := by
  refine List.pairwise_mergeSort ?_ ?_ _
  · intro a b c hab hbc
    rw [newestBlockFirst_iff] at *
    omega
  · intro a b
    rw [Bool.or_eq_true, newestBlockFirst_iff, newestBlockFirst_iff]
    omega

/-- A row belongs to the key it is grouped under, unless a key of the
list is beyond the columns and has events. -/
theorem mem_filter_pairRows {pairs : List (ℕ × ℕ)} {p : ℕ × ℕ}
    (hwrapped : ∀ q ∈ pairs, Wrapped q → eventRowsOf db q.1 q.2 = []) (hp : p ∈ pairs)
    (hfits : ¬ Wrapped p) (r : (ℤ ×ₗ ℤ) × StoredEvent) :
    r ∈ (pairRows db pairs).filter (fun r => clampedKey r = p) ↔ r ∈ eventRowsOf db p.1 p.2 := by
  rw [List.mem_filter, mem_pairRows, mem_eventRowsOf, decide_eq_true_eq]
  have hcast : asI64 p.1 = p.1 ∧ asI32 p.2 = p.2 := by
    simp only [Wrapped, not_or, not_lt] at hfits
    exact ⟨asI64_of_le hfits.1, asI32_of_le hfits.2⟩
  constructor
  · rintro ⟨⟨hrow, ⟨q, hq, hon⟩, hkind⟩, hkey⟩
    simp only [onPair, Bool.and_eq_true, decide_eq_true_eq] at hon
    have hqfits : ¬ Wrapped q := by
      intro hw
      have hin : r ∈ eventRowsOf db q.1 q.2 := mem_eventRowsOf.mpr ⟨hrow, hon.1, hkind, hon.2⟩
      rw [hwrapped q hq hw] at hin
      exact List.not_mem_nil hin
    have hpq : p = q := by
      simp only [Wrapped, not_or, not_lt] at hqfits
      rw [← hkey, clampedKey, hon.1, hon.2, asI64_of_le hqfits.1, Option.getD_some,
        asI32_of_le hqfits.2]
      exact Prod.ext (by simp) (by simp)
    exact ⟨hrow, hpq ▸ hon.1, hkind, hpq ▸ hon.2⟩
  · rintro ⟨hrow, hblock, hkind, hidx⟩
    refine ⟨⟨hrow, ⟨p, hp, ?_⟩, hkind⟩, ?_⟩
    · simp only [onPair, hblock, hidx, decide_true, Bool.and_true]
    · rw [clampedKey, hblock, hidx, hcast.1, Option.getD_some, hcast.2]
      exact Prod.ext (by simp) (by simp)

/-- **The rows grouped under a key** are the extrinsic's, in their order. -/
theorem filter_pairRows {pairs : List (ℕ × ℕ)} {p : ℕ × ℕ}
    (hwrapped : ∀ q ∈ pairs, Wrapped q → eventRowsOf db q.1 q.2 = []) (hp : p ∈ pairs)
    (hfits : ¬ Wrapped p) :
    ((pairRows db pairs).filter fun r => clampedKey r = p) = eventRowsOf db p.1 p.2 := by
  have hmem := mem_filter_pairRows hwrapped hp hfits
  have hnodup : ((pairRows db pairs).filter fun r => clampedKey r = p).Nodup :=
    ((List.mergeSort_perm _ _).nodup_iff.mpr
      ((db.events.nodup_rows.filter _).filter _)).filter _
  have hsorted : (eventRowsOf db p.1 p.2).Pairwise fun r s => newestBlockFirst r s = true := by
    refine pairwise_eventRowsOf.imp_of_mem fun {r s} hr hs hlt => ?_
    have hrb := (mem_eventRowsOf.mp hr).2.1
    have hsb := (mem_eventRowsOf.mp hs).2.1
    rw [newestBlockFirst_iff]
    omega
  refine List.Perm.eq_of_pairwise ?_ ((pairwise_pairRows db pairs).filter _) hsorted
    ((List.perm_ext_iff_of_nodup hnodup ((db.events.nodup_rows.filter _).filter _)).mpr hmem)
  -- Two rows of one place are one row of the table.
  intro r s hr hs hrs hsr
  have hrow := (mem_eventRowsOf.mp ((hmem r).mp hr)).1
  have hrow' := (mem_eventRowsOf.mp hs).1
  rw [newestBlockFirst_iff] at hrs hsr
  refine db.events.eq_of_mem_rows hrow hrow' (ofLex.injective (Prod.ext ?_ ?_))
  · omega
  · omega

/-- Nothing is grouped under a key beyond the columns. -/
theorem filter_pairRows_wrapped {pairs : List (ℕ × ℕ)} {p : ℕ × ℕ} (hp : Wrapped p) :
    ((pairRows db pairs).filter fun r => clampedKey r = p) = [] := by
  refine List.filter_eq_nil_iff.mpr fun r hr => ?_
  obtain ⟨-, ⟨q, -, hon⟩, -⟩ := mem_pairRows.mp hr
  simp only [onPair, Bool.and_eq_true, decide_eq_true_eq] at hon
  rw [decide_eq_true_eq, clampedKey, hon.1, hon.2, Option.getD_some]
  have h64 := asI64_le_max q.1
  have h32 := asI32_le_max q.2
  rintro rfl
  simp only [Wrapped, i64Max, i32Max] at hp h64 h32
  omega

/-- The loop over several blocks: a bucket is taken once, by the extrinsic
whose key it is. -/
theorem hydrateByPair_eq {byPair : Buckets (ℕ × ℕ) EventRef}
    (hkeys : (xts.map fun x => (x.blockNumber, x.index)).Nodup) :
    hydrateByPair byPair xts =
      xts.map fun x => fillEvents x (byPair.get (x.blockNumber, x.index)) := by
  induction xts generalizing byPair with
  | nil => rfl
  | cons x xts ih =>
    obtain ⟨hx, hxts⟩ := List.nodup_cons.mp hkeys
    rw [hydrateByPair, List.map_cons, ih hxts]
    refine congrArg _ (List.map_congr_left fun y hy => ?_)
    have hne : (y.blockNumber, y.index) ≠ (x.blockNumber, x.index) := fun heq =>
      hx (List.mem_map.mpr ⟨y, hy, heq⟩)
    simp only [Buckets.remove, Function.update_of_ne hne]

/-! ## All paths -/

/-- **The paths read alike**, by the path the list takes: in one block, no
event row of extrinsic 0 has a negative index and none is past
`i32::MAX`; over several, no extrinsic beyond the columns has events. -/
def ReadsAlike (db : Db) (xts : List Extrinsic) : Prop :=
  ((∀ x ∈ xts, ∀ y ∈ xts, x.blockNumber = y.blockNumber) →
    ∀ x ∈ xts, IndexReadsAlike db x.blockNumber x.index) ∧
  ((∃ x ∈ xts, ∃ y ∈ xts, x.blockNumber ≠ y.blockNumber) →
    ∀ x ∈ xts, Wrapped (x.blockNumber, x.index) → eventRowsOf db x.blockNumber x.index = [])

/-- Extrinsics as the list reads make them: no events yet, and distinct
keys of the types. -/
structure Listed (xts : List Extrinsic) : Prop where
  keys : (xts.map fun x => (x.blockNumber, x.index)).Nodup
  inRange : ∀ x ∈ xts, InRange (x.blockNumber, x.index)
  bare : ∀ x ∈ xts, x.events = []

theorem setEvents_inj {evs evs' : List EventRef} :
    x.setEvents evs = x.setEvents evs' ↔ evs = evs' :=
  ⟨fun h => congrArg Extrinsic.events h, fun h => by rw [h]⟩

/-- The by-block path, each extrinsic under its own block. -/
theorem hydrateEvents_oneBlock (hxts : Listed xts)
    (hone : ∀ x ∈ xts, ∀ y ∈ xts, x.blockNumber = y.blockNumber) :
    hydrateEvents net db xts = xts.map fun x =>
      x.setEvents (((eventsByExtIdxInBlock net db x.blockNumber).get x.index).getD []) := by
  rcases hlist : xts with - | ⟨first, rest⟩
  · rfl
  · rw [← hlist]
    have hfirst : first ∈ xts := hlist ▸ List.mem_cons_self
    rw [hydrateEvents_of_block (n := first.blockNumber) fun x hx =>
      ⟨hone x hx first hfirst, hxts.bare x hx⟩]
    exact List.map_congr_left fun x hx => by rw [hone x hx first hfirst]

/-- The path of the join. -/
theorem hydrateEvents_several (hxts : Listed xts)
    (hseveral : ∃ x ∈ xts, ∃ y ∈ xts, x.blockNumber ≠ y.blockNumber) :
    hydrateEvents net db xts = xts.map fun x => x.setEvents
      (((pairRows db (xts.map fun e => (e.blockNumber, e.index))).filter fun r =>
        clampedKey r = (x.blockNumber, x.index)).map (eventShown net)) := by
  rcases hlist : xts with - | ⟨first, rest⟩
  · rfl
  · have hmixed : ¬ (xts.all fun e => e.blockNumber = first.blockNumber) = true := by
      intro hall
      have hblock := fun x hx => of_decide_eq_true (List.all_eq_true.mp hall x hx)
      obtain ⟨x, hx, y, hy, hne⟩ := hseveral
      exact hne ((hblock x hx).trans (hblock y hy).symm)
    rw [hlist] at hmixed
    simp only [hydrateEvents]
    rw [if_neg hmixed, ← hlist, hydrateByPair_eq hxts.keys]
    refine List.map_congr_left fun x hx => ?_
    rw [fillEvents_of_nil (hxts.bare x hx), getD_eventsForPairs hxts.keys]
    intro p hp
    obtain ⟨y, hy, rfl⟩ := List.mem_map.mp hp
    exact hxts.inRange y hy

/-- **Hydration of a list**, by the path it takes. -/
theorem hydrateEvents_eq_iff_readsAlike (hcols : IndexColumns db) (hxts : Listed xts) :
    hydrateEvents net db xts =
        xts.map (fun x => x.setEvents (eventsForExtrinsic net db x.blockNumber x.index)) ↔
      ReadsAlike db xts := by
  by_cases hone : ∀ x ∈ xts, ∀ y ∈ xts, x.blockNumber = y.blockNumber
  · rw [hydrateEvents_oneBlock hxts hone, List.map_inj_left, ReadsAlike]
    simp only [setEvents_inj]
    constructor
    · refine fun h => ⟨fun _ x hx => ?_, ?_⟩
      · exact (byBlock_eq_iff hcols (hxts.inRange x hx).2).mp (h x hx)
      · rintro ⟨x, hx, y, hy, hne⟩
        exact absurd (hone x hx y hy) hne
    · intro h x hx
      exact (byBlock_eq_iff hcols (hxts.inRange x hx).2).mpr (h.1 hone x hx)
  · have hseveral : ∃ x ∈ xts, ∃ y ∈ xts, x.blockNumber ≠ y.blockNumber := by
      by_contra hall
      exact hone fun x hx y hy => by_contra fun hne => hall ⟨x, hx, y, hy, hne⟩
    rw [hydrateEvents_several hxts hseveral, List.map_inj_left, ReadsAlike]
    simp only [setEvents_inj, eventsForExtrinsic_eq_map]
    constructor
    · refine fun h => ⟨fun hone' => absurd hone' hone, fun _ x hx hw => ?_⟩
      have heq := h x hx
      rw [filter_pairRows_wrapped hw, List.map_nil, eq_comm, List.map_eq_nil_iff] at heq
      exact heq
    · intro h x hx
      by_cases hw : Wrapped (x.blockNumber, x.index)
      · rw [filter_pairRows_wrapped hw, h.2 hseveral x hx hw]
      · have hmem : (x.blockNumber, x.index) ∈ xts.map fun e => (e.blockNumber, e.index) :=
          List.mem_map.mpr ⟨x, hx, rfl⟩
        rw [filter_pairRows ?_ hmem hw]
        intro q hq hwq
        obtain ⟨y, hy, rfl⟩ := List.mem_map.mp hq
        exact h.2 hseveral y hy hwq

/-- **Hydration agrees with the single read exactly where no column in
play is clamped or wrapped.** The single read gives an extrinsic the rows
of its ApplyExtrinsic events and no other, in event order. -/
theorem hydrateEvents_agrees_iff (hcols : IndexColumns db) (hxts : Listed xts) :
    (hydrateEvents net db xts =
        xts.map (fun x => x.setEvents (eventsForExtrinsic net db x.blockNumber x.index)) ↔
      ReadsAlike db xts) ∧
    ∀ b i, ∃ rows : List ((ℤ ×ₗ ℤ) × StoredEvent),
      eventsForExtrinsic net db b i = rows.map (eventShown net) ∧
      rows.Pairwise (fun r s => (ofLex r.1).2 < (ofLex s.1).2) ∧
      ∀ r, r ∈ rows ↔ r ∈ db.events.rows ∧ (ofLex r.1).1 = asI64 b ∧
        r.2.phaseKind = phaseApplyExtrinsic ∧ r.2.phaseIdx = some (asI32 i) :=
  ⟨hydrateEvents_eq_iff_readsAlike hcols hxts, fun b i =>
    ⟨eventRowsOf db b i, eventsForExtrinsic_eq_map, pairwise_eventRowsOf,
      fun _ => mem_eventRowsOf⟩⟩

/-- An extrinsic as the list reads make it. -/
def bareExtrinsic (block index : ℕ) : Extrinsic :=
  { id := extrinsicId block index
    blockNumber := block
    index := index
    hash := "0x"
    module := "System"
    call := "remark"
    signed := false
    signer := none
    args := .decoded []
    result := .success
    nonce := none
    tip := 0
    fee := 0
    timestampMs := 0
    events := [] }

/-- A block-7 table of two events, the second of an extrinsic with a given
index. -/
def tableOfTwo (phaseIdx : ℤ) : Db :=
  { Db.empty with
    events := (Table.empty.insertNew (toLex (7, 0))
      ⟨phaseApplyExtrinsic, some 0, "System", "ExtrinsicSuccess", [], 0⟩).insertNew (toLex (7, 1))
      ⟨phaseApplyExtrinsic, some phaseIdx, "System", "Remarked", [], 0⟩ }

/-- Besides, one event of block 8. -/
def tableOfThree : Db :=
  { tableOfTwo 1 with
    events := (tableOfTwo 1).events.insertNew (toLex (8, 0))
      ⟨phaseApplyExtrinsic, some 0, "System", "ExtrinsicSuccess", [], 0⟩ }

/-- Both paths: the extrinsics of block 7, and those of both blocks. -/
theorem hydrateEvents_agrees_iff_both :
    hydrateEvents plainNetwork tableOfThree [bareExtrinsic 7 0, bareExtrinsic 7 1] =
        [bareExtrinsic 7 0, bareExtrinsic 7 1].map (fun x =>
          x.setEvents (eventsForExtrinsic plainNetwork tableOfThree x.blockNumber x.index)) ∧
      hydrateEvents plainNetwork tableOfThree
          [bareExtrinsic 8 0, bareExtrinsic 7 1, bareExtrinsic 7 0] =
        [bareExtrinsic 8 0, bareExtrinsic 7 1, bareExtrinsic 7 0].map fun x =>
          x.setEvents (eventsForExtrinsic plainNetwork tableOfThree x.blockNumber x.index) := by
  have hcols : IndexColumns tableOfThree := by unfold IndexColumns; decide
  have hsmall : ∀ xts ∈ [[bareExtrinsic 7 0, bareExtrinsic 7 1],
      [bareExtrinsic 8 0, bareExtrinsic 7 1, bareExtrinsic 7 0]], ∀ x ∈ xts,
        (x.blockNumber = 7 ∨ x.blockNumber = 8) ∧ x.index ≤ 1 ∧ x.events = [] := by decide
  suffices hall : ∀ xts ∈ [[bareExtrinsic 7 0, bareExtrinsic 7 1],
      [bareExtrinsic 8 0, bareExtrinsic 7 1, bareExtrinsic 7 0]],
        hydrateEvents plainNetwork tableOfThree xts = xts.map fun x =>
          x.setEvents (eventsForExtrinsic plainNetwork tableOfThree x.blockNumber x.index) from
    ⟨hall _ List.mem_cons_self, hall _ (List.mem_cons_of_mem _ List.mem_cons_self)⟩
  intro xts hxts
  have hlisted : Listed xts := by
    refine ⟨by revert xts; decide, fun x hx => ?_, fun x hx => (hsmall xts hxts x hx).2.2⟩
    obtain ⟨hblock, hindex, -⟩ := hsmall xts hxts x hx
    simp only [InRange, u64Max, u32Max]
    omega
  refine (hydrateEvents_agrees_iff hcols hlisted).1.mpr ⟨fun _ x hx => ⟨?_, ?_⟩, fun _ x hx => ?_⟩
  · rintro -
    rcases (hsmall xts hxts x hx).1 with hblock | hblock <;> rw [hblock] <;> decide
  · intro hlt
    have hindex := (hsmall xts hxts x hx).2.1
    simp only [i32Max] at hlt
    omega
  · intro hwrapped
    obtain ⟨hblock, hindex, -⟩ := hsmall xts hxts x hx
    simp only [Wrapped, i64Max, i32Max] at hwrapped
    omega

/-- **An event under a negative index is given to extrinsic 0.** The
by-block read clamps the index of the second row, `-1`, to zero. -/
theorem hydrateEvents_clamps :
    (hydrateEvents plainNetwork (tableOfTwo (-1)) [bareExtrinsic 7 0]).map
        (fun x => x.events.map EventRef.name) = [["ExtrinsicSuccess", "Remarked"]] ∧
      (eventsForExtrinsic plainNetwork (tableOfTwo (-1)) 7 0).map EventRef.name =
        ["ExtrinsicSuccess"] := by
  decide

end Hydration

end AllfeatExplorer
