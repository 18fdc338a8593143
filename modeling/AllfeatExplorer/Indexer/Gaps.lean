import AllfeatExplorer.Indexer.Model.Backfill
import AllfeatExplorer.Lib.Tiles

/-!
# The gaps — an exact partition

`split_gaps_into_chunks` once more, with every addition and subtraction
checked and its loop unbounded but for a fuel: running out of fuel, an
overflow and a failed assertion all answer `none`. Enough fuel is any
above the head, and then the answer is that of the plain function, whose
chunks tile the blocks up to the head that are not among those present.
-/

namespace AllfeatExplorer

namespace Backfill

/-! ## Checked arithmetic -/

/-- `a + b`, which panics past `u64::MAX`. -/
def addU64 (a b : ℕ) : Option ℕ := if a + b ≤ u64Max then some (a + b) else none

/-- `a - b`, which panics below zero. -/
def subU64 (a b : ℕ) : Option ℕ := if b ≤ a then some (a - b) else none

/-- The `loop` of `push_chunked`, checked. -/
def pushChunkedChecked (to' chunkSize : ℕ) :
    ℕ → ℕ → List (ℕ × ℕ) → Option (List (ℕ × ℕ))
  | 0, _, _ => none
  | fuel + 1, f, out =>
    (subU64 chunkSize 1).bind fun width =>
      let last := min (satAddU64 f width) to'
      let out := out ++ [(f, last)]
      if last = to' then some out
      else (addU64 last 1).bind fun next => pushChunkedChecked to' chunkSize fuel next out

/-- One turn of the loop over the blocks present, checked. -/
def gapStepChecked (fuel head chunkSize : ℕ) (st : List (ℕ × ℕ) × ℕ) (present : ℕ) :
    Option (List (ℕ × ℕ) × ℕ) :=
  if present > head ∨ present < st.2 then some st
  else if present > st.2 then
    (subU64 present 1).bind fun to' =>
      (pushChunkedChecked to' chunkSize fuel st.2 st.1).map fun chunks =>
        (chunks, satAddU64 present 1)
  else some (st.1, satAddU64 present 1)

/-- **`split_gaps_into_chunks`, checked.** -/
def splitGapsChecked (fuel head : ℕ) (existingSorted : List ℕ) (chunkSize : ℕ) :
    Option (List (ℕ × ℕ)) :=
  if chunkSize = 0 then none
  else
    (existingSorted.foldlM (gapStepChecked fuel head chunkSize) ([], 0)).bind fun st =>
      if st.2 ≤ head then pushChunkedChecked head chunkSize fuel st.2 st.1 else some st.1

/-! ## One gap -/

/-- At most `chunk_size` wide. -/
def Fits (chunkSize : ℕ) (c : ℕ × ℕ) : Prop := c.2 - c.1 + 1 ≤ chunkSize

variable {head chunkSize fuel f to' cursor present n : ℕ} {out chunks : List (ℕ × ℕ)}
variable {existing seen : List ℕ}

/-- **`push_chunked` tiles its range**, and the checked loop agrees with
the plain one from any fuel past the width. -/
theorem pushChunkedLoop_tiles (f fuel' : ℕ) (out : List (ℕ × ℕ)) (hto : to' ≤ i64Max)
    (hsize : 1 ≤ chunkSize) (hf : f ≤ to') (hfuel : to' - f < fuel) (hfuel' : to' - f < fuel') :
    ∃ new, Tiles (Fits chunkSize) new (Set.Icc f to') ∧
      pushChunkedLoop to' chunkSize fuel f out = out ++ new ∧
      pushChunkedChecked to' chunkSize fuel' f out = some (out ++ new) := by
  induction fuel generalizing f fuel' out with
  | zero => omega
  | succ fuel ih =>
    obtain ⟨fuel', rfl⟩ : ∃ k, fuel' = k + 1 := ⟨fuel' - 1, by omega⟩
    have hwidth : subU64 chunkSize 1 = some (chunkSize - 1) := if_pos hsize
    simp only [pushChunkedLoop, pushChunkedChecked, hwidth, Option.bind_some]
    have hlast : f ≤ min (satAddU64 f (chunkSize - 1)) to' := by
      simp only [satAddU64, u64Max, i64Max] at *
      omega
    have hwide : min (satAddU64 f (chunkSize - 1)) to' - f + 1 ≤ chunkSize := by
      simp only [satAddU64]
      omega
    generalize hl : min (satAddU64 f (chunkSize - 1)) to' = last at hlast hwide
    have hle : last ≤ to' := hl ▸ min_le_right _ _
    have hpushed : Tiles (Fits chunkSize) [(f, last)] (Set.Icc f last) := .singleton hlast hwide
    by_cases hend : last = to'
    · subst hend
      rw [if_pos rfl, if_pos rfl]
      exact ⟨[(f, last)], hpushed, rfl, rfl⟩
    · -- `last` is below the end, so the next turn starts past it with less fuel to need.
      rw [if_neg hend, if_neg hend]
      have hnext : addU64 last 1 = some (last + 1) := by
        refine if_pos ?_
        simp only [u64Max, i64Max] at *
        omega
      obtain ⟨new, htiles, hloop, hchecked⟩ := ih (last + 1) fuel' (out ++ [(f, last)])
        (by omega) (by omega) (by omega)
      refine ⟨(f, last) :: new, ?_, ?_, ?_⟩
      · have hboth : Tiles (Fits chunkSize) ([(f, last)] ++ new)
            (Set.Icc f last ∪ Set.Icc (last + 1) to') := by
          refine hpushed.append htiles ?_
          intro a ha b hb
          exact Nat.lt_of_le_of_lt ha.2 hb.1
        refine hboth.congr fun n => ?_
        simp only [Set.mem_union, Set.mem_Icc]
        omega
      · rw [hloop, List.append_assoc, List.singleton_append]
      · rw [hnext, Option.bind_some, hchecked, List.append_assoc, List.singleton_append]

/-- A gap whose end is below `fuel`. -/
theorem pushChunked_tiles (out : List (ℕ × ℕ)) (hto : to' ≤ i64Max) (hsize : 1 ≤ chunkSize)
    (hf : f ≤ to') (hfuel : to' < fuel) :
    ∃ new, Tiles (Fits chunkSize) new (Set.Icc f to') ∧
      pushChunked out f to' chunkSize = out ++ new ∧
      pushChunkedChecked to' chunkSize fuel f out = some (out ++ new) :=
  pushChunkedLoop_tiles f fuel out hto hsize hf (Nat.lt_succ_self _) (by omega)

/-! ## The blocks present -/

/-- **The loop over the blocks present**, up to its cursor: the chunks
tile what is below it and not seen, all that was seen is below it, and
the cursor is one past a block that was. -/
structure TilesUpTo (head chunkSize : ℕ) (seen : List ℕ) (st : List (ℕ × ℕ) × ℕ) : Prop where
  tiles : Tiles (Fits chunkSize) st.1 {n | n < st.2 ∧ n ∉ seen}
  passed : ∀ b ∈ seen, b ≤ head → b < st.2
  top : st.2 ≤ head + 1
  last : st.2 = 0 ∨ st.2 - 1 ∈ seen

theorem TilesUpTo.start : TilesUpTo head chunkSize [] ([], 0) where
  tiles := Tiles.nil.congr fun n => by simp
  passed := fun b hb => by cases hb
  top := Nat.zero_le _
  last := .inl rfl

/-- A block above the head or below the cursor changes nothing. -/
theorem TilesUpTo.skip {st : List (ℕ × ℕ) × ℕ} (h : TilesUpTo head chunkSize seen st)
    (hsorted : ∀ b ∈ seen, b ≤ present) (hskip : present > head ∨ present < st.2) :
    TilesUpTo head chunkSize (seen ++ [present]) st where
  tiles := by
    refine h.tiles.congr fun n => ?_
    simp only [Set.mem_ofPred_eq, List.mem_append, List.mem_singleton, not_or]
    refine and_congr_right fun hn => ⟨fun hns => ⟨hns, ?_⟩, fun hns => hns.1⟩
    rintro rfl
    have htop : st.2 ≤ head + 1 := h.top
    -- Above the head it is no block below the cursor; below the cursor it is the last one seen.
    rcases hskip with hab | hbelow
    · omega
    · rcases h.last with hzero | hseen
      · omega
      · have hle : st.2 - 1 ≤ n := hsorted _ hseen
        exact hns ((show st.2 - 1 = n by omega) ▸ hseen)
  passed := by
    intro b hb hbh
    rcases List.mem_append.mp hb with hb | hb
    · exact h.passed b hb hbh
    · obtain rfl := List.mem_singleton.mp hb
      omega
  top := h.top
  last := h.last.imp_right (List.mem_append_left _)

/-- **A block at or past the cursor**: the gap before it is tiled, and
the cursor moves past it. -/
theorem TilesUpTo.advance {st : List (ℕ × ℕ) × ℕ} {new : List (ℕ × ℕ)}
    (h : TilesUpTo head chunkSize seen st) (hhead : present ≤ head) (hcur : st.2 ≤ present)
    (hnew : Tiles (Fits chunkSize) new (Set.Ico st.2 present)) :
    TilesUpTo head chunkSize (seen ++ [present]) (st.1 ++ new, present + 1) where
  tiles := by
    have hboth : Tiles (Fits chunkSize) (st.1 ++ new)
        ({n | n < st.2 ∧ n ∉ seen} ∪ Set.Ico st.2 present) := by
      refine h.tiles.append hnew ?_
      intro a ha b hb
      exact Nat.lt_of_lt_of_le ha.1 hb.1
    refine hboth.congr fun n => ?_
    simp only [Set.mem_union, Set.mem_ofPred_eq, Set.mem_Ico, List.mem_append, List.mem_singleton,
      not_or]
    constructor
    · rintro (⟨hn, hns⟩ | ⟨hge, hlt⟩)
      · exact ⟨by omega, hns, by omega⟩
      · refine ⟨by omega, fun hns => ?_, by omega⟩
        have hpassed : n < st.2 := h.passed n hns (by omega)
        omega
    · rintro ⟨hn, hns, hne⟩
      rcases Nat.lt_or_ge n st.2 with hlt | hge
      · exact .inl ⟨hlt, hns⟩
      · exact .inr ⟨hge, by omega⟩
  passed := by
    intro b hb hbh
    rcases List.mem_append.mp hb with hb | hb
    · have hlt : b < st.2 := h.passed b hb hbh
      simp only
      omega
    · obtain rfl := List.mem_singleton.mp hb
      exact Nat.lt_succ_self _
  top := Nat.succ_le_succ hhead
  last := .inr (by simp)

/-- **One turn keeps the tiling**, and the checked one takes it. -/
theorem TilesUpTo.step {st : List (ℕ × ℕ) × ℕ} (h : TilesUpTo head chunkSize seen st)
    (hsorted : ∀ b ∈ seen, b ≤ present) (hhead : head ≤ i64Max) (hsize : 1 ≤ chunkSize)
    (hfuel : head < fuel) :
    TilesUpTo head chunkSize (seen ++ [present]) (gapStep head chunkSize st present) ∧
      gapStepChecked fuel head chunkSize st present =
        some (gapStep head chunkSize st present) := by
  obtain ⟨chunks, cursor⟩ := st
  simp only [gapStep, gapStepChecked]
  by_cases hskip : present > head ∨ present < cursor
  · rw [if_pos hskip, if_pos hskip]
    exact ⟨h.skip hsorted hskip, rfl⟩
  · rw [if_neg hskip, if_neg hskip]
    have hple : present ≤ head := by omega
    have hcur : cursor ≤ present := by omega
    have hnext : satAddU64 present 1 = present + 1 := by
      refine satAddU64_of_le ?_
      simp only [u64Max, i64Max] at *
      omega
    rw [hnext]
    by_cases hgap : present > cursor
    · have hsub : subU64 present 1 = some (present - 1) := if_pos (by omega)
      obtain ⟨new, htiles, hplain, hchecked⟩ := pushChunked_tiles chunks
        (show present - 1 ≤ i64Max by omega) hsize (show cursor ≤ present - 1 by omega)
        (show present - 1 < fuel by omega)
      have hico : Tiles (Fits chunkSize) new (Set.Ico cursor present) := by
        refine htiles.congr fun n => ?_
        simp only [Set.mem_Icc, Set.mem_Ico]
        omega
      have hadvance := h.advance hple hcur hico
      rw [if_pos hgap, if_pos hgap, hplain, hsub, Option.bind_some, hchecked]
      exact ⟨hadvance, rfl⟩
    · rw [if_neg hgap, if_neg hgap]
      have hempty : Tiles (Fits chunkSize) [] (Set.Ico cursor present) := by
        have heq : cursor = present := by omega
        rw [heq, Set.Ico_self]
        exact Tiles.nil
      have hadvance := h.advance hple hcur hempty
      rw [List.append_nil] at hadvance
      exact ⟨hadvance, rfl⟩

/-- **The loop keeps it**, over blocks in ascending order. -/
theorem TilesUpTo.foldl {st : List (ℕ × ℕ) × ℕ} (h : TilesUpTo head chunkSize seen st)
    (hsorted : (seen ++ existing).Pairwise (· ≤ ·)) (hhead : head ≤ i64Max)
    (hsize : 1 ≤ chunkSize) (hfuel : head < fuel) :
    TilesUpTo head chunkSize (seen ++ existing) (existing.foldl (gapStep head chunkSize) st) ∧
      existing.foldlM (gapStepChecked fuel head chunkSize) st =
        some (existing.foldl (gapStep head chunkSize) st) := by
  induction existing generalizing seen st with
  | nil => simpa using h
  | cons present rest ih =>
    have hbelow : ∀ b ∈ seen, b ≤ present := by
      intro b hb
      exact (List.pairwise_append.mp hsorted).2.2 b hb present List.mem_cons_self
    obtain ⟨hstep, hchecked⟩ := h.step hbelow hhead hsize hfuel
    have hassoc : seen ++ present :: rest = seen ++ [present] ++ rest := by
      rw [List.append_assoc, List.singleton_append]
    rw [hassoc] at hsorted ⊢
    obtain ⟨hrest, hrestChecked⟩ := ih hstep hsorted
    refine ⟨hrest, ?_⟩
    rw [List.foldlM_cons, hchecked]
    exact hrestChecked

/-! ## The partition -/

/-- **An exact partition of the gaps.** The checked function stops
within any fuel past the head, overflows nowhere and answers as the
plain one; the chunks ascend, none is empty or wider than `chunk_size`,
they are disjoint, and together they are the blocks up to the head that
are not present. -/
theorem splitGaps_partitions (hsorted : existing.Pairwise (· ≤ ·)) (hhead : head ≤ i64Max)
    (hsize : 1 ≤ chunkSize) :
    ∃ chunks, splitGapsIntoChunks head existing chunkSize = some chunks ∧
      (∀ fuel, head < fuel → splitGapsChecked fuel head existing chunkSize = some chunks) ∧
      Tiles (Fits chunkSize) chunks {n | n ≤ head ∧ n ∉ existing} ∧
      chunks.Pairwise fun c d => Disjoint (Set.Icc c.1 c.2) (Set.Icc d.1 d.2) := by
  have hloop : ∀ fuel, head < fuel →
      TilesUpTo head chunkSize existing (existing.foldl (gapStep head chunkSize) ([], 0)) ∧
        existing.foldlM (gapStepChecked fuel head chunkSize) ([], 0) =
          some (existing.foldl (gapStep head chunkSize) ([], 0)) := by
    intro fuel hfuel
    exact TilesUpTo.start.foldl hsorted hhead hsize hfuel
  have hinv := (hloop (head + 1) (Nat.lt_succ_self _)).1
  have hzero : chunkSize ≠ 0 := by omega
  simp only [splitGapsIntoChunks, splitGapsChecked, if_neg hzero]
  generalize existing.foldl (gapStep head chunkSize) ([], 0) = st at hloop hinv
  obtain ⟨chunks, cursor⟩ := st
  have htop : cursor ≤ head + 1 := hinv.top
  by_cases hrest : cursor ≤ head
  · -- What is left between the last block present and the head.
    obtain ⟨new, htiles, hplain, -⟩ := pushChunked_tiles chunks hhead hsize hrest
      (Nat.lt_succ_self head)
    have hall : Tiles (Fits chunkSize) (chunks ++ new) {n | n ≤ head ∧ n ∉ existing} := by
      have hboth := hinv.tiles.append htiles fun a ha b hb => Nat.lt_of_lt_of_le ha.1 hb.1
      refine hboth.congr fun n => ?_
      simp only [Set.mem_union, Set.mem_ofPred_eq, Set.mem_Icc]
      constructor
      · rintro (⟨hn, hns⟩ | ⟨hge, hle⟩)
        · exact ⟨by omega, hns⟩
        · refine ⟨hle, fun hns => ?_⟩
          have hpassed : n < cursor := hinv.passed n hns hle
          omega
      · rintro ⟨hn, hns⟩
        rcases Nat.lt_or_ge n cursor with hlt | hge
        · exact .inl ⟨hlt, hns⟩
        · exact .inr ⟨hge, hn⟩
    refine ⟨chunks ++ new, by rw [if_pos hrest, hplain], ?_, hall, hall.disjoint⟩
    intro fuel hfuel
    obtain ⟨new', -, hplain', hchecked⟩ := pushChunked_tiles chunks hhead hsize hrest hfuel
    rw [(hloop fuel hfuel).2, Option.bind_some, if_pos hrest, hchecked, ← hplain', hplain]
  · have hall : Tiles (Fits chunkSize) chunks {n | n ≤ head ∧ n ∉ existing} := by
      refine hinv.tiles.congr fun n => ?_
      simp only [Set.mem_ofPred_eq]
      have hcur : n < cursor ↔ n ≤ head := by omega
      rw [hcur]
    refine ⟨chunks, by rw [if_neg hrest], ?_, hall, hall.disjoint⟩
    intro fuel hfuel
    rw [(hloop fuel hfuel).2, Option.bind_some, if_neg hrest]

/-- Duplicates, a block past the head, and a gap that ends at it. -/
theorem splitGaps_partitions_ten :
    ∃ chunks, splitGapsIntoChunks 10 [0, 2, 2, 300] 3 = some chunks ∧
      (∀ fuel, 10 < fuel → splitGapsChecked fuel 10 [0, 2, 2, 300] 3 = some chunks) ∧
      Tiles (Fits 3) chunks {n | n ≤ 10 ∧ n ∉ [0, 2, 2, 300]} ∧
      chunks.Pairwise fun c d => Disjoint (Set.Icc c.1 c.2) (Set.Icc d.1 d.2) :=
  splitGaps_partitions (by decide) (by decide) (by decide)

example : splitGapsIntoChunks 10 [0, 1, 2, 200, 300] 100 = some [(3, 10)] := by decide

example : splitGapsIntoChunks 3 [] 1 = some [(0, 0), (1, 1), (2, 2), (3, 3)] := by decide

end Backfill

end AllfeatExplorer
