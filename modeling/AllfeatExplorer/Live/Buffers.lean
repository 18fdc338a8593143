import AllfeatExplorer.Lib.StableSort
import AllfeatExplorer.Live.Model.Buffers

/-!
# The block buffers show the top of what was seen

A seed is sorted, rid of repeated numbers and cut off; a frame takes the
place of the block of its number, or its own place among the others. Both
leave the greatest numbers seen, so a buffer is told by what came in, in
whatever order it did.
-/

namespace AllfeatExplorer

namespace Live

open scoped List

section Dedupe

variable {α κ : Type} [DecidableEq κ] {key : α → κ} {l : List α} {a b : α} {seen : List κ}

/-! ## Repeated keys -/

theorem dedupeBy_sublist : dedupeBy key seen l <+ l := by
  induction l generalizing seen with
  | nil => exact List.Sublist.refl []
  | cons a l ih =>
    rw [dedupeBy]
    split
    · exact ih.cons a
    · exact ih.cons_cons a

/-- Of a key that was seen, nothing stays. -/
theorem key_not_mem_of_mem_dedupeBy (h : b ∈ dedupeBy key seen l) : key b ∉ seen := by
  induction l generalizing seen with
  | nil => exact absurd h List.not_mem_nil
  | cons a l ih =>
    rw [dedupeBy] at h
    split at h
    · exact ih h
    · rcases List.mem_cons.mp h with rfl | hrest
      · assumption
      · exact fun hmem => ih hrest (List.mem_cons_of_mem _ hmem)

/-- **Each key stays once.** -/
theorem nodup_map_dedupeBy : ((dedupeBy key seen l).map key).Nodup := by
  induction l generalizing seen with
  | nil => exact List.nodup_nil
  | cons a l ih =>
    rw [dedupeBy]
    split
    · exact ih
    · rw [List.map_cons, List.nodup_cons]
      refine ⟨fun hmem => ?_, ih⟩
      obtain ⟨b, hb, hkey⟩ := List.mem_map.mp hmem
      exact key_not_mem_of_mem_dedupeBy hb (hkey ▸ List.mem_cons_self)

/-- **Each key stays.** -/
theorem mem_map_dedupeBy {k : κ} :
    k ∈ (dedupeBy key seen l).map key ↔ k ∈ l.map key ∧ k ∉ seen := by
  induction l generalizing seen with
  | nil => simp [dedupeBy]
  | cons a l ih =>
    rw [dedupeBy, List.map_cons, List.mem_cons]
    split
    · rename_i hseen
      rw [ih]
      constructor
      · exact fun h => ⟨.inr h.1, h.2⟩
      · rintro ⟨rfl | hmem, hnot⟩
        · exact absurd hseen hnot
        · exact ⟨hmem, hnot⟩
    · rename_i hseen
      rw [List.map_cons, List.mem_cons, ih, List.mem_cons]
      constructor
      · rintro (rfl | ⟨hmem, hnot⟩)
        · exact ⟨.inl rfl, hseen⟩
        · exact ⟨.inr hmem, fun h => hnot (.inr h)⟩
      · rintro ⟨rfl | hmem, hnot⟩
        · exact .inl rfl
        · by_cases heq : k = key a
          · exact .inl heq
          · exact .inr ⟨hmem, fun h => h.elim heq hnot⟩

/-- **What stays of a key is its first.** -/
theorem find?_of_mem_dedupeBy (h : b ∈ dedupeBy key seen l) :
    l.find? (fun c => key c = key b) = some b := by
  induction l generalizing seen with
  | nil => exact absurd h List.not_mem_nil
  | cons a l ih =>
    have hnot := key_not_mem_of_mem_dedupeBy h
    rw [dedupeBy] at h
    by_cases heq : key a = key b
    · split at h
      · rename_i hseen
        exact absurd (heq ▸ hseen) hnot
      · rcases List.mem_cons.mp h with rfl | hrest
        · exact List.find?_cons_of_pos (decide_eq_true heq)
        · exact absurd (heq ▸ List.mem_cons_self) (key_not_mem_of_mem_dedupeBy hrest)
    · rw [List.find?_cons_of_neg (by simpa using heq)]
      split at h
      · exact ih h
      · rcases List.mem_cons.mp h with rfl | hrest
        · exact absurd rfl heq
        · exact ih hrest

end Dedupe

/-! ## A seed -/

section Seeds

variable {α : Type} {key : α → ℕ} {cap : ℕ} {items : List α}

/-- Newest first. -/
def byKeyDesc (key : α → ℕ) (a b : α) : Bool := decide (key b ≤ key a)

/-- What a seed leaves in a buffer. -/
def seeded (key : α → ℕ) (cap : ℕ) (items : List α) : List α :=
  (dedupeBy key [] (items.mergeSort (byKeyDesc key))).take cap

/-- **A seed leaves the greatest of its keys.** -/
theorem seeded_isTop : IsTop cap (· ∈ items.map key) ((seeded key cap items).map key) := by
  have hsorted : (dedupeBy key [] (items.mergeSort (byKeyDesc key))).Pairwise fun a b =>
      key b ≤ key a := (pairwise_mergeSort_desc key items).sublist dedupeBy_sublist
  have hnodup : (dedupeBy key [] (items.mergeSort (byKeyDesc key))).Pairwise fun a b =>
      key a ≠ key b := List.pairwise_map.mp nodup_map_dedupeBy
  have hdesc : ((dedupeBy key [] (items.mergeSort (byKeyDesc key))).map key).Pairwise (· > ·) := by
    rw [List.pairwise_map]
    exact hsorted.imp₂ (fun _ _ hle hne => lt_of_le_of_ne hle hne.symm) hnodup
  rw [seeded, List.map_take]
  refine (IsTop.take hdesc).congr fun k => ?_
  rw [mem_map_dedupeBy, ((List.mergeSort_perm items (byKeyDesc key)).map key).mem_iff]
  exact and_iff_left List.not_mem_nil

/-- **Of a number, a seed leaves the first.** -/
theorem find?_of_mem_seeded {b : α} (h : b ∈ seeded key cap items) :
    items.find? (fun c => key c = key b) = some b := by
  have hfind := find?_of_mem_dedupeBy (List.mem_of_mem_take h)
  rw [← List.head?_filter, filter_mergeSort (byKeyDesc key) (desc_trans key) (desc_total key),
    List.head?_filter] at hfind
  · exact hfind
  · intro c _ d _ hc hd
    rw [decide_eq_true_eq] at hc hd
    rw [byKeyDesc, decide_eq_true_eq]
    omega

/-- **A buffer shows the top of what was seen**: the greatest `cap` of the
distinct numbers of the seed and of the frames, in descending order, and
under each the last frame of it, or else the seed's first. -/
structure ShowsTop (key : α → ℕ) (cap : ℕ) (seed frames shown : List α) : Prop where
  top : IsTop cap (· ∈ (seed ++ frames).map key) (shown.map key)
  entry : ∀ b ∈ shown, latest key seed frames (key b) = some b

theorem seeded_nil : seeded key cap [] = [] := by
  rw [seeded, List.mergeSort_nil, dedupeBy, List.take_nil]

/-- Frames on top of a seed. -/
theorem showsTop_seeded (key : α → ℕ) (cap : ℕ) (items frames : List α) :
    ShowsTop key cap items frames (frames.foldl (upsert key cap) (seeded key cap items)) := by
  obtain ⟨htop, hentry⟩ := foldl_upsert_isTop seeded_isTop fun _ hb => find?_of_mem_seeded hb
  exact ⟨htop, hentry⟩

end Seeds

/-! ## The two buffers -/

/-- Frames reach each buffer on its own. -/
theorem foldl_pushBlock (store : BlockBuffers) (frames : List Block) :
    (frames.foldl BlockBuffers.pushBlock store).blocks =
        frames.foldl (upsert Block.number blocksCap) store.blocks ∧
      (frames.foldl BlockBuffers.pushBlock store).waveformBlocks =
        (frames.map blockToWaveform).foldl (upsert WaveformBlock.number waveformCap)
          store.waveformBlocks := by
  induction frames generalizing store with
  | nil => exact ⟨rfl, rfl⟩
  | cons b frames ih => exact ih (store.pushBlock b)

/-- **The block buffers show the top of what was seen**, after any seed or
a clear and whatever frames come then; the waveform buffer does so of its
own seed and the frames' projections. -/
theorem blockBuffers_showTop (store : BlockBuffers) (items : List Block)
    (waveformItems : List WaveformBlock) (frames : List Block) :
    (ShowsTop Block.number blocksCap items frames
        (frames.foldl BlockBuffers.pushBlock (store.seedBlocks items)).blocks ∧
      ShowsTop Block.number blocksCap [] frames
        (frames.foldl BlockBuffers.pushBlock BlockBuffers.clearLive).blocks) ∧
    ShowsTop WaveformBlock.number waveformCap waveformItems (frames.map blockToWaveform)
        (frames.foldl BlockBuffers.pushBlock (store.seedWaveform waveformItems)).waveformBlocks ∧
      ShowsTop WaveformBlock.number waveformCap [] (frames.map blockToWaveform)
        (frames.foldl BlockBuffers.pushBlock BlockBuffers.clearLive).waveformBlocks := by
  refine ⟨⟨?_, ?_⟩, ?_, ?_⟩
  · rw [(foldl_pushBlock _ frames).1]
    exact showsTop_seeded Block.number blocksCap items frames
  · have h := showsTop_seeded Block.number blocksCap [] frames
    rw [seeded_nil] at h
    rwa [(foldl_pushBlock _ frames).1]
  · rw [(foldl_pushBlock _ frames).2]
    exact showsTop_seeded WaveformBlock.number waveformCap waveformItems _
  · have h := showsTop_seeded WaveformBlock.number waveformCap [] (frames.map blockToWaveform)
    rw [seeded_nil] at h
    rwa [(foldl_pushBlock _ frames).2]

end Live

end AllfeatExplorer
