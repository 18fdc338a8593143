import AllfeatExplorer.Indexer.Model.Buffer
import AllfeatExplorer.Lib.Run

/-!
# The indexes of the pending buffer

The two hash maps are functions of the list of blocks after any calls
(`coherent_after`): a number finds the position of the last block with
it, a hash the coordinates of the last extrinsic with it. The lookups are
then statements about the list. A lookup by hash goes through both maps:
it is exact just if no block is hidden behind a later one of its number
with a hash that no later block has.
-/

namespace AllfeatExplorer

/-- The block has an extrinsic with this hash. -/
def BufferedBlock.Holds (b : BufferedBlock) (h : Bytes32) : Prop :=
  ∃ e ∈ b.extrinsics, decodeHex32 e.hash = some h

/-- The extrinsics of the block have distinct indices. -/
def BufferedBlock.DistinctIndices (b : BufferedBlock) : Prop :=
  (b.extrinsics.map Extrinsic.index).Nodup

theorem BufferedBlock.mem_hashEntries {b : BufferedBlock} {h : Bytes32} {v : ℕ × ℕ} :
    (h, v) ∈ b.hashEntries ↔
      ∃ e ∈ b.extrinsics, decodeHex32 e.hash = some h ∧ v = (b.number, e.index) := by
  simp [hashEntries, eq_comm]

/-- In a block with distinct indices, an index finds its extrinsic. -/
theorem BufferedBlock.DistinctIndices.find {b : BufferedBlock} (hb : b.DistinctIndices)
    {e : Extrinsic} (he : e ∈ b.extrinsics) :
    (b.extrinsics.find? fun e' => e'.index = e.index) = some e := by
  obtain ⟨pre, post, hsplit⟩ := List.append_of_mem he
  rw [DistinctIndices, hsplit, List.map_append, List.map_cons, List.nodup_append] at hb
  rw [List.find?_eq_some_iff_append]
  refine ⟨by simp, pre, post, hsplit, fun e' he' => ?_⟩
  have hne := hb.2.2 e'.index (List.mem_map_of_mem he') e.index List.mem_cons_self
  simpa using hne

namespace IndexedBuffer

variable {buf : IndexedBuffer} {blocks : List BufferedBlock} {b : BufferedBlock} {n : ℕ}
  {h : Bytes32} {calls : List Call}

/-! ## The maps as functions of the blocks -/

/-- The positions a list of blocks gives its numbers. -/
def positions (blocks : List BufferedBlock) : ℕ → Option ℕ :=
  ofWrites (blocks.zipIdx.map fun (b, i) => (b.number, i))

/-- The coordinates a list of blocks gives its hashes. -/
def coordinates (blocks : List BufferedBlock) : Bytes32 → Option (ℕ × ℕ) :=
  ofWrites (blocks.flatMap BufferedBlock.hashEntries)

theorem positions_concat :
    positions (blocks ++ [b]) =
      Function.update (positions blocks) b.number (some blocks.length) := by
  rw [positions, List.zipIdx_append, List.map_append, ofWrites_append]
  simp [writeAll, positions]

theorem coordinates_concat :
    coordinates (blocks ++ [b]) = writeAll (coordinates blocks) b.hashEntries := by
  rw [coordinates, List.flatMap_append, ofWrites_append, List.flatMap_singleton, coordinates]

/-- **A number finds the last block with it.** -/
theorem positions_eq_some_iff {pos : ℕ} :
    positions blocks n = some pos ↔ ∃ pre b post, blocks = pre ++ b :: post ∧ pre.length = pos ∧
      b.number = n ∧ ∀ b' ∈ post, b'.number ≠ n := by
  induction blocks using List.reverseRecOn generalizing pos with
  | nil => simp [positions, ofWrites]
  | append_singleton blocks b ih =>
    rw [positions_concat]
    by_cases hn : b.number = n
    · rw [hn, Function.update_self, Option.some.injEq]
      constructor
      · rintro rfl
        exact ⟨blocks, b, [], rfl, rfl, hn, by simp⟩
      · rintro ⟨pre, b', post, heq, rfl, hb', hpost⟩
        rcases List.eq_nil_or_concat post with rfl | ⟨post', last, rfl⟩
        · rw [List.append_inj_left' heq rfl]
        · rw [List.concat_eq_append, ← List.cons_append, ← List.append_assoc] at heq
          obtain rfl := List.singleton_inj.1 (List.append_inj_right' heq rfl)
          exact absurd hn (hpost b (by simp))
    · rw [Function.update_of_ne (Ne.symm hn), ih]
      constructor
      · rintro ⟨pre, b', post, rfl, hpos, hb', hpost⟩
        refine ⟨pre, b', post ++ [b], by simp, hpos, hb', fun other hother => ?_⟩
        rcases List.mem_append.1 hother with hin | hin
        · exact hpost other hin
        · rwa [List.mem_singleton.1 hin]
      · rintro ⟨pre, b', post, heq, hpos, hb', hpost⟩
        rcases List.eq_nil_or_concat post with rfl | ⟨post', last, rfl⟩
        · obtain rfl := List.singleton_inj.1 (List.append_inj_right' heq rfl)
          exact absurd hb' hn
        · rw [List.concat_eq_append, ← List.cons_append, ← List.append_assoc] at heq
          exact ⟨pre, b', post', List.append_inj_left' heq rfl, hpos, hb',
            fun other hother => hpost other (by simp [hother])⟩

theorem positions_isSome_iff : (positions blocks n).isSome ↔ ∃ b ∈ blocks, b.number = n := by
  rw [positions, ofWrites_isSome_iff]
  constructor
  · rintro ⟨kv, hkv, hn⟩
    obtain ⟨⟨b, i⟩, hbi, rfl⟩ := List.mem_map.1 hkv
    exact ⟨b, List.fst_mem_of_mem_zipIdx hbi, hn⟩
  · rintro ⟨b, hb, hn⟩
    obtain ⟨i, hi⟩ := List.mem_iff_getElem?.1 hb
    exact ⟨(b.number, i), List.mem_map.2 ⟨(b, i), List.mk_mem_zipIdx_iff_getElem?.2 hi, rfl⟩, hn⟩

/-- **A hash finds an extrinsic of the last block that holds it.** -/
theorem exists_of_coordinates {v : ℕ × ℕ} (hv : coordinates blocks h = some v) :
    ∃ pre b post, blocks = pre ++ b :: post ∧ (∀ b' ∈ post, ¬ b'.Holds h) ∧
      ∃ e ∈ b.extrinsics, decodeHex32 e.hash = some h ∧ v = (b.number, e.index) := by
  induction blocks using List.reverseRecOn with
  | nil => simp [coordinates, ofWrites] at hv
  | append_singleton blocks b ih =>
    rw [coordinates_concat, writeAll_eq_or] at hv
    rcases hb : ofWrites b.hashEntries h with - | w
    · have hnot : ¬ b.Holds h := by
        rintro ⟨e, he, heh⟩
        have hsome : (ofWrites b.hashEntries h).isSome := ofWrites_isSome_iff.2
          ⟨(h, (b.number, e.index)), BufferedBlock.mem_hashEntries.2 ⟨e, he, heh, rfl⟩, rfl⟩
        rw [hb] at hsome
        exact absurd hsome (by simp)
      rw [hb, Option.none_or] at hv
      obtain ⟨pre, b', post, rfl, hpost, hlast⟩ := ih hv
      refine ⟨pre, b', post ++ [b], by simp, fun other hother => ?_, hlast⟩
      rcases List.mem_append.1 hother with hin | hin
      · exact hpost other hin
      · rwa [List.mem_singleton.1 hin]
    · rw [hb, Option.some_or, Option.some.injEq] at hv
      subst hv
      obtain ⟨pre, post, hentries, -⟩ := ofWrites_eq_some_iff.1 hb
      have hmem : (h, w) ∈ b.hashEntries := by simp [hentries]
      exact ⟨blocks, b, [], rfl, by simp, BufferedBlock.mem_hashEntries.1 hmem⟩

theorem coordinates_isSome_iff : (coordinates blocks h).isSome ↔ ∃ b ∈ blocks, b.Holds h := by
  rw [coordinates, ofWrites_isSome_iff]
  constructor
  · rintro ⟨⟨h', v⟩, hkv, rfl⟩
    obtain ⟨b, hb, hentry⟩ := List.mem_flatMap.1 hkv
    obtain ⟨e, he, heh, -⟩ := BufferedBlock.mem_hashEntries.1 hentry
    exact ⟨b, hb, e, he, heh⟩
  · rintro ⟨b, hb, e, he, heh⟩
    have hentry := BufferedBlock.mem_hashEntries.2 ⟨e, he, heh, rfl⟩
    exact ⟨_, List.mem_flatMap.2 ⟨b, hb, hentry⟩, rfl⟩

/-! ## Coherence -/

/-- **The indexes are those of the blocks**, and the blocks fit. -/
structure Coherent (buf : IndexedBuffer) : Prop where
  byNumber_eq : buf.byNumber = positions buf.blocks
  byXtHash_eq : buf.byXtHash = coordinates buf.blocks
  length_le : buf.blocks.length ≤ bufferCapacity

theorem makeRoom_blocks : buf.makeRoom.blocks =
    if buf.blocks.length = bufferCapacity then buf.blocks.tail else buf.blocks := by
  unfold makeRoom
  split
  · split
    · next hnil => rw [hnil, List.tail_nil]
    · next hcons => rw [hcons]; rfl
  · rfl

/-- Room is made by building both indexes anew, or is there. -/
theorem makeRoom_eq : buf.makeRoom = buf ∨ ∃ rest byNumber,
    buf.makeRoom = ({ buf with
      blocks := rest, byNumber := byNumber }).reindexPositions.rebuildXtIndex := by
  unfold makeRoom
  split
  · split
    · exact .inl rfl
    · exact .inr ⟨_, _, rfl⟩
  · exact .inl rfl

/-- The blocks are those of the buffer without indexes. -/
theorem appendBlock_toPendingBuffer :
    (buf.appendBlock b).toPendingBuffer = buf.toPendingBuffer.appendBlock b := by
  have hblocks : (buf.appendBlock b).blocks = buf.makeRoom.blocks ++ [b] := rfl
  rw [makeRoom_blocks] at hblocks
  exact congrArg PendingBuffer.mk hblocks

theorem popFinalized_fst {byNumber : ℕ → Option ℕ} :
    (popFinalized n blocks byNumber).1 = blocks.dropWhile fun b => b.number ≤ n := by
  induction blocks generalizing byNumber with
  | nil => rfl
  | cons front rest ih =>
    rw [popFinalized, List.dropWhile_cons]
    by_cases hfront : front.number ≤ n
    · rw [if_pos hfront, if_pos (decide_eq_true hfront), ih]
    · rw [if_neg hfront, if_neg (by simpa using hfront)]

/-- `advance_finalized` drops what is finalized from the front. -/
theorem advanceFinalized_blocks :
    (buf.advanceFinalized n).blocks = buf.blocks.dropWhile fun b => b.number ≤ n :=
  popFinalized_fst

theorem coherent_new : new.Coherent := ⟨rfl, rfl, Nat.zero_le _⟩

theorem Coherent.makeRoom (hc : buf.Coherent) :
    buf.makeRoom.Coherent ∧ buf.makeRoom.blocks.length < bufferCapacity := by
  have hle := hc.length_le
  have hlen : buf.makeRoom.blocks.length < bufferCapacity := by
    rw [makeRoom_blocks]
    split
    · rw [List.length_tail]
      unfold bufferCapacity at *
      omega
    · omega
  refine ⟨?_, hlen⟩
  rcases (makeRoom_eq : buf.makeRoom = buf ∨ _) with hsame | ⟨rest, byNumber, hbuilt⟩
  · rwa [hsame]
  · rw [hbuilt] at hlen ⊢
    exact ⟨rfl, rfl, hlen.le⟩

/-- **An append keeps the indexes.** -/
theorem Coherent.appendBlock (hc : buf.Coherent) : (buf.appendBlock b).Coherent := by
  obtain ⟨hroom, hlen⟩ := hc.makeRoom
  refine ⟨?_, ?_, ?_⟩
  · rw [IndexedBuffer.appendBlock, positions_concat, ← hroom.byNumber_eq]
  · rw [IndexedBuffer.appendBlock, coordinates_concat, ← hroom.byXtHash_eq]
  · rw [IndexedBuffer.appendBlock, List.length_append, List.length_singleton]
    exact hlen

/-- **A finalized head rebuilds them.** -/
theorem Coherent.advanceFinalized (hc : buf.Coherent) : (buf.advanceFinalized n).Coherent := by
  refine ⟨rfl, rfl, ?_⟩
  rw [advanceFinalized_blocks]
  exact (List.dropWhile_suffix _).length_le.trans hc.length_le

/-- One call, where no guard is. -/
def step (buf : IndexedBuffer) (call : Call) : Option IndexedBuffer := some (buf.apply call)

theorem run_after : run step new calls = some (after calls) := run_some

/-- **Coherence after any calls.** -/
theorem coherent_after : (after calls).Coherent := by
  refine inv_run (fun buf call buf' hc hstep => ?_) coherent_new run_after
  obtain rfl := Option.some.inj hstep
  cases call with
  | append b => exact hc.appendBlock
  | advance n => exact hc.advanceFinalized

/-- **The number index.** After any calls the buffer is within its
capacity, the keys of the index are the numbers of its blocks, and a key
leads to the last block with that number. -/
theorem number_index (calls : List Call) :
    (after calls).blocks.length ≤ bufferCapacity ∧
      (∀ n, ((after calls).byNumber n).isSome ↔ ∃ b ∈ (after calls).blocks, b.number = n) ∧
      ∀ n pos, (after calls).byNumber n = some pos →
        ∃ b, (after calls).blocks[pos]? = some b ∧ b.number = n ∧
          ∀ later b', pos < later → (after calls).blocks[later]? = some b' → b'.number ≠ n := by
  have hc : (after calls).Coherent := coherent_after
  refine ⟨hc.length_le, fun n => ?_, fun n pos hpos => ?_⟩
  · rw [hc.byNumber_eq]
    exact positions_isSome_iff
  · rw [hc.byNumber_eq] at hpos
    obtain ⟨pre, b, post, hblocks, rfl, hb, hpost⟩ := positions_eq_some_iff.1 hpos
    refine ⟨b, by simp [hblocks], hb, fun later b' hlater hb' => ?_⟩
    refine hpost b' ?_
    rw [hblocks, List.getElem?_append_right hlater.le,
      List.getElem?_cons, if_neg (Nat.sub_ne_zero_of_lt hlater)] at hb'
    exact List.mem_of_getElem? hb'

/-! ## The lookups as functions of the blocks -/

/-- **A lookup by coordinates reads the last block with the number.** -/
theorem Coherent.extrinsicByBlockIdx_eq_some_iff (hc : buf.Coherent) {i : ℕ} {e : Extrinsic} :
    buf.extrinsicByBlockIdx n i = some e ↔ ∃ pre b post, buf.blocks = pre ++ b :: post ∧
      b.number = n ∧ (∀ b' ∈ post, b'.number ≠ n) ∧
        (b.extrinsics.find? fun e' => e'.index = i) = some e := by
  simp only [extrinsicByBlockIdx, Option.bind_eq_bind, Option.bind_eq_some_iff, hc.byNumber_eq,
    positions_eq_some_iff]
  constructor
  · rintro ⟨pos, ⟨pre, b, post, hblocks, rfl, hb, hpost⟩, b', hb', he⟩
    rw [hblocks, List.getElem?_append_right le_rfl, Nat.sub_self, List.getElem?_cons_zero,
      Option.some.injEq] at hb'
    exact ⟨pre, b, post, hblocks, hb, hpost, hb' ▸ he⟩
  · rintro ⟨pre, b, post, hblocks, hb, hpost, he⟩
    exact ⟨pre.length, ⟨pre, b, post, hblocks, rfl, hb, hpost⟩, b, by simp [hblocks], he⟩

theorem extrinsicByHash_eq_some_iff {e : Extrinsic} :
    buf.extrinsicByHash h = some e ↔
      ∃ v, buf.byXtHash h = some v ∧ buf.extrinsicByBlockIdx v.1 v.2 = some e := by
  simp only [extrinsicByHash, Option.bind_eq_bind, Option.bind_eq_some_iff]

/-- What a lookup by hash returns is of a block it holds. -/
theorem Coherent.exists_of_extrinsicByHash (hc : buf.Coherent) {e : Extrinsic}
    (he : buf.extrinsicByHash h = some e) : ∃ b ∈ buf.blocks, e ∈ b.extrinsics := by
  obtain ⟨v, -, hidx⟩ := extrinsicByHash_eq_some_iff.1 he
  obtain ⟨pre, b, post, hblocks, -, -, hfind⟩ := hc.extrinsicByBlockIdx_eq_some_iff.1 hidx
  exact ⟨b, by simp [hblocks], List.mem_of_find?_eq_some hfind⟩

end IndexedBuffer

end AllfeatExplorer
