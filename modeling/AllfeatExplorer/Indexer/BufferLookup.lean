import AllfeatExplorer.Indexer.Buffer
import Mathlib.Data.List.TakeWhile

/-!
# Lookups and finalized heads of the pending buffer

Blocks come in any order of numbers, so a reorg puts a second block with
a number behind the first. A lookup by hash then finds the number of the
block it means and reads another one (`lookup_exact_iff`), and a block
that is finalized behind one that is not stays (`advance_exact_iff`).
-/

open scoped List

namespace AllfeatExplorer

/-- The last element with a property is one element, however the list is
split there. -/
theorem last_unique {α : Type*} {p : α → Prop} {pre post pre' post' : List α} {x x' : α}
    (heq : pre ++ x :: post = pre' ++ x' :: post') (hx : p x) (hx' : p x')
    (hpost : ∀ y ∈ post, ¬ p y) (hpost' : ∀ y ∈ post', ¬ p y) :
    pre = pre' ∧ x = x' ∧ post = post' := by
  rcases List.append_eq_append_iff.1 heq with ⟨mid, rfl, hmid⟩ | ⟨mid, rfl, hmid⟩
  · cases mid with
    | nil => simpa using hmid
    | cons y mid =>
      obtain ⟨rfl, rfl⟩ := List.cons.inj hmid
      exact absurd hx' (hpost x' (by simp))
  · cases mid with
    | nil => simpa [eq_comm] using hmid
    | cons y mid =>
      obtain ⟨rfl, rfl⟩ := List.cons.inj hmid
      exact absurd hx (hpost' x (by simp))

/-- A last element is behind, where one with the property is. -/
theorem last_mem {α : Type*} {p : α → Prop} {pre post pre' post' : List α} {x x' y : α}
    (heq : pre ++ x :: post = pre' ++ x' :: post') (hy : y ∈ post) (hpy : p y)
    (hpost' : ∀ z ∈ post', ¬ p z) : x' ∈ post := by
  rcases List.append_eq_append_iff.1 heq with ⟨mid, rfl, hmid⟩ | ⟨mid, rfl, hmid⟩
  · cases mid with
    | nil =>
      obtain ⟨rfl, rfl⟩ := List.cons.inj hmid
      exact absurd hpy (hpost' y hy)
    | cons z mid =>
      obtain ⟨rfl, rfl⟩ := List.cons.inj hmid
      simp
  · cases mid with
    | nil =>
      obtain ⟨rfl, rfl⟩ := List.cons.inj hmid
      exact absurd hpy (hpost' y hy)
    | cons z mid =>
      obtain ⟨rfl, rfl⟩ := List.cons.inj hmid
      exact absurd hpy (hpost' y (by simp [hy]))

namespace IndexedBuffer

variable {buf : IndexedBuffer} {blocks kept : List BufferedBlock} {b : BufferedBlock} {n : ℕ}
  {h : Bytes32} {calls : List Call}

/-! ## Lookups by hash -/

/-- **The lookup by hash is exact**: what it returns has the hash, and a
hash in the buffer is found. -/
def LookupExact (buf : IndexedBuffer) : Prop :=
  ∀ h, (∀ e, buf.extrinsicByHash h = some e → decodeHex32 e.hash = some h) ∧
    ((∃ b ∈ buf.blocks, b.Holds h) → (buf.extrinsicByHash h).isSome)

/-- **No hash is lost**: a hash of a block with a later one of its number
is one of a later block. -/
def Resolvable (blocks : List BufferedBlock) : Prop :=
  ∀ pre x post, blocks = pre ++ x :: post → (∃ y ∈ post, y.number = x.number) →
    ∀ h, x.Holds h → ∃ y ∈ post, y.Holds h

/-- Where no hash is lost, the last block with a hash is the last with its
number: the lookup reads the extrinsic it means. -/
theorem Coherent.lookupExact (hc : buf.Coherent)
    (hd : ∀ b ∈ buf.blocks, b.DistinctIndices) (hr : Resolvable buf.blocks) :
    buf.LookupExact := by
  intro h
  rcases hv : buf.byXtHash h with - | v
  · have hnone : buf.extrinsicByHash h = none := by rw [extrinsicByHash, hv]; rfl
    refine ⟨fun e he => ?_, fun hheld => ?_⟩
    · rw [hnone] at he
      exact absurd he (by simp)
    · rw [hc.byXtHash_eq] at hv
      have hsome := coordinates_isSome_iff.2 hheld
      rw [hv] at hsome
      exact absurd hsome (by simp)
  · have hcoord := hv
    rw [hc.byXtHash_eq] at hcoord
    obtain ⟨pre, x, post, hblocks, hlast, e, he, heh, rfl⟩ := exists_of_coordinates hcoord
    have hnumber : ∀ y ∈ post, y.number ≠ x.number := by
      intro y hy hyx
      obtain ⟨z, hz, hzh⟩ := hr pre x post hblocks ⟨y, hy, hyx⟩ h ⟨e, he, heh⟩
      exact hlast z hz hzh
    have hfind := (hd x (by simp [hblocks])).find he
    have hidx := hc.extrinsicByBlockIdx_eq_some_iff.2 ⟨pre, x, post, hblocks, rfl, hnumber, hfind⟩
    have hsome : buf.extrinsicByHash h = some e := extrinsicByHash_eq_some_iff.2 ⟨_, hv, hidx⟩
    refine ⟨fun e' he' => ?_, fun _ => by rw [hsome]; rfl⟩
    rw [hsome] at he'
    exact Option.some.inj he' ▸ heh

/-- **Where a hash is lost, its lookup is wrong**: the block it reads is
behind the last one that has the hash. -/
theorem Coherent.resolvable (hc : buf.Coherent) (hexact : buf.LookupExact) :
    Resolvable buf.blocks := by
  rintro pre x post hblocks ⟨y, hy, hyx⟩ h hxh
  by_contra hnone
  have hlast : ∀ z ∈ post, ¬ z.Holds h := fun z hz hzh => hnone ⟨z, hz, hzh⟩
  have hheld : ∃ b ∈ buf.blocks, b.Holds h := ⟨x, by simp [hblocks], hxh⟩
  obtain ⟨e, hlookup⟩ := Option.isSome_iff_exists.1 ((hexact h).2 hheld)
  have heh := (hexact h).1 e hlookup
  obtain ⟨v, hv, hidx⟩ := extrinsicByHash_eq_some_iff.1 hlookup
  rw [hc.byXtHash_eq] at hv
  obtain ⟨pre', x', post', hblocks', hlast', e', he', heh', rfl⟩ := exists_of_coordinates hv
  obtain ⟨-, rfl, -⟩ := last_unique (p := fun z => z.Holds h) (hblocks.symm.trans hblocks') hxh
    ⟨e', he', heh'⟩ hlast hlast'
  -- The block that is read is behind `x`, where `y` is.
  obtain ⟨pre'', z, post'', hblocks'', -, hlast'', hfind⟩ :=
    hc.extrinsicByBlockIdx_eq_some_iff.1 hidx
  have hz : z ∈ post := last_mem (p := fun z => z.number = x.number)
    (hblocks.symm.trans hblocks'') hy hyx hlast''
  exact hlast z hz ⟨e, List.mem_of_find?_eq_some hfind, heh⟩

/-- The block that comes has the hashes it would hide. -/
def KeepsHashes (buf : IndexedBuffer) : Call → Prop
  | .append b => ∀ pre x post, buf.makeRoom.blocks = pre ++ x :: post → x.number = b.number →
      ∀ h, x.Holds h → b.Holds h ∨ ∃ y ∈ post, y.Holds h
  | .advance _ => True

/-- What is left of blocks from the front on loses no hash either. -/
theorem Resolvable.of_suffix (hr : Resolvable blocks) (hkept : kept <:+ blocks) :
    Resolvable kept := by
  obtain ⟨front, rfl⟩ := hkept
  rintro pre x post rfl
  exact hr (front ++ pre) x post (by simp)

theorem Resolvable.concat (hr : Resolvable kept)
    (hb : ∀ pre x post, kept = pre ++ x :: post → x.number = b.number →
      ∀ h, x.Holds h → b.Holds h ∨ ∃ y ∈ post, y.Holds h) : Resolvable (kept ++ [b]) := by
  rintro pre x post heq ⟨y, hy, hyx⟩ h hxh
  rcases List.eq_nil_or_concat post with rfl | ⟨post', last, rfl⟩
  · exact absurd hy List.not_mem_nil
  · rw [List.concat_eq_append, ← List.cons_append, ← List.append_assoc] at heq
    obtain rfl := List.singleton_inj.1 (List.append_inj_right' heq rfl)
    have hkept := List.append_inj_left' heq rfl
    have hlater : b.Holds h ∨ ∃ z ∈ post', z.Holds h := by
      rw [List.concat_eq_append, List.mem_append, List.mem_singleton] at hy
      rcases hy with hy | rfl
      · exact .inr (hr pre x post' hkept ⟨y, hy, hyx⟩ h hxh)
      · exact hb pre x post' hkept hyx.symm h hxh
    rcases hlater with hbh | ⟨z, hz, hzh⟩
    · exact ⟨b, by simp, hbh⟩
    · exact ⟨z, by simp [hz], hzh⟩

theorem makeRoom_suffix : buf.makeRoom.blocks <:+ buf.blocks := by
  rw [makeRoom_blocks]
  split
  · exact List.tail_suffix _
  · exact List.suffix_refl _

/-- **A call that keeps the hashes loses none.** -/
theorem Resolvable.apply {call : Call} (hr : Resolvable buf.blocks) (hok : buf.KeepsHashes call) :
    Resolvable (buf.apply call).blocks := by
  cases call with
  | append b => exact (hr.of_suffix makeRoom_suffix).concat hok
  | advance n =>
    refine hr.of_suffix ?_
    rw [IndexedBuffer.apply, advanceFinalized_blocks]
    exact List.dropWhile_suffix _

/-- **A call that does not loses one.** -/
theorem keepsHashes_of_resolvable {call : Call} (hr : Resolvable (buf.apply call).blocks) :
    buf.KeepsHashes call := by
  cases call with
  | advance n => trivial
  | append b =>
    intro pre x post hkept hnumber h hxh
    have hsplit : (buf.apply (.append b)).blocks = pre ++ x :: (post ++ [b]) := by
      have hblocks : (buf.apply (.append b)).blocks = buf.makeRoom.blocks ++ [b] := rfl
      rw [hblocks, hkept, List.append_assoc, List.cons_append]
    obtain ⟨y, hy, hyh⟩ := hr pre x (post ++ [b]) hsplit ⟨b, by simp, hnumber.symm⟩ h hxh
    rcases List.mem_append.1 hy with hin | hin
    · exact .inr ⟨y, hin, hyh⟩
    · exact .inl (List.mem_singleton.1 hin ▸ hyh)

/-- The blocks of the buffer were appended. -/
theorem mem_after (hb : b ∈ (after calls).blocks) : .append b ∈ calls := by
  refine inv_run_history (P := fun calls buf => ∀ b ∈ buf.blocks, Call.append b ∈ calls)
    (by simp [new, PendingBuffer.new]) (fun pre buf call buf' hrun hmem hstep b hb => ?_)
    (run_after : run step new calls = some (after calls)) b hb
  obtain rfl := Option.some.inj hstep
  rw [List.mem_append, List.mem_singleton]
  cases call with
  | append block =>
    rcases List.mem_append.1 (show b ∈ buf.makeRoom.blocks ++ [block] from hb) with hin | hin
    · exact .inl (hmem b (makeRoom_suffix.subset hin))
    · exact .inr (by rw [List.mem_singleton.1 hin])
  | advance n =>
    refine .inl (hmem b ?_)
    rw [IndexedBuffer.apply, advanceFinalized_blocks] at hb
    exact (List.dropWhile_suffix _).subset hb

/-- **When the lookups by hash are exact.** All along the calls, just if
each appended block has the hashes of the blocks of its number that it
hides, those apart which a block between them has. -/
theorem lookup_exact_iff (calls : List Call)
    (hdistinct : ∀ b, .append b ∈ calls → b.DistinctIndices) :
    (∀ pre, pre <+: calls → (after pre).LookupExact) ↔ EveryStep step KeepsHashes new calls := by
  have hresolvable : (∀ pre buf, pre <+: calls → run step new pre = some buf →
      Resolvable buf.blocks) ↔ EveryStep step KeepsHashes new calls := holds_iff_everyStep
    (I := fun buf => Resolvable buf.blocks) (P := fun buf => Resolvable buf.blocks)
    (fun buf call buf' hr hok hstep => Option.some.inj hstep ▸ hr.apply hok) (fun _ hr => hr)
    (fun buf call buf' _ hstep hr => keepsHashes_of_resolvable (Option.some.inj hstep ▸ hr))
    (by simp [Resolvable, new, PendingBuffer.new]) run_after
  rw [← hresolvable]
  constructor
  · intro hexact pre buf hpre hrun
    obtain rfl := Option.some.inj (run_after.symm.trans hrun)
    exact coherent_after.resolvable (hexact pre hpre)
  · intro hall pre hpre
    refine coherent_after.lookupExact (fun b hb => ?_) (hall pre _ hpre run_after)
    exact hdistinct b (hpre.subset (mem_after hb))

/-- A block of one extrinsic, whose hash repeats a hex digit. -/
def blockOf (number : ℕ) (digit : Char) : BufferedBlock where
  number := number
  extrinsics :=
    [{ id := extrinsicId number 0
       blockNumber := number
       index := 0
       hash := String.ofList ('0' :: 'x' :: List.replicate 64 digit)
       module := "Timestamp"
       call := "set"
       signed := false
       signer := none
       args := .raw "0x"
       result := .success
       nonce := none
       tip := 0
       fee := 0
       timestampMs := 0
       events := [] }]

/-- Two forks of one number, the second with the extrinsics of the first:
the lookups are exact. -/
theorem lookup_exact_iff_same :
    (after [.append (blockOf 100 'a'), .append (blockOf 100 'a')]).LookupExact := by
  have hkeeps : EveryStep step KeepsHashes new
      [.append (blockOf 100 'a'), .append (blockOf 100 'a')] := by
    refine ⟨fun pre x post hsplit => ?_, fun pre x post hsplit _ h hxh => ?_, trivial⟩
    · exact absurd hsplit (by simp [makeRoom, bufferCapacity, new, PendingBuffer.new])
    · have hx : x ∈ (new.apply (.append (blockOf 100 'a'))).makeRoom.blocks := by
        rw [hsplit]
        simp
      obtain rfl := List.mem_singleton.1 (show x ∈ [blockOf 100 'a'] from hx)
      exact .inl hxh
  refine (lookup_exact_iff _ fun b hb => ?_).2 hkeeps _ List.prefix_rfl
  obtain rfl : b = blockOf 100 'a' := by simpa using hb
  exact List.nodup_singleton _

/-- **A reorg mixes two extrinsics up**: the hash of the one in the block
that was replaced returns the one that replaced it. -/
theorem lookup_wrong_after_reorg : ¬ ∀ calls : List Call,
    (∀ b, .append b ∈ calls → b.DistinctIndices) → (after calls).LookupExact := by
  intro hall
  have hexact := hall [.append (blockOf 100 'a'), .append (blockOf 100 'b')] fun b hb => by
    simp only [List.mem_cons, Call.append.injEq, List.not_mem_nil, or_false] at hb
    rcases hb with rfl | rfl <;> exact List.nodup_singleton _
  have hlookup : ((decodeHex32 (String.ofList (List.replicate 64 'a'))).bind fun h =>
      (after [.append (blockOf 100 'a'), .append (blockOf 100 'b')]).extrinsicByHash h) =
        (blockOf 100 'b').extrinsics.head? := by decide +kernel
  obtain ⟨h, hh, he⟩ := Option.bind_eq_some_iff.1 hlookup
  have hwrong := (hexact h).1 _ he
  have hsame : decodeHex32 (String.ofList (List.replicate 64 'a')) =
      decodeHex32 (String.ofList ('0' :: 'x' :: List.replicate 64 'b')) := hh.trans hwrong.symm
  exact absurd hsame (by decide +kernel)

/-! ## Finalized heads -/

/-- **What `advance_finalized` is for**: of the buffer before, no block at
or below the head is held or read from, and every block above it is still
held. -/
structure Evicts (before buf : IndexedBuffer) (n : ℕ) : Prop where
  dropped : ∀ b ∈ buf.blocks, n < b.number
  byBlockIdx : ∀ m i e, buf.extrinsicByBlockIdx m i = some e →
    n < m ∧ ∃ b ∈ before.blocks, b.number = m ∧ e ∈ b.extrinsics
  byHash : ∀ h e, buf.extrinsicByHash h = some e →
    ∃ b ∈ before.blocks, n < b.number ∧ e ∈ b.extrinsics
  kept : (before.blocks.filter fun b => n < b.number) <+ buf.blocks

/-- Nothing above the head is dropped. -/
theorem filter_sublist_advance :
    (buf.blocks.filter fun b => n < b.number) <+ (buf.advanceFinalized n).blocks := by
  rw [advanceFinalized_blocks]
  have hfront :
      (buf.blocks.takeWhile fun b => b.number ≤ n).filter (fun b => n < b.number) = [] := by
    refine List.filter_eq_nil_iff.2 fun b hb => ?_
    have hle := List.mem_takeWhile_imp hb
    simp only [decide_eq_true_eq] at hle ⊢
    omega
  have hsplit := List.takeWhile_append_dropWhile (p := fun b : BufferedBlock => b.number ≤ n)
    (l := buf.blocks)
  calc buf.blocks.filter (fun b => n < b.number)
      = (buf.blocks.dropWhile fun b => b.number ≤ n).filter fun b => n < b.number := by
        conv_lhs => rw [← hsplit]
        rw [List.filter_append, hfront, List.nil_append]
    _ <+ buf.blocks.dropWhile fun b => b.number ≤ n := List.filter_sublist

/-- The front is all that is dropped: a block at or below the head goes
just if all before it do. -/
theorem dropWhile_above_iff :
    (∀ b ∈ blocks.dropWhile fun b => b.number ≤ n, n < b.number) ↔
      blocks.Pairwise fun a b => b.number ≤ n → a.number ≤ n := by
  constructor
  · intro habove
    rw [← List.takeWhile_append_dropWhile (p := fun b : BufferedBlock => b.number ≤ n)
      (l := blocks), List.pairwise_append]
    have hfront : ∀ a ∈ blocks.takeWhile fun b => b.number ≤ n, a.number ≤ n := by
      intro a ha
      simpa using List.mem_takeWhile_imp ha
    refine ⟨List.pairwise_of_forall_mem_list fun a ha b _ _ => hfront a ha, ?_,
      fun a ha b _ _ => hfront a ha⟩
    refine List.pairwise_of_forall_mem_list fun a _ b hb hbn => ?_
    exact absurd hbn (Nat.not_le.2 (habove b hb))
  · intro hsorted
    induction blocks with
    | nil => simp
    | cons a blocks ih =>
      obtain ⟨ha, hrest⟩ := List.pairwise_cons.1 hsorted
      rw [List.dropWhile_cons]
      by_cases han : a.number ≤ n
      · rw [if_pos (decide_eq_true han)]
        exact ih hrest
      · rw [if_neg (by simpa using han)]
        intro b hb
        rcases List.mem_cons.1 hb with rfl | hb
        · exact Nat.not_le.1 han
        · exact Nat.not_le.1 fun hbn => han (ha b hb hbn)

/-- **When a finalized head evicts all that is finalized.** Just if no
block at or below it is held behind one above it. -/
theorem advance_exact_iff (calls : List Call) (n : ℕ) :
    Evicts (after calls) (after (calls ++ [.advance n])) n ↔
      (after calls).blocks.Pairwise fun a b => b.number ≤ n → a.number ≤ n := by
  have hlast : after (calls ++ [.advance n]) = (after calls).advanceFinalized n := by
    rw [after, List.foldl_append]
    rfl
  have hc : ((after calls).advanceFinalized n).Coherent := coherent_after.advanceFinalized
  have hblocks : ((after calls).advanceFinalized n).blocks =
      (after calls).blocks.dropWhile fun b => b.number ≤ n := advanceFinalized_blocks
  have hheld : ∀ b ∈ ((after calls).advanceFinalized n).blocks, b ∈ (after calls).blocks := by
    rw [hblocks]
    exact fun b hb => (List.dropWhile_suffix _).subset hb
  rw [hlast, ← dropWhile_above_iff, ← hblocks]
  constructor
  · exact Evicts.dropped
  · intro hdropped
    refine ⟨hdropped, fun m i e he => ?_, fun h e he => ?_, filter_sublist_advance⟩
    · obtain ⟨pre, b, post, hsplit, rfl, -, hfind⟩ := hc.extrinsicByBlockIdx_eq_some_iff.1 he
      have hb : b ∈ ((after calls).advanceFinalized n).blocks := by simp [hsplit]
      exact ⟨hdropped b hb, b, hheld b hb, rfl, List.mem_of_find?_eq_some hfind⟩
    · obtain ⟨b, hb, heb⟩ := hc.exists_of_extrinsicByHash he
      exact ⟨b, hheld b hb, hdropped b hb, heb⟩

/-- **A head at the block that replaced another leaves it**: it stands
behind one that is not final. -/
theorem advance_leaves_reorged :
    ¬ ∀ calls n, Evicts (after calls) (after (calls ++ [.advance n])) n := by
  intro hall
  have hdropped := (hall [.append (blockOf 5 'a'), .append (blockOf 3 'b')] 3).dropped
  have hheld := hdropped (blockOf 3 'b') (by
    rw [after, List.foldl_append]
    change _ ∈ (advanceFinalized _ 3).blocks
    rw [advanceFinalized_blocks]
    exact List.mem_cons_of_mem _ List.mem_cons_self)
  exact absurd hheld (Nat.lt_irrefl 3)

end IndexedBuffer

end AllfeatExplorer
