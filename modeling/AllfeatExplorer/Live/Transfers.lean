import AllfeatExplorer.Live.Buffers

/-!
# Merging live transfers

A transfer is one event, but the lists tell transfers apart by the id of
the extrinsic they came from. An event has one extrinsic and an extrinsic
may have many events, so what a list shows is what it should as long as
the newest events it has room for are of different extrinsics; of a batch,
one stays.
-/

namespace AllfeatExplorer

namespace Live

open scoped List

/-! ## A coarser key -/

section Coarser

variable {α κ ι : Type} [DecidableEq κ] [DecidableEq ι] {key : α → κ} {fine : α → ι} {l : List α}
  {a : α} {cap n : ℕ} {seen : List κ} {fineSeen : List ι}

/-- Only what was seen matters, not its order. -/
theorem dedupeBy_congr {seen' : List κ} (h : ∀ k, k ∈ seen ↔ k ∈ seen') :
    dedupeBy key seen l = dedupeBy key seen' l := by
  induction l generalizing seen seen' with
  | nil => rfl
  | cons a l ih =>
    rw [dedupeBy, dedupeBy]
    by_cases hseen : key a ∈ seen
    · rw [if_pos hseen, if_pos ((h _).mp hseen), ih h]
    · rw [if_neg hseen, if_neg fun hmem => hseen ((h _).mpr hmem)]
      refine congrArg _ (ih fun k => ?_)
      rw [List.mem_cons, List.mem_cons, h]

/-- **Repeats of a finer key are repeats of a coarser one.** -/
theorem dedupeBy_dedupeBy
    (hcoarser : ∀ a ∈ l, ∀ b ∈ l, fine a = fine b → key a = key b)
    (hseen : ∀ a ∈ l, fine a ∈ fineSeen → key a ∈ seen) :
    dedupeBy key seen (dedupeBy fine fineSeen l) = dedupeBy key seen l := by
  induction l generalizing seen fineSeen with
  | nil => rfl
  | cons a l ih =>
    have hl : ∀ b ∈ l, ∀ c ∈ l, fine b = fine c → key b = key c := fun b hb c hc =>
      hcoarser b (List.mem_cons_of_mem a hb) c (List.mem_cons_of_mem a hc)
    have hsl : ∀ b ∈ l, fine b ∈ fineSeen → key b ∈ seen := fun b hb =>
      hseen b (List.mem_cons_of_mem a hb)
    have hnew : ∀ b ∈ l, fine b ∈ fine a :: fineSeen → key b ∈ key a :: seen := by
      intro b hb hmem
      rcases List.mem_cons.mp hmem with heq | hold
      · exact List.mem_cons.mpr
          (.inl (hcoarser b (List.mem_cons_of_mem a hb) a List.mem_cons_self heq))
      · exact List.mem_cons_of_mem _ (hsl b hb hold)
    by_cases hfine : fine a ∈ fineSeen
    · have hkey := hseen a List.mem_cons_self hfine
      rw [dedupeBy, if_pos hfine, ih hl hsl, dedupeBy, if_pos hkey]
    · rw [dedupeBy, if_neg hfine, dedupeBy, dedupeBy]
      by_cases hkey : key a ∈ seen
      · rw [if_pos hkey, if_pos hkey]
        refine ih hl fun b hb hmem => ?_
        rcases List.mem_cons.mp (hnew b hb hmem) with heq | hold
        · exact heq ▸ hkey
        · exact hold
      · rw [if_neg hkey, if_neg hkey, ih hl hnew]

/-- **A list cut off keeps its start exactly when no key repeats there.** -/
theorem take_dedupeBy_eq_take_iff :
    (dedupeBy key [] l).take n = l.take n ↔ ((l.take n).map key).Nodup := by
  constructor
  · intro h
    rw [← h]
    exact nodup_map_dedupeBy.sublist ((List.take_sublist n _).map key)
  · have hkeep : ∀ (l : List α) (n : ℕ) (seen : List κ), ((l.take n).map key).Nodup →
        (∀ b ∈ l.take n, key b ∉ seen) → (dedupeBy key seen l).take n = l.take n := by
      intro l
      induction l with
      | nil => exact fun _ _ _ _ => rfl
      | cons a l ih =>
        intro n seen hnodup hnew
        rcases n with - | n
        · rw [List.take_zero, List.take_zero]
        · rw [List.take_succ_cons, List.map_cons, List.nodup_cons] at hnodup
          rw [List.take_succ_cons] at hnew ⊢
          rw [dedupeBy, if_neg (hnew a List.mem_cons_self), List.take_succ_cons]
          refine congrArg _ (ih n _ hnodup.2 fun b hb hmem => ?_)
          rcases List.mem_cons.mp hmem with heq | hold
          · exact hnodup.1 (heq ▸ List.mem_map_of_mem hb)
          · exact hnew b (List.mem_cons_of_mem a hb) hold
    exact fun h => hkeep l n [] h fun _ _ => List.not_mem_nil

/-! ## Pushes at the head -/

/-- What is seen before leaves the others as they are. -/
theorem dedupeBy_cons_seen :
    dedupeBy key (key a :: seen) l = (dedupeBy key seen l).filter fun b => key b ≠ key a := by
  induction l generalizing seen with
  | nil => rfl
  | cons b l ih =>
    rw [dedupeBy, dedupeBy]
    by_cases hseen : key b ∈ seen
    · rw [if_pos hseen, if_pos (List.mem_cons_of_mem _ hseen), ih]
    · rw [if_neg hseen]
      by_cases heq : key b = key a
      · rw [if_pos (List.mem_cons.mpr (.inl heq)), List.filter_cons_of_neg (by simpa using heq),
          ← ih]
        refine dedupeBy_congr fun k => ?_
        simp only [List.mem_cons, heq, or_self_left]
      · have hnot : key b ∉ key a :: seen := fun h => (List.mem_cons.mp h).elim heq hseen
        rw [if_neg hnot, List.filter_cons_of_pos (by simpa using heq), ← ih]
        refine congrArg _ (dedupeBy_congr fun k => ?_)
        simp only [List.mem_cons]
        tauto

/-- Of a list of distinct keys, taking one out moves one up. -/
theorem take_filter_take (hl : (l.map key).Nodup) {k : κ} :
    ((l.take (n + 1)).filter fun b => key b ≠ k).take n = (l.filter fun b => key b ≠ k).take n := by
  induction l generalizing n with
  | nil => rfl
  | cons b l ih =>
    rw [List.map_cons, List.nodup_cons] at hl
    rw [List.take_succ_cons]
    by_cases heq : key b = k
    · have hrest : l.filter (fun b => key b ≠ k) = l := by
        refine List.filter_eq_self.mpr fun c hc => decide_eq_true ?_
        rintro rfl
        exact hl.1 (heq ▸ List.mem_map_of_mem hc)
      have htake : (l.take n).filter (fun b => key b ≠ k) = l.take n := by
        refine List.filter_eq_self.mpr fun c hc => ?_
        exact (List.filter_eq_self.mp hrest) c (List.mem_of_mem_take hc)
      rw [List.filter_cons_of_neg (by simpa using heq),
        List.filter_cons_of_neg (by simpa using heq), hrest, htake, List.take_take, Nat.min_self]
    · rw [List.filter_cons_of_pos (by simpa using heq),
        List.filter_cons_of_pos (by simpa using heq)]
      rcases n with - | n
      · rfl
      · rw [List.take_succ_cons, List.take_succ_cons, ih hl.2]

/-- **A push at the head** of the distinct items, cut off. -/
theorem pushHead_take_dedupeBy :
    pushHead key ((dedupeBy key [] l).take liveCap) a =
      (dedupeBy key [] (a :: l)).take liveCap := by
  have hcap : liveCap = 24 + 1 := rfl
  rw [dedupeBy, if_neg List.not_mem_nil, dedupeBy_cons_seen, pushHead, hcap, List.take_succ_cons,
    List.take_succ_cons, take_filter_take nodup_map_dedupeBy]

/-- **Pushes on top of a seed** leave the first of the distinct items. -/
theorem foldl_pushHead (frames : List α) :
    frames.foldl (pushHead key) ((dedupeBy key [] l).take liveCap) =
      (dedupeBy key [] (frames.reverse ++ l)).take liveCap := by
  induction frames generalizing l with
  | nil => rfl
  | cons a frames ih =>
    rw [List.foldl_cons, pushHead_take_dedupeBy, ih, List.reverse_cons, List.append_assoc,
      List.singleton_append]

/-! ## `merge_live` -/

/-- The loop puts out the distinct items, and always one. -/
theorem mergeLoop_eq (keys : List κ) (out items : List α) :
    mergeLoop key n keys out items =
      out ++ (dedupeBy key keys items).take (max (n - out.length) 1) := by
  induction items generalizing keys out with
  | nil => rw [mergeLoop, dedupeBy, List.take_nil, List.append_nil]
  | cons a items ih =>
    rw [mergeLoop, dedupeBy]
    by_cases hseen : key a ∈ keys
    · rw [if_pos hseen, if_pos hseen, ih]
    · have hlen : (out ++ [a]).length = out.length + 1 := by simp
      rw [if_neg hseen, if_neg hseen, hlen]
      by_cases hfull : n ≤ out.length + 1
      · rw [if_pos hfull, show max (n - out.length) 1 = 1 by omega]
        rfl
      · have hmore : dedupeBy key (keys ++ [key a]) items = dedupeBy key (key a :: keys) items :=
          dedupeBy_congr fun k => by
            rw [List.mem_append, List.mem_singleton, List.mem_cons, or_comm]
        rw [if_neg hfull, ih, hlen, hmore, List.append_assoc, List.singleton_append,
          show max (n - out.length) 1 = max (n - (out.length + 1)) 1 + 1 by omega,
          List.take_succ_cons]

theorem mergeLive_eq (live initial : List α) :
    mergeLive key live initial n = (dedupeBy key [] (live ++ initial)).take (max n 1) := by
  rw [mergeLive, mergeLoop_eq, List.nil_append, List.length_nil, Nat.sub_zero]

theorem dedupeBy_map {β : Type} {f : β → α} {l : List β} :
    dedupeBy key seen (l.map f) = (dedupeBy (key ∘ f) seen l).map f := by
  induction l generalizing seen with
  | nil => rfl
  | cons b l ih =>
    rw [List.map_cons, dedupeBy, dedupeBy, Function.comp_apply]
    split
    · exact ih
    · rw [List.map_cons, ih]

/-- **Distinct by a coarser key or by the finer one**: the first `n` shown
are the same exactly when the coarser key tells these apart. -/
theorem take_dedupeBy_map_eq_iff {β : Type} (key : α → κ) (f : β → α) (fine : β → ι) {l : List β}
    (hcoarser : ∀ a ∈ l, ∀ b ∈ l, fine a = fine b → key (f a) = key (f b)) :
    (dedupeBy key [] (l.map f)).take n = ((dedupeBy fine [] l).take n).map f ↔
      (((dedupeBy fine [] l).take n).map (key ∘ f)).Nodup := by
  have hsame : dedupeBy (key ∘ f) [] (dedupeBy fine [] l) = dedupeBy (key ∘ f) [] l :=
    dedupeBy_dedupeBy hcoarser fun _ _ h => absurd h List.not_mem_nil
  rw [dedupeBy_map, ← List.map_take, ← hsame]
  constructor
  · intro h
    have hkeys := congrArg (List.map key) h
    rw [List.map_map, List.map_map] at hkeys
    rw [← hkeys]
    exact nodup_map_dedupeBy.sublist ((List.take_sublist n _).map _)
  · exact fun h => congrArg (List.map f) (take_dedupeBy_eq_take_iff.mpr h)

end Coarser

/-! ## Transfer events -/

/-- **A transfer received**, with the event it was mapped from. -/
structure Received where
  block : ℕ
  eventIdx : ℕ
  transfer : Transfer

/-- `(block, event index)`. -/
def Received.event (r : Received) : ℕ × ℕ := (r.block, r.eventIdx)

/-- The id of the extrinsic it came from. -/
def Received.extrinsicId (r : Received) : String := transferDedupKey r.transfer

/-- **It is one Balances.Transfer event of the chain**, as the mapper maps
it. -/
def Received.OnChain (net : Network) (chain : Chain) (r : Received) : Prop :=
  ∃ out, blockTransfers net chain r.block = some out ∧ (r.transfer, r.eventIdx) ∈ out

variable {net : Network} {chain : Chain} {n j : ℕ} {t : Transfer}

theorem mem_of_mapM_id {α : Type} {l : List (Option α)} {out : List α} (h : l.mapM id = some out)
    {a : α} (ha : a ∈ out) : some a ∈ l := by
  induction l generalizing out with
  | nil =>
    rw [List.mapM_nil] at h
    obtain rfl : [] = out := Option.some.inj h
    exact absurd ha List.not_mem_nil
  | cons o l ih =>
    rw [List.mapM_cons] at h
    obtain ⟨b, hb, h⟩ := Option.bind_eq_some_iff.mp h
    obtain ⟨rest, hrest, h⟩ := Option.bind_eq_some_iff.mp h
    obtain rfl : b :: rest = out := Option.some.inj h
    rcases List.mem_cons.mp ha with rfl | ha
    · exact List.mem_cons.mpr (.inl hb.symm)
    · exact List.mem_cons_of_mem o (ih hrest ha)

/-- The events of one extrinsic, by their places. -/
theorem phase_of_mem_indexEventsByPhase {events : List NodeEvent} {i : ℕ}
    {slice : List (ℕ × NodeEvent)} (h : (i, slice) ∈ indexEventsByPhase events) {evt : NodeEvent}
    (hevt : (j, evt) ∈ slice) : events[j]? = some evt ∧ evt.phase = .applyExtrinsic i := by
  unfold indexEventsByPhase at h
  obtain ⟨i', -, heq⟩ := List.mem_map.mp h
  obtain ⟨rfl, rfl⟩ := Prod.mk.inj heq
  obtain ⟨⟨i'', j', evt'⟩, hkept, hsnd⟩ := List.mem_map.mp hevt
  obtain ⟨rfl, rfl⟩ := Prod.mk.inj hsnd
  obtain ⟨hindexed, hi⟩ := List.mem_filter.mp hkept
  obtain rfl : i'' = i' := of_decide_eq_true hi
  obtain ⟨⟨evt'', j''⟩, hzip, hphase⟩ := List.mem_filterMap.mp hindexed
  rcases hp : evt''.phase with i | - | - <;> simp only [hp] at hphase
  · obtain ⟨rfl, rfl, rfl⟩ : i = i'' ∧ j'' = j' ∧ evt'' = evt' := by simpa using hphase
    exact ⟨List.mem_zipIdx_iff_getElem?.mp hzip, hp⟩
  · exact absurd hphase (by simp)
  · exact absurd hphase (by simp)

/-- **A transfer is attributed to the extrinsic of its event's phase.** -/
theorem extrinsic_of_mem_blockTransfers {out : List (Transfer × ℕ)}
    (h : blockTransfers net chain n = some out) (ht : (t, j) ∈ out) :
    ∃ i evt, (chain n).events[j]? = some evt ∧ evt.phase = .applyExtrinsic i ∧
      t.extrinsic.id = extrinsicId n i := by
  unfold blockTransfers mapTransfersWithEventIdx collectTransfers at h
  obtain ⟨collected, hcollected, rfl⟩ := Option.map_eq_some_iff.mp h
  have hmem := mem_of_mapM_id hcollected (List.mem_mergeSort.mp ht)
  obtain ⟨⟨i, slice⟩, hphase, hmem⟩ := List.mem_flatMap.mp hmem
  rcases hfind : (Rpc.mapExtrinsics net n (chain n)).find? fun e => e.index = i with - | ext
  · simp only [hfind, Option.elim_none, List.not_mem_nil] at hmem
  simp only [hfind, Option.elim_some] at hmem
  obtain ⟨⟨j', evt⟩, hslice, hmem⟩ := List.mem_flatMap.mp hmem
  unfold mapTransferEvent at hmem
  split at hmem
  · exact absurd hmem List.not_mem_nil
  obtain ⟨⟨fromAcct, toAcct, amount⟩, -, heq⟩ :=
    Option.map_eq_some_iff.mp (List.mem_singleton.mp hmem).symm
  obtain ⟨rfl, rfl⟩ := Prod.mk.inj heq
  obtain ⟨hevt, hi⟩ := phase_of_mem_indexEventsByPhase hphase hslice
  refine ⟨i, evt, hevt, hi, ?_⟩
  obtain ⟨k, hk, rfl⟩ := List.mem_mapIdx.mp (List.mem_of_find?_eq_some hfind)
  have hfound := List.find?_some hfind
  have hindex : k = i := of_decide_eq_true hfound
  exact hindex ▸ rfl

/-- One event has one extrinsic. -/
theorem Received.OnChain.extrinsicId_eq {r r' : Received} (h : r.OnChain net chain)
    (h' : r'.OnChain net chain) (heq : r.event = r'.event) : r.extrinsicId = r'.extrinsicId := by
  obtain ⟨hblock, hidx⟩ := Prod.mk.inj heq
  obtain ⟨out, hout, hmem⟩ := h
  obtain ⟨out', hout', hmem'⟩ := h'
  obtain ⟨i, evt, hevt, hphase, hid⟩ := extrinsic_of_mem_blockTransfers hout hmem
  obtain ⟨i', evt', hevt', hphase', hid'⟩ := extrinsic_of_mem_blockTransfers hout' hmem'
  rw [← hblock, ← hidx, hevt] at hevt'
  obtain rfl : evt = evt' := Option.some.inj hevt'
  obtain rfl : i = i' := Phase.applyExtrinsic.inj (hphase.symm.trans hphase')
  exact hid.trans ((congrArg (AllfeatExplorer.extrinsicId · i) hblock).trans hid'.symm)

/-! ## The merged lists -/

/-- **The distinct events received**, newest first: the frames, and then
the page the list started with. -/
def eventsReceived (seed frames : List Received) : List Received :=
  dedupeBy Received.event [] (frames.reverse ++ seed)

/-- **The newest `n` events are of different extrinsics.** -/
def OfDifferentExtrinsics (seed frames : List Received) (n : ℕ) : Prop :=
  (((eventsReceived seed frames).take n).map Received.extrinsicId).Nodup

/-- What reaches the store of a received transfer. -/
def Received.sourced (network : String) (r : Received) : Sourced Transfer := ⟨network, r.transfer⟩

/-- The transfers of the store after a seed and some frames. -/
theorem pushTransfers_eq (store : LiveStore) (network : String) (seed frames : List Received) :
    ((frames.map (Received.sourced network)).foldl LiveStore.pushTransfer
        (store.seedTransfers (seed.map (Received.sourced network)))).transfers =
      (dedupeBy (fun x : Sourced Transfer => x.item.extrinsic.id) []
        ((frames.reverse ++ seed).map (Received.sourced network))).take liveCap := by
  have hfold : ∀ (items : List (Sourced Transfer)) (store : LiveStore),
      (items.foldl LiveStore.pushTransfer store).transfers =
        items.foldl (pushHead fun x => x.item.extrinsic.id) store.transfers := by
    intro items
    induction items with
    | nil => exact fun _ => rfl
    | cons x items ih => exact fun store => ih (store.pushTransfer x)
  rw [hfold, LiveStore.seedTransfers, foldl_pushHead, List.map_append, List.map_reverse]

/-- **Merging live transfers keeps every event exactly when the newest it
has room for are of different extrinsics.** The store has room for
`liveCap`; `merge_live` for `limit`, and it puts out one item even where
that is none. -/
theorem transfers_keptByEvent_iff (store : LiveStore) (network : String)
    (seed frames : List Received) (h : ∀ r ∈ frames.reverse ++ seed, r.OnChain net chain) :
    (((frames.map (Received.sourced network)).foldl LiveStore.pushTransfer
          (store.seedTransfers (seed.map (Received.sourced network)))).transfers =
        ((eventsReceived seed frames).take liveCap).map (Received.sourced network) ↔
      OfDifferentExtrinsics seed frames liveCap) ∧
    ∀ limit, mergeLive transferDedupKey (frames.reverse.map Received.transfer)
          (seed.map Received.transfer) limit =
        ((eventsReceived seed frames).take limit).map Received.transfer ↔
      (limit = 0 → frames = [] ∧ seed = []) ∧ OfDifferentExtrinsics seed frames limit := by
  have hcoarser : ∀ a ∈ frames.reverse ++ seed, ∀ b ∈ frames.reverse ++ seed,
      a.event = b.event → a.extrinsicId = b.extrinsicId := fun a ha b hb heq =>
    (h a ha).extrinsicId_eq (h b hb) heq
  refine ⟨?_, fun limit => ?_⟩
  · rw [pushTransfers_eq]
    exact take_dedupeBy_map_eq_iff (fun x : Sourced Transfer => x.item.extrinsic.id)
      (Received.sourced network) Received.event hcoarser
  · rw [mergeLive_eq, ← List.map_append]
    rcases Nat.eq_zero_or_pos limit with rfl | hpos
    · have hempty : OfDifferentExtrinsics seed frames 0 := List.nodup_nil
      rw [List.take_zero, List.map_nil, iff_true_intro hempty, and_true, Nat.zero_max,
        List.take_eq_nil_iff, or_iff_right Nat.one_ne_zero]
      constructor
      · intro hnil _
        rcases hall : frames.reverse ++ seed with - | ⟨a, rest⟩
        · obtain ⟨hframes, hseed⟩ := List.append_eq_nil_iff.mp hall
          exact ⟨List.reverse_eq_nil_iff.mp hframes, hseed⟩
        · rw [hall, List.map_cons, dedupeBy, if_neg List.not_mem_nil] at hnil
          exact absurd hnil (List.cons_ne_nil _ _)
      · intro hnone
        obtain ⟨rfl, rfl⟩ := hnone rfl
        rfl
    · rw [Nat.max_eq_left hpos]
      have hroom : (limit = 0 → frames = [] ∧ seed = []) ↔ True :=
        iff_true_intro fun hzero => absurd hzero (Nat.ne_of_gt hpos)
      rw [hroom, true_and]
      exact take_dedupeBy_map_eq_iff transferDedupKey Received.transfer Received.event hcoarser

/-- Block 1 has two extrinsics and two transfers, in given phases. -/
def transferChain (phases : List ℕ) : Chain := fun n =>
  if n = 1 then
    { bareChain n with
      extrinsics := [0, 1].map fun i =>
        { hash := .fill i
          palletName := "Utility"
          callName := "batch"
          addressBytes := none
          nonce := none
          tip := none
          callData := []
          byteLength := 1 }
      events := phases.map fun i => ⟨.applyExtrinsic i, .transfer (.fill 1) (.fill 2) 5, []⟩ }
  else bareChain n

/-- A transfer of block 1, from one of its two extrinsics. -/
def receivedAt (phases : List ℕ) (i j : ℕ) : Received :=
  let blk := transferChain phases 1
  ⟨1, j, ⟨((Rpc.mapExtrinsics plainNetwork 1 blk)[i]?).getD
    (Rpc.mapExtrinsic plainNetwork 1 blk i ⟨.fill i, "Utility", "batch", none, none, none, [], 1⟩),
    "account", "account", 5⟩⟩

/-- Transfers collected in event order are not reordered. -/
theorem blockTransfers_of_sorted {out : List (Transfer × ℕ)}
    (h : collectTransfers net (Rpc.mapExtrinsics net n (chain n))
      (indexEventsByPhase (chain n).events) = some out)
    (hsorted : out.Pairwise fun a b => a.2 ≤ b.2) : blockTransfers net chain n = some out := by
  rw [blockTransfers, mapTransfersWithEventIdx, h, Option.map_some,
    List.mergeSort_of_pairwise (hsorted.imp fun h => decide_eq_true h)]

/-- Two transfers of different extrinsics are both kept, the newer first. -/
theorem transfers_keptByEvent_two :
    mergeLive transferDedupKey
        ([receivedAt [0, 1] 0 0, receivedAt [0, 1] 1 1].reverse.map Received.transfer) [] 25 =
      [(receivedAt [0, 1] 1 1).transfer, (receivedAt [0, 1] 0 0).transfer] := by
  have h : ∀ r ∈ [receivedAt [0, 1] 0 0, receivedAt [0, 1] 1 1].reverse ++ [],
      r.OnChain plainNetwork (transferChain [0, 1]) := by
    intro r hr
    refine ⟨[((receivedAt [0, 1] 0 0).transfer, 0), ((receivedAt [0, 1] 1 1).transfer, 1)], ?_, ?_⟩
    · have hblock : r.block = 1 := by
        revert r
        decide
      rw [hblock]
      exact blockTransfers_of_sorted (by decide) (by decide)
    simp only [List.reverse_cons, List.reverse_nil, List.nil_append, List.singleton_append,
      List.append_nil, List.mem_cons, List.not_mem_nil, or_false] at hr
    rcases hr with rfl | rfl
    · exact List.mem_cons_of_mem _ (List.mem_singleton_self _)
    · exact List.mem_cons_self
  exact ((transfers_keptByEvent_iff LiveStore.clearLive "allfeat" []
    [receivedAt [0, 1] 0 0, receivedAt [0, 1] 1 1] h).2 25).mpr
    ⟨nofun, by unfold OfDifferentExtrinsics; decide⟩

/-- **Of a batch, one transfer stays.** Two events of one extrinsic are
mapped and received, and both lists show the last alone. -/
theorem transfers_collapse :
    blockTransfers plainNetwork (transferChain [0, 0]) 1 =
        some [((receivedAt [0, 0] 0 0).transfer, 0), ((receivedAt [0, 0] 0 1).transfer, 1)] ∧
      (receivedAt [0, 0] 0 0).event ≠ (receivedAt [0, 0] 0 1).event ∧
      ([receivedAt [0, 0] 0 0, receivedAt [0, 0] 0 1].foldl
          (fun store r => store.pushTransfer (r.sourced "allfeat"))
          LiveStore.clearLive).transfers.length = 1 ∧
      (mergeLive transferDedupKey
        [(receivedAt [0, 0] 0 1).transfer, (receivedAt [0, 0] 0 0).transfer] [] 25).length = 1 := by
  exact ⟨blockTransfers_of_sorted (by decide) (by decide), by decide, by decide, by decide⟩

end Live

end AllfeatExplorer
