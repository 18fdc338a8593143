import AllfeatExplorer.Data.Events
import AllfeatExplorer.Data.Helpers.Scanned
import AllfeatExplorer.Data.Pagination
import AllfeatExplorer.Lib.StableSort
import AllfeatExplorer.Live.Transfers
import Mathlib.Data.List.Dedup
import Mathlib.Data.List.Flatten

/-!
# What the node's lists enumerate

The node's extrinsics, events and transfers, under any filter, are read
off a scan that goes some blocks deep: twice the page for the first two,
200 for transfers. Following the cursors shows the newest matches in
order, none twice and none skipped. A page is the last where the blocks
in reach of its cursor hold no more matches than it takes, so a walk can
leave older matches out, but the first of them lies deeper below the
cursor of the last page than the scan goes.
-/

namespace AllfeatExplorer

open Queries

variable {net : Network} {node : Node} {count n : ℕ}

/-! ## Extrinsics -/

/-- The extrinsics of block `n`. -/
def nodeExtrinsics (net : Network) (node : Node) (n : ℕ) : List Extrinsic :=
  Rpc.mapExtrinsics net n (node.chain n)

theorem mem_nodeExtrinsics {ext : Extrinsic} (h : ext ∈ nodeExtrinsics net node n) :
    ext.blockNumber = n ∧ ext.index < (node.chain n).extrinsics.length := by
  obtain ⟨i, hi, rfl⟩ := List.mem_mapIdx.mp h
  exact ⟨rfl, hi⟩

theorem nodeExtrinsics_keyed (net : Network) (node : Node) :
    RowsKeyed (nodeExtrinsics net node) extrinsicKey node.bestHead where
  block := fun n _ ext hext => (mem_nodeExtrinsics hext).1
  sorted := by
    intro n _
    rw [nodeExtrinsics, Rpc.mapExtrinsics, List.pairwise_iff_getElem]
    intro i j hi hj hij
    simp only [List.getElem_mapIdx, extrinsicKey, Prod.Lex.toLex_lt_toLex]
    exact .inr ⟨rfl, hij⟩

/-- **The node's matching extrinsics**, newest first. -/
def matchingNodeExtrinsics (net : Network) (node : Node) (filters : ExtrinsicFilters) :
    List Extrinsic :=
  matchingDown (nodeExtrinsics net node) (fun ext => extrinsicSelected ext filters) node.bestHead

theorem Rpc.latestExtrinsics_page (filters : ExtrinsicFilters) (hcount : 1 ≤ count)
    (c : Option Extrinsic) (hc : ∀ a ∈ c, a ∈ matchingNodeExtrinsics net node filters) :
    Rpc.latestExtrinsics net node ⟨count, c.map Rpc.extrinsicText⟩ filters =
      .ok (Rpc.scannedPage count Rpc.extrinsicText
        ((olderThan extrinsicKey (matchingNodeExtrinsics net node filters)
          (c.map extrinsicKey)).takeWhile
            (scanReach extrinsicKey node.bestHead (count * 2 - 1) c))) := by
  have hparse : parseCursor extrinsicCursor ⟨count, c.map Rpc.extrinsicText⟩ =
      .ok (c.map Extrinsic.key) := by
    have hmap : c.map Rpc.extrinsicText = (c.map Extrinsic.key).map extrinsicCursor.toText := by
      rw [Option.map_map]
      rfl
    rw [hmap]
    refine parseCursor_toText extrinsicCursor_roundTrips fun k hk => ?_
    obtain ⟨a, ha, rfl⟩ := Option.map_eq_some_iff.mp hk
    obtain ⟨n, -, hn, hmem⟩ := mem_rowsDown.mp (List.mem_filter.mp (hc a ha)).1
    obtain ⟨hblock, hindex⟩ := mem_nodeExtrinsics hmem
    have htyped := (node.typed n (by omega)).extrinsics
    have hbest := node.best_le
    unfold Extrinsic.key
    omega
  have hkept : Rpc.extrinsicKept (c.map Extrinsic.key) filters =
      fun ext =>
        below (c.map extrinsicKey) (extrinsicKey ext) && extrinsicSelected ext filters := by
    cases c <;> rfl
  have hstart : (c.map Extrinsic.key).elim node.bestHead (fun c => min c.1 node.bestHead) =
      scanStart extrinsicKey node.bestHead c := by
    cases c <;> rfl
  have hdepth : max (count * 2) count = count * 2 := max_eq_left (by omega)
  have hfetch : ∀ n ≤ node.bestHead,
      Rpc.fetchBlockExtrinsics net node n = .ok (some (nodeExtrinsics net node n)) := by
    intro n hn
    rw [Rpc.fetchBlockExtrinsics, if_pos hn]
    rfl
  unfold Rpc.latestExtrinsics
  rw [if_neg (by simp only; omega), hparse, ok_bind]
  simp only [hstart, hdepth, hkept]
  rw [(nodeExtrinsics_keyed net node).scanChain_found (fun ext => extrinsicSelected ext filters)
    (count * 2 - 1) count hfetch hc, ok_bind, scannedPage_take]
  rfl

/-- **Walking the node's extrinsics**, from any filter: an initial part of
the matches, up to the page whose window holds no more than it takes, and
all of them exactly when no window falls short. -/
theorem latestExtrinsics_enumerates (net : Network) (node : Node) (filters : ExtrinsicFilters)
    (hcount : 1 ≤ count) :
    ∃ k shown rest, matchingNodeExtrinsics net node filters = shown ++ rest ∧
      shown = shownUpTo count (scanReach extrinsicKey node.bestHead (count * 2 - 1))
        (matchingNodeExtrinsics net node filters) k ∧
      LastPage count (scanReach extrinsicKey node.bestHead (count * 2 - 1))
        (matchingNodeExtrinsics net node filters) k ∧
      Enumerates (fun node req => Rpc.latestExtrinsics net node req filters) count node shown ∧
      (∃ page, Rpc.latestExtrinsics net node
          ⟨count, (cursorAt count shown k).map Rpc.extrinsicText⟩ filters = .ok page ∧
        page.items = shown.drop (k * count) ∧ page.pageInfo = ⟨none, none, false⟩) ∧
      (∀ a ∈ rest.head?, scanReach extrinsicKey node.bestHead (count * 2 - 1)
        (cursorAt count shown k) a = false) ∧
      (rest = [] ↔ WindowsReach count (scanReach extrinsicKey node.bestHead (count * 2 - 1))
        (matchingNodeExtrinsics net node filters)) :=
  enumerates_scanned _ hcount (nodeExtrinsics_keyed net node) fun c hc =>
    Rpc.latestExtrinsics_page filters hcount c hc

/-! ## Events -/

/-- The events of block `n`. -/
def nodeEvents (net : Network) (node : Node) (n : ℕ) : List BlockEvent :=
  Rpc.mapBlockEvents net n (node.chain n)

/-- The events of a block are counted by a `u32`. -/
def EventsCounted (node : Node) : Prop :=
  ∀ n ≤ node.bestHead, (node.chain n).events.length ≤ u32Max

theorem nodeEvents_keyed (net : Network) (h : EventsCounted node) :
    RowsKeyed (nodeEvents net node) BlockEvent.key node.bestHead where
  block := fun n hn _ hev => (mem_blockEvents (List.mem_reverse.mpr hev) (h n hn)).1
  sorted := fun n hn => List.pairwise_reverse.mp (blockEvents_pairwise (h n hn))

/-- **The node's matching events**, newest first. -/
def matchingNodeEvents (net : Network) (node : Node) (filters : EventFilters) : List BlockEvent :=
  matchingDown (nodeEvents net node) (fun ev => eventMatchesFilters ev filters) node.bestHead

theorem Rpc.latestEvents_page (filters : EventFilters) (hcount : 1 ≤ count)
    (h : EventsCounted node) (c : Option BlockEvent)
    (hc : ∀ a ∈ c, a ∈ matchingNodeEvents net node filters) :
    Rpc.latestEvents net node ⟨count, c.map fun a => eventCursor.toText a.cursor⟩ filters =
      .ok (Rpc.scannedPage count (fun a => eventCursor.toText a.cursor)
        ((olderThan BlockEvent.key (matchingNodeEvents net node filters)
          (c.map BlockEvent.key)).takeWhile
            (scanReach BlockEvent.key node.bestHead (count * 2 - 1) c))) := by
  have hparse : parseCursor eventCursor ⟨count, c.map fun a => eventCursor.toText a.cursor⟩ =
      .ok (c.map BlockEvent.cursor) := by
    have hmap : (c.map fun a => eventCursor.toText a.cursor) =
        (c.map BlockEvent.cursor).map eventCursor.toText := by
      rw [Option.map_map]
      rfl
    rw [hmap]
    refine parseCursor_toText eventCursor_roundTrips fun k hk => ?_
    obtain ⟨a, ha, rfl⟩ := Option.map_eq_some_iff.mp hk
    obtain ⟨n, -, hn, hmem⟩ := mem_rowsDown.mp (List.mem_filter.mp (hc a ha)).1
    have hlen := h n (by omega)
    obtain ⟨hblock, hindex⟩ := mem_blockEvents (List.mem_reverse.mpr hmem) hlen
    have hbest := node.best_le
    unfold BlockEvent.cursor
    simp only
    omega
  have hkept : Rpc.eventKept (c.map BlockEvent.cursor) filters =
      fun ev => below (c.map BlockEvent.key) ev.key && eventMatchesFilters ev filters := by
    cases c <;> rfl
  have hstart : (c.map BlockEvent.cursor).elim node.bestHead
      (fun c => min c.block node.bestHead) = scanStart BlockEvent.key node.bestHead c := by
    cases c <;> rfl
  have hdepth : max (count * 2) count = count * 2 := max_eq_left (by omega)
  have hle : scanStart BlockEvent.key node.bestHead c ≤ node.bestHead := scanStart_le
  generalize hlow : scanStart BlockEvent.key node.bestHead c - (count * 2 - 1) = lowest
  have hfetch : (List.range' lowest
        (scanStart BlockEvent.key node.bestHead c + 1 - lowest)).reverse.map
        (Rpc.fetchBlockEventsWithTs net node) =
      ((List.range' lowest
        (scanStart BlockEvent.key node.bestHead c + 1 - lowest)).reverse.map
          (nodeEvents net node)).map some := by
    rw [List.map_map]
    refine List.map_congr_left fun n hn => ?_
    rw [List.mem_reverse, List.mem_range'_1] at hn
    exact if_pos (by omega)
  have hfound := (nodeEvents_keyed net h).found_eq (count * 2 - 1) hc
  unfold Rpc.latestEvents
  rw [if_neg (by simp only; omega), hparse, ok_bind]
  simp only [hstart, hdepth, hlow]
  rw [hfetch, scanBlocks_eq _ [] (Nat.zero_le _), List.nil_append, List.length_nil, Nat.sub_zero,
    hkept, List.flatMap_map]
  rw [hlow] at hfound
  unfold matchingNodeEvents
  rw [← hfound, ← scannedPage_take]
  rfl

/-- **Walking the node's events**, from any filter. -/
theorem latestEvents_enumerates (net : Network) (filters : EventFilters) (hcount : 1 ≤ count)
    (h : EventsCounted node) :
    ∃ k shown rest, matchingNodeEvents net node filters = shown ++ rest ∧
      shown = shownUpTo count (scanReach BlockEvent.key node.bestHead (count * 2 - 1))
        (matchingNodeEvents net node filters) k ∧
      LastPage count (scanReach BlockEvent.key node.bestHead (count * 2 - 1))
        (matchingNodeEvents net node filters) k ∧
      Enumerates (fun node req => Rpc.latestEvents net node req filters) count node shown ∧
      (∃ page, Rpc.latestEvents net node
          ⟨count, (cursorAt count shown k).map fun a => eventCursor.toText a.cursor⟩ filters =
            .ok page ∧
        page.items = shown.drop (k * count) ∧ page.pageInfo = ⟨none, none, false⟩) ∧
      (∀ a ∈ rest.head?, scanReach BlockEvent.key node.bestHead (count * 2 - 1)
        (cursorAt count shown k) a = false) ∧
      (rest = [] ↔ WindowsReach count (scanReach BlockEvent.key node.bestHead (count * 2 - 1))
        (matchingNodeEvents net node filters)) :=
  enumerates_scanned _ hcount (nodeEvents_keyed net h) fun c hc =>
    Rpc.latestEvents_page filters hcount h c hc

/-! ## Transfers -/

section Transfers

open Live

variable {events : List NodeEvent} {out : List (Transfer × ℕ)} {t : Transfer × ℕ}

/-- What a list of results is that has none missing. -/
theorem eq_map_some_of_mapM_id {α : Type} {l : List (Option α)} {out : List α}
    (h : l.mapM id = some out) : l = out.map some := by
  induction l generalizing out with
  | nil =>
    rw [List.mapM_nil] at h
    obtain rfl : [] = out := Option.some.inj h
    rfl
  | cons o l ih =>
    rw [List.mapM_cons] at h
    obtain ⟨b, hb, h⟩ := Option.bind_eq_some_iff.mp h
    obtain ⟨rest, hrest, h⟩ := Option.bind_eq_some_iff.mp h
    obtain rfl : b :: rest = out := Option.some.inj h
    obtain rfl : o = some b := hb
    rw [List.map_cons, ← ih hrest]

/-- Entries that keep their place in the list have distinct places. -/
theorem nodup_places {f : NodeEvent × ℕ → Option (ℕ × ℕ × NodeEvent)}
    (hf : ∀ p e, f p = some e → e.2.1 = p.2) (events : List NodeEvent) :
    ((events.zipIdx.filterMap f).map fun e => e.2.1).Nodup := by
  have hplaces : events.zipIdx.Pairwise fun a b => a.2 ≠ b.2 := by
    refine List.pairwise_map.mp ?_
    rw [List.zipIdx_map_snd]
    exact List.nodup_range'
  rw [List.Nodup, List.pairwise_map, List.pairwise_filterMap]
  refine hplaces.imp fun {a b} hne e he e' he' heq => hne ?_
  rw [← hf a e he, ← hf b e' he', heq]

/-- Grouping keeps them so. -/
theorem nodup_grouped {indexed : List (ℕ × ℕ × NodeEvent)}
    (hnodup : (indexed.map fun e => e.2.1).Nodup) :
    (((indexed.map Prod.fst).dedup.map fun i =>
      (i, (indexed.filter fun e => e.1 = i).map Prod.snd)).flatMap
        fun p => p.2.map Prod.fst).Nodup := by
  rw [List.flatMap_map]
  refine List.nodup_flatMap.mpr ⟨fun i _ => ?_, ?_⟩
  · rw [List.map_map]
    exact hnodup.sublist (List.filter_sublist.map _)
  · refine (List.nodup_dedup _).imp fun {i i'} hne => ?_
    intro j hj hj'
    simp only [List.map_map, List.mem_map, List.mem_filter, decide_eq_true_eq,
      Function.comp_apply] at hj hj'
    obtain ⟨e, ⟨he, hi⟩, rfl⟩ := hj
    obtain ⟨e', ⟨he', hi'⟩, heq⟩ := hj'
    obtain rfl := List.inj_on_of_nodup_map hnodup he' he heq
    exact hne (hi.symm.trans hi')

/-- **Each event has one place** in the index by phase. -/
theorem nodup_indexEventsByPhase (events : List NodeEvent) :
    ((indexEventsByPhase events).flatMap fun p => p.2.map Prod.fst).Nodup := by
  refine nodup_grouped (nodup_places ?_ events)
  rintro ⟨evt, j⟩ e h
  rcases hp : evt.phase with i | - | - <;> simp only [hp] at h
  · obtain rfl := Option.some.inj h
    rfl
  · cases h
  · cases h

/-- **The transfers of a block are in the order of their events**, and each
has an extrinsic of the block. -/
theorem blockTransfers_keyed {chain : Chain} (h : blockTransfers net chain n = some out) :
    (∀ t ∈ out, t.1.extrinsic ∈ Rpc.mapExtrinsics net n (chain n) ∧
      t.2 < (chain n).events.length) ∧
    out.Pairwise fun a b => a.2 < b.2 := by
  unfold blockTransfers mapTransfersWithEventIdx collectTransfers at h
  obtain ⟨collected, hcollected, rfl⟩ := Option.map_eq_some_iff.mp h
  constructor
  · intro t ht
    have hmem := mem_of_mapM_id hcollected (List.mem_mergeSort.mp ht)
    obtain ⟨⟨i, slice⟩, hphase, hmem⟩ := List.mem_flatMap.mp hmem
    rcases hfind : (Rpc.mapExtrinsics net n (chain n)).find? fun e => e.index = i with - | ext
    · simp only [hfind, Option.elim_none, List.not_mem_nil] at hmem
    simp only [hfind, Option.elim_some] at hmem
    obtain ⟨⟨j, evt⟩, hslice, hmem⟩ := List.mem_flatMap.mp hmem
    unfold mapTransferEvent at hmem
    split at hmem
    · exact absurd hmem List.not_mem_nil
    obtain ⟨⟨fromAcct, toAcct, amount⟩, -, rfl⟩ :=
      Option.map_eq_some_iff.mp (List.mem_singleton.mp hmem).symm
    obtain ⟨hevt, -⟩ := phase_of_mem_indexEventsByPhase hphase hslice
    exact ⟨List.mem_of_find?_eq_some hfind, (List.getElem?_eq_some_iff.mp hevt).1⟩
  · have hplaces : (collected.map Prod.snd).Nodup := by
      have hmap : collected.map Prod.snd =
          (collected.map some).filterMap fun o => o.map Prod.snd := by
        rw [List.filterMap_map]
        exact (congrFun List.filterMap_eq_map collected).symm
      rw [hmap, ← eq_map_some_of_mapM_id hcollected, List.filterMap_flatMap]
      refine (nodup_indexEventsByPhase (chain n).events).sublist ?_
      refine List.Sublist.flatMap_right _ fun ⟨i, slice⟩ _ => ?_
      rcases hfind : (Rpc.mapExtrinsics net n (chain n)).find? fun e => e.index = i with - | ext
      · simp only [hfind, Option.elim_none, List.filterMap_nil, List.nil_sublist]
      · simp only [hfind, Option.elim_some]
        rw [List.filterMap_flatMap, List.map_eq_flatMap]
        refine List.Sublist.flatMap_right _ fun evt _ => ?_
        unfold mapTransferEvent
        split
        · exact List.nil_sublist _
        · rcases decodeTransfer evt.2.body with - | m
          · exact List.nil_sublist _
          · exact List.Sublist.refl _
    exact pairwise_lt_mergeSort_asc hplaces

/-- **The transfers decode**, and the events are counted by a `u32`. -/
structure TransfersDecode (net : Network) (node : Node) : Prop where
  decode : ∀ n ≤ node.finalizedHead, (blockTransfers net node.chain n).isSome
  counted : ∀ n ≤ node.finalizedHead, (node.chain n).events.length ≤ u32Max

/-- The transfers of block `n`, each with its event. -/
def nodeTransfers (net : Network) (node : Node) (n : ℕ) : List (Transfer × ℕ) :=
  (blockTransfers net node.chain n).getD []

/-- What a transfer is ordered by. -/
def transferPlaceKey (p : Transfer × ℕ) : ℕ ×ₗ ℕ := toLex (Rpc.transferPlace p)

theorem TransfersDecode.eq_some (h : TransfersDecode net node) (hn : n ≤ node.finalizedHead) :
    blockTransfers net node.chain n = some (nodeTransfers net node n) := by
  obtain ⟨out, hout⟩ := Option.isSome_iff_exists.mp (h.decode n hn)
  rw [nodeTransfers, hout, Option.getD_some]

theorem TransfersDecode.mem (h : TransfersDecode net node) (hn : n ≤ node.finalizedHead)
    (ht : t ∈ nodeTransfers net node n) :
    t.1.extrinsic.blockNumber = n ∧ t.2 < (node.chain n).events.length := by
  obtain ⟨hext, hlt⟩ := (blockTransfers_keyed (h.eq_some hn)).1 t ht
  exact ⟨(mem_nodeExtrinsics hext).1, hlt⟩

theorem nodeTransfers_keyed (h : TransfersDecode net node) :
    RowsKeyed (nodeTransfers net node) transferPlaceKey node.finalizedHead where
  block := fun _ hn _ ht => (h.mem hn ht).1
  sorted := by
    intro n hn
    refine (blockTransfers_keyed (h.eq_some hn)).2.imp_of_mem fun {a b} ha hb hlt => ?_
    rw [transferPlaceKey, transferPlaceKey, Prod.Lex.toLex_lt_toLex]
    exact .inr ⟨(h.mem hn ha).1.trans (h.mem hn hb).1.symm, hlt⟩

/-- **The node's matching transfers**, newest first. -/
def matchingNodeTransfers (net : Network) (node : Node) (filters : TransferFilters) :
    List (Transfer × ℕ) :=
  matchingDown (nodeTransfers net node) (fun p => transferMatchesFilters p.1 filters)
    node.finalizedHead

theorem Rpc.scanTransfers_page (filters : TransferFilters) (hcount : 1 ≤ count)
    (h : TransfersDecode net node) (c : Option (Transfer × ℕ))
    (hc : ∀ a ∈ c, a ∈ matchingNodeTransfers net node filters) :
    Rpc.scanTransfers net node filters ⟨count, c.map Rpc.transferText⟩ =
      .ok (Rpc.scannedPage count Rpc.transferText
        ((olderThan transferPlaceKey (matchingNodeTransfers net node filters)
          (c.map transferPlaceKey)).takeWhile
            (scanReach transferPlaceKey node.finalizedHead Rpc.maxDepth c))) := by
  have hparse : parseCursor transferCursor ⟨count, c.map Rpc.transferText⟩ =
      .ok (c.map Rpc.transferPlace) := by
    have hmap : c.map Rpc.transferText = (c.map Rpc.transferPlace).map transferCursor.toText := by
      rw [Option.map_map]
      rfl
    rw [hmap]
    refine parseCursor_toText transferCursor_roundTrips fun k hk => ?_
    obtain ⟨a, ha, rfl⟩ := Option.map_eq_some_iff.mp hk
    obtain ⟨n, -, hn, hmem⟩ := mem_rowsDown.mp (List.mem_filter.mp (hc a ha)).1
    obtain ⟨hblock, hindex⟩ := h.mem (by omega) hmem
    have hcounted := h.counted n (by omega)
    have hfinal := node.finalized_le
    have hbest := node.best_le
    unfold Rpc.transferPlace
    omega
  have hkept : Rpc.transferKept (c.map Rpc.transferPlace) filters =
      fun p => below (c.map transferPlaceKey) (transferPlaceKey p) &&
        transferMatchesFilters p.1 filters := by
    cases c <;> rfl
  have hstart : (c.map Rpc.transferPlace).elim node.finalizedHead
      (fun c => min c.1 node.finalizedHead) =
        scanStart transferPlaceKey node.finalizedHead c := by
    cases c <;> rfl
  have hfetch : ∀ n ≤ node.finalizedHead,
      Rpc.fetchBlockTransfers net node n = .ok (some (nodeTransfers net node n)) := by
    intro n hn
    rw [Rpc.fetchBlockTransfers, if_pos (hn.trans node.finalized_le), h.eq_some hn]
  unfold Rpc.scanTransfers
  rw [if_neg (by simp only; omega), hparse]
  simp only [Except.mapError, ok_bind, hstart, hkept]
  rw [(nodeTransfers_keyed h).scanChain_found (fun p => transferMatchesFilters p.1 filters)
    Rpc.maxDepth count hfetch hc, ok_bind, scannedPage_take]
  rfl

/-- **Walking the node's transfers**, from any filter: what a walk leaves
out starts more than 200 blocks below the cursor of its last page. -/
theorem latestTransfers_enumerates (net : Network) (filters : TransferFilters)
    (hcount : 1 ≤ count) (h : TransfersDecode net node) :
    ∃ k shown rest, matchingNodeTransfers net node filters = shown ++ rest ∧
      shown = shownUpTo count (scanReach transferPlaceKey node.finalizedHead Rpc.maxDepth)
        (matchingNodeTransfers net node filters) k ∧
      LastPage count (scanReach transferPlaceKey node.finalizedHead Rpc.maxDepth)
        (matchingNodeTransfers net node filters) k ∧
      Enumerates (fun node req => Rpc.latestTransfers net node filters req) count node
        (shown.map Prod.fst) ∧
      (∃ page, Rpc.latestTransfers net node filters
          ⟨count, (cursorAt count shown k).map Rpc.transferText⟩ = .ok page ∧
        page.items = (shown.drop (k * count)).map Prod.fst ∧ page.pageInfo = ⟨none, none, false⟩) ∧
      (∀ a ∈ rest.head?, scanReach transferPlaceKey node.finalizedHead Rpc.maxDepth
        (cursorAt count shown k) a = false) ∧
      (rest = [] ↔ WindowsReach count
        (scanReach transferPlaceKey node.finalizedHead Rpc.maxDepth)
        (matchingNodeTransfers net node filters)) := by
  have hpages : ∀ req page, Rpc.scanTransfers net node filters req = .ok page →
      Rpc.latestTransfers net node filters req = .ok (mapPage Prod.fst page) := by
    intro req page hpage
    unfold Rpc.latestTransfers
    rw [hpage, ok_bind]
    rfl
  obtain ⟨k, shown, rest, hsplit, hshown, hk, henum, ⟨page, hpage, hitems, hmore⟩, hrest⟩ :=
    enumerates_scanned (fun node req => Rpc.scanTransfers net node filters req) hcount
      (nodeTransfers_keyed h) fun c hc => Rpc.scanTransfers_page filters hcount h c hc
  refine ⟨k, shown, rest, hsplit, hshown, hk, henum.map Prod.fst hpages, ?_, hrest⟩
  exact ⟨_, hpages _ _ hpage, congrArg (List.map Prod.fst) hitems, hmore⟩

/-! ## A short chain -/

theorem transferChain_typed (n : ℕ) : (transferChain [0, 1] n).Typed where
  extrinsics := by
    have hlen : (transferChain [0, 1] n).extrinsics.length ≤ 2 := by
      unfold transferChain
      split
      · exact le_rfl
      · exact Nat.zero_le 2
    simp only [u32Max]
    omega
  tip := by
    intro ext hext tip htip
    unfold transferChain at hext
    split at hext
    · obtain ⟨i, -, rfl⟩ := List.mem_map.mp hext
      cases htip
    · cases hext
  fee := by
    intro evt hevt who fee hbody
    unfold transferChain at hevt
    split at hevt
    · obtain ⟨i, -, rfl⟩ := List.mem_map.mp hevt
      cases hbody
    · cases hevt

theorem two_le_u64Max : 2 ≤ u64Max := by
  unfold u64Max
  omega

/-- A node at block 2, with two extrinsics and two transfers in block 1. -/
def batchNode : Node where
  chain := transferChain [0, 1]
  finalizedHead := 2
  bestHead := 2
  finalized_le := le_rfl
  best_le := two_le_u64Max
  typed := fun n _ => transferChain_typed n

theorem batchNode_counted : EventsCounted batchNode := by
  have hall : ∀ n ≤ 2, (batchNode.chain n).events.length ≤ u32Max := by decide
  exact hall

theorem batchNode_decode : TransfersDecode plainNetwork batchNode where
  decode := by
    have hall : ∀ n ≤ 2, ∃ out, blockTransfers plainNetwork batchNode.chain n = some out := by
      intro n hn
      have hcases : n = 0 ∨ n = 1 ∨ n = 2 := by omega
      rcases hcases with rfl | rfl | rfl
      · exact ⟨[], blockTransfers_of_sorted (by decide) List.Pairwise.nil⟩
      · exact ⟨[((receivedAt [0, 1] 0 0).transfer, 0), ((receivedAt [0, 1] 1 1).transfer, 1)],
          blockTransfers_of_sorted (by decide) (by decide)⟩
      · exact ⟨[], blockTransfers_of_sorted (by decide) List.Pairwise.nil⟩
    exact fun n hn => Option.isSome_iff_exists.mpr (hall n hn)
  counted := batchNode_counted

/-- Two rows a page list the extrinsics of one pallet in the three
blocks. -/
theorem latestExtrinsics_enumerates_batch :
    Enumerates (fun node req =>
        Rpc.latestExtrinsics plainNetwork node req ⟨none, some "Utility", none, none⟩) 2 batchNode
      (matchingNodeExtrinsics plainNetwork batchNode ⟨none, some "Utility", none, none⟩) := by
  obtain ⟨-, shown, rest, hsplit, -, -, henum, -, -, hall⟩ :=
    latestExtrinsics_enumerates plainNetwork batchNode ⟨none, some "Utility", none, none⟩
      (Nat.le_succ 1)
  obtain rfl : rest = [] := hall.mpr (windowsReach_of_le (by decide))
  rw [List.append_nil] at hsplit
  rwa [hsplit]

/-- And the events of one pallet. -/
theorem latestEvents_enumerates_batch :
    Enumerates (fun node req =>
        Rpc.latestEvents plainNetwork node req ⟨some "Balances", none⟩) 2 batchNode
      (matchingNodeEvents plainNetwork batchNode ⟨some "Balances", none⟩) := by
  obtain ⟨-, shown, rest, hsplit, -, -, henum, -, -, hall⟩ := latestEvents_enumerates plainNetwork
    ⟨some "Balances", none⟩ (Nat.le_succ 1) batchNode_counted
  obtain rfl : rest = [] := hall.mpr (windowsReach_of_le (by decide))
  rw [List.append_nil] at hsplit
  rwa [hsplit]

/-- And its transfers, one a page. -/
theorem latestTransfers_enumerates_batch :
    Enumerates (fun node req => Rpc.latestTransfers plainNetwork node ⟨none, none⟩ req) 1 batchNode
      ((matchingNodeTransfers plainNetwork batchNode ⟨none, none⟩).map Prod.fst) := by
  obtain ⟨-, shown, rest, hsplit, -, -, henum, -, -, hall⟩ :=
    latestTransfers_enumerates plainNetwork ⟨none, none⟩ (le_refl 1) batchNode_decode
  obtain rfl : rest = [] := hall.mpr (windowsReach_of_le (by decide))
  rw [List.append_nil] at hsplit
  rwa [hsplit]

end Transfers

end AllfeatExplorer
