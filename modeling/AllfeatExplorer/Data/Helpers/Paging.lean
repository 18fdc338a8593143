import AllfeatExplorer.Lib.Keyset
import AllfeatExplorer.Data.Model.Lists

/-!
# Lists paged by a key

What it is for a list endpoint to be paged by a key (`PagedByKey`): what
holds of a walk over it, whatever happens to the table between two
pages, and what besides of one over a table that does not change. A list
is, where it answers as a page of keys would (`PagedByKey.of_refines`),
and it does where its query reads the rows below the cursor in the order
of their keys, one more than the page takes (`refines_of_probe`). Where
keys do not descend for ever its pages are full, and its walks end,
whatever the table becomes between two pages (`PagedWhileChanging`).
-/

namespace AllfeatExplorer

open Queries

variable {σ ρ α K : Type} [LinearOrder K]

/-- **A list is paged by a key.** `keys` are those of the rows that match
in a state, and `sound` are the states in which rows are as they should
be. -/
structure PagedByKey (list : σ → PageRequest → Except BadRequest (Page α)) (key : α → K)
    (keys : σ → List K) (sound : σ → Prop) : Prop where
  /-- The keys listed descend, so none is listed twice. -/
  descending : ∀ count, 1 ≤ count → ∀ w, Walk (pageRead list count) none w →
    (∀ x ∈ w, sound x.1) → (w.flatMap fun x => x.2.items.map key).Pairwise (· > ·)
  /-- What is listed matches. -/
  matching : ∀ count, 1 ≤ count → ∀ w, Walk (pageRead list count) none w →
    (∀ x ∈ w, sound x.1) → ∀ x ∈ w, ∀ a ∈ x.2.items, key a ∈ keys x.1
  /-- What matches throughout is listed. -/
  complete : ∀ count, 1 ≤ count → ∀ w, Walk (pageRead list count) none w →
    (∀ x ∈ w, sound x.1) → ∀ k, (∀ x ∈ w, k ∈ keys x.1) →
    k ∈ w.flatMap fun x => x.2.items.map key
  /-- Over a table that does not change every page but the last is full. -/
  full : ∀ count, 1 ≤ count → ∀ w, Walk (pageRead list count) none w → ∀ s, sound s →
    (∀ x ∈ w, x.1 = s) → ∀ x ∈ w.dropLast, x.2.items.length = count
  /-- And a page has no next cursor exactly when no further row matches. -/
  ends : ∀ count, 1 ≤ count → ∀ pre x post, Walk (pageRead list count) none (pre ++ x :: post) →
    ∀ s, sound s → (∀ y ∈ pre ++ x :: post, y.1 = s) →
    (x.2.pageInfo.nextCursor = none ↔
      ∀ k ∈ keys s, k ∈ (pre ++ [x]).flatMap fun y => y.2.items.map key)
  /-- There is such a walk. -/
  walks : ∀ count, 1 ≤ count → ∀ s, sound s →
    ∃ w, Walk (pageRead list count) none w ∧ ∀ x ∈ w, x.1 = s

/-- **Its pages and its end, over a table that changes** between the
pages, in states that are sound. -/
structure PagedWhileChanging (list : σ → PageRequest → Except BadRequest (Page α)) (key : α → K)
    (keys : σ → List K) (sound : σ → Prop) : Prop where
  /-- Every page but the last is full. -/
  full : ∀ count, 1 ≤ count → ∀ w, Walk (pageRead list count) none w →
    (∀ x ∈ w, sound x.1) → ∀ x ∈ w.dropLast, x.2.items.length = count
  /-- A page has no next cursor exactly when it is the last, -/
  last : ∀ count, 1 ≤ count → ∀ pre x post,
    Walk (pageRead list count) none (pre ++ x :: post) →
    (x.2.pageInfo.nextCursor = none ↔ post = [])
  /-- and that is when no row of its state is below all those listed. -/
  ends : ∀ count, 1 ≤ count → ∀ pre x post,
    Walk (pageRead list count) none (pre ++ x :: post) → (∀ y ∈ pre ++ x :: post, sound y.1) →
    (x.2.pageInfo.nextCursor = none ↔
      ∀ k ∈ keys x.1, ∃ k' ∈ (pre ++ [x]).flatMap fun y => y.2.items.map key, k' ≤ k)
  /-- Whatever the table is at each page, the walk ends. -/
  walks : ∀ count, 1 ≤ count → ∀ states : ℕ → σ, (∀ j, sound (states j)) →
    ∃ w, Walk (pageRead list count) none w ∧ w.map Prod.fst = (List.range w.length).map states

variable {list : σ → PageRequest → Except BadRequest (Page α)} {key : α → K} {keys : σ → List K}
  {sound : σ → Prop} {okC : K → Prop} {text : K → String}

omit [LinearOrder K] in
/-- The pages of a walk, by key. -/
theorem flatMap_content (w : List (σ × Page α)) :
    (w.map fun x => (x.1, x.2.items.map key)).flatMap Prod.snd =
      w.flatMap fun x => x.2.items.map key :=
  List.flatMap_map _ _ _

/-- A page has no next cursor exactly when it is its walk's last. -/
theorem nextCursor_eq_none_iff {count : ℕ} {pre post : List (σ × Page α)} {x : σ × Page α}
    (hw : Walk (pageRead list count) none (pre ++ x :: post)) :
    x.2.pageInfo.nextCursor = none ↔ post = [] := by
  obtain ⟨c, n, hread, hcase⟩ := hw.split
  obtain ⟨-, rfl⟩ := pageRead_eq_some.mp hread
  rcases hcase with ⟨hn, hpost⟩ | ⟨k, hk, hrest⟩
  · exact iff_of_true hn hpost
  · exact iff_of_false (by rw [hk]; simp) hrest.ne_nil

/-- A walk over such a list, by its keys. -/
theorem keysetWalk_of_refines {count : ℕ} {w : List (σ × Page α)}
    (h : Refines (pageRead list count) (keysetRead keys count) text
      (fun p => p.items.map key) sound okC)
    (hw : Walk (pageRead list count) none w) (hs : ∀ x ∈ w, sound x.1) :
    Walk (answering (keysetRead keys count)) none (w.map fun x => (x.1, x.2.items.map key)) :=
  h.walk (Option.map_none (f := text)).symm (fun _ hk => absurd hk (Option.not_mem_none _)) hw hs

omit [LinearOrder K] in
/-- What holds of a walk's states holds of those of its keys. -/
theorem forall_mem_keysetWalk (key : α → K) {p : σ → Prop} {w : List (σ × Page α)}
    (hs : ∀ x ∈ w, p x.1) :
    ∀ y ∈ w.map fun x => (x.1, x.2.items.map key), p y.1 := by
  intro y hy
  obtain ⟨x, hx, rfl⟩ := List.mem_map.mp hy
  exact hs x hx

/-- Every page of such a walk but the last is full. -/
theorem length_items_of_refines {count : ℕ} {w : List (σ × Page α)}
    (h : Refines (pageRead list count) (keysetRead keys count) text
      (fun p => p.items.map key) sound okC)
    (hkeys : ∀ s, sound s → (keys s).Pairwise (· > ·)) (hw : Walk (pageRead list count) none w)
    (hs : ∀ x ∈ w, sound x.1) : ∀ x ∈ w.dropLast, x.2.items.length = count := by
  intro x hx
  have hfull := walk_full (keysetWalk_of_refines h hw hs)
    fun y hy => hkeys _ (forall_mem_keysetWalk key hs y hy)
  rw [← List.map_dropLast] at hfull
  have hlen := hfull _ (List.mem_map_of_mem hx)
  rwa [List.length_map] at hlen

/-- **A list that answers as a page of keys would is paged by key.** -/
theorem PagedByKey.of_refines (okC : K → Prop) (text : K → String)
    (h : ∀ count, 1 ≤ count → Refines (pageRead list count) (keysetRead keys count) text
      (fun p => p.items.map key) sound okC)
    (hkeys : ∀ s, sound s → (keys s).Pairwise (· > ·)) : PagedByKey list key keys sound := by
  refine ⟨?_, ?_, ?_, ?_, ?_, ?_⟩
  · intro count hcount w hw hs
    rw [← flatMap_content]
    exact (sorted_walk hcount (keysetWalk_of_refines (h count hcount) hw hs)
      fun y hy => hkeys _ (forall_mem_keysetWalk key hs y hy)).1
  · intro count hcount w hw hs x hx a ha
    obtain ⟨c, n, hread⟩ :=
      (keysetWalk_of_refines (h count hcount) hw hs).mem (List.mem_map_of_mem hx)
    have hpage : (keysetPage count (keys x.1) c).1 = x.2.items.map key :=
      congrArg Prod.fst (Option.some.inj hread)
    have hmem : key a ∈ (keysetPage count (keys x.1) c).1 := hpage ▸ List.mem_map_of_mem ha
    rw [keysetPage_fst] at hmem
    exact List.mem_of_mem_filter (List.mem_of_mem_take hmem)
  · intro count hcount w hw hs k hk
    rw [← flatMap_content]
    exact mem_walk hcount (keysetWalk_of_refines (h count hcount) hw hs)
      (fun y hy => hkeys _ (forall_mem_keysetWalk key hs y hy)) rfl
      (forall_mem_keysetWalk key (p := fun t => k ∈ keys t) hk)
  · intro count hcount w hw s hsound hs
    exact length_items_of_refines (h count hcount) hkeys hw fun y hy => hs y hy ▸ hsound
  · intro count hcount pre x post hw s hsound hs
    have hwalk := keysetWalk_of_refines (h count hcount) hw fun y hy => hs y hy ▸ hsound
    have hfixed := forall_mem_keysetWalk key (p := fun t => t = s) hs
    rw [List.map_append, List.map_cons] at hwalk hfixed
    have hlast := walk_fixed_last_iff hcount hwalk hfixed (hkeys s hsound)
    rw [nextCursor_eq_none_iff hw,
      ← List.map_eq_nil_iff (f := fun y : σ × Page α => (y.1, y.2.items.map key)),
      hlast, ← flatMap_content, List.map_append, List.map_singleton]
  · intro count hcount s hsound
    obtain ⟨w', hw', hs'⟩ := exists_walk_fixed hcount (hkeys s hsound) none
    obtain ⟨w, hw, hmap⟩ := (h count hcount).exists_walk
      (fun _ hk => absurd hk (Option.not_mem_none _)) hw' fun x hx => hs' x hx ▸ hsound
    refine ⟨w, hw, fun x hx => ?_⟩
    exact hs' _ (hmap ▸ List.mem_map_of_mem hx)

/-- **And so while the table changes**, where keys do not descend for
ever. -/
theorem PagedWhileChanging.of_refines [WellFoundedLT K] (okC : K → Prop) (text : K → String)
    (h : ∀ count, 1 ≤ count → Refines (pageRead list count) (keysetRead keys count) text
      (fun p => p.items.map key) sound okC)
    (hkeys : ∀ s, sound s → (keys s).Pairwise (· > ·)) :
    PagedWhileChanging list key keys sound := by
  refine ⟨?_, ?_, ?_, ?_⟩
  · exact fun count hcount w hw hs => length_items_of_refines (h count hcount) hkeys hw hs
  · exact fun count _ pre x post hw => nextCursor_eq_none_iff hw
  · intro count hcount pre x post hw hs
    have hwalk := keysetWalk_of_refines (h count hcount) hw hs
    have hsounds := forall_mem_keysetWalk key hs
    rw [List.map_append, List.map_cons] at hwalk hsounds
    have hlast := walk_last_iff hcount hwalk fun y hy => hkeys _ (hsounds y hy)
    simp only [below_none, true_implies] at hlast
    rw [nextCursor_eq_none_iff hw,
      ← List.map_eq_nil_iff (f := fun y : σ × Page α => (y.1, y.2.items.map key)),
      hlast, ← flatMap_content, List.map_append, List.map_singleton]
  · intro count hcount states hstates
    obtain ⟨w', hw', hs'⟩ :=
      exists_walk_along (n := count) (fun j => hkeys (states j) (hstates j)) none
    have hsound : ∀ x ∈ w', sound x.1 := by
      intro x hx
      have hmem := List.mem_map_of_mem (f := Prod.fst) hx
      rw [hs'] at hmem
      obtain ⟨j, -, hj⟩ := List.mem_map.mp hmem
      exact hj ▸ hstates j
    obtain ⟨w, hw, rfl⟩ := (h count hcount).exists_walk
      (fun _ hk => absurd hk (Option.not_mem_none _)) hw' hsound
    refine ⟨w, hw, ?_⟩
    rwa [List.map_map, List.length_map] at hs'

/-! ## A probe -/

omit [LinearOrder K] in
/-- Trimming a probe of one row more leaves the first `n` rows, and tells
whether there are others. -/
theorem trimProbe_take (n : ℕ) (rows : List ρ) :
    trimProbe n (rows.take (n + 1)) = (rows.take n, decide (n < rows.length)) := by
  unfold trimProbe
  rw [List.length_take, List.take_take]
  by_cases h : n < rows.length
  · rw [if_pos (by omega), Nat.min_eq_left (Nat.le_succ n), decide_eq_true h]
  · rw [if_neg (by omega), decide_eq_false h, List.take_of_length_le (by omega),
      List.take_of_length_le (by omega)]

omit [LinearOrder K] in
/-- Rows are trimmed as what they convert to is. -/
theorem trimProbe_map {f : ρ → α} (n : ℕ) (rows : List ρ) :
    trimProbe n (rows.map f) = ((trimProbe n rows).1.map f, (trimProbe n rows).2) := by
  unfold trimProbe
  rw [List.length_map]
  split
  · rw [List.map_take]
  · rfl

omit [LinearOrder K] in
/-- **A probe that converts row by row** is trimmed as its rows are. -/
theorem trimProbe_of_keys {n : ℕ} {probed : List α} {kept : List ρ} {rowKey : ρ → K}
    (h : probed.map key = (kept.take (n + 1)).map rowKey) :
    (trimProbe n probed).1.map key = (kept.take n).map rowKey ∧
      (trimProbe n probed).2 = decide (n < kept.length) := by
  have hmap : trimProbe n (probed.map key) = trimProbe n ((kept.take (n + 1)).map rowKey) := by
    rw [h]
  rw [trimProbe_map, trimProbe_map, trimProbe_take] at hmap
  exact Prod.mk.inj hmap

/-- **A list that probes the rows below its cursor** answers as a page of
their keys would: it trims the probe to the page, and takes the next
cursor off the last row of a page that was longer. -/
theorem refines_of_probe {okC : K → Prop} {text : K → String} {rows : σ → List ρ} {rowKey : ρ → K}
    {count : ℕ} (hlist : ∀ s c, sound s → (∀ k ∈ c, okC k) →
      ∃ page, list s ⟨count, c.map text⟩ = .ok page ∧
        page.items.map key =
          (((rows s).filter fun r => below c (rowKey r)).take count).map rowKey ∧
        page.pageInfo.nextCursor =
          if count < ((rows s).filter fun r => below c (rowKey r)).length then
            ((page.items.map key).getLast?).map text
          else none)
    (hok : ∀ s, sound s → ∀ r ∈ rows s, okC (rowKey r)) :
    Refines (pageRead list count) (keysetRead (fun s => (rows s).map rowKey) count) text
      (fun p => p.items.map key) sound okC := by
  refine ⟨?_, ?_⟩
  · intro s c hs hc
    obtain ⟨page, hpage, hitems, hnext⟩ := hlist s c hs hc
    have hfilter : ((rows s).map rowKey).filter (below c) =
        ((rows s).filter fun r => below c (rowKey r)).map rowKey := by
      rw [List.filter_map]
      rfl
    refine ⟨page, pageRead_eq_some.mpr ⟨hpage, ?_⟩, ?_⟩
    · rw [hnext, hitems, keysetRead, keysetPage_snd, hfilter, List.length_map, List.map_take]
      split <;> rfl
    · rw [hitems, keysetRead, keysetPage_fst, hfilter, List.map_take]
  · intro s c k hs hnext
    rw [keysetRead, keysetPage_snd] at hnext
    split at hnext
    · have hmem := List.mem_of_mem_filter (List.mem_of_mem_take (List.mem_of_getLast? hnext))
      obtain ⟨r, hr, rfl⟩ := List.mem_map.mp hmem
      exact hok s hs r hr
    · cases hnext

/-- **It is paged by their keys.** -/
theorem PagedByKey.of_probe (okC : K → Prop) (text : K → String) (rows : σ → List ρ)
    (rowKey : ρ → K) (hlist : ∀ count, 1 ≤ count → ∀ s c, sound s → (∀ k ∈ c, okC k) →
      ∃ page, list s ⟨count, c.map text⟩ = .ok page ∧
        page.items.map key =
          (((rows s).filter fun r => below c (rowKey r)).take count).map rowKey ∧
        page.pageInfo.nextCursor =
          if count < ((rows s).filter fun r => below c (rowKey r)).length then
            ((page.items.map key).getLast?).map text
          else none)
    (hok : ∀ s, sound s → ∀ r ∈ rows s, okC (rowKey r))
    (hsorted : ∀ s, sound s → (rows s).Pairwise fun a b => rowKey b < rowKey a) :
    PagedByKey list key (fun s => (rows s).map rowKey) sound :=
  .of_refines okC text (fun count hcount => refines_of_probe (hlist count hcount) hok)
    fun s hs => List.pairwise_map.mpr (hsorted s hs)

/-! ## Keys and columns -/

/-- **A `(BIGINT, INT)` key that is not negative.** -/
structure KeyFits (k : ℤ ×ₗ ℤ) : Prop where
  fst_nonneg : 0 ≤ (ofLex k).1
  fst_le : (ofLex k).1 ≤ i64Max
  snd_nonneg : 0 ≤ (ofLex k).2
  snd_le : (ofLex k).2 ≤ i32Max

/-- The key as it is shown. -/
def natKey (k : ℤ ×ₗ ℤ) : ℕ ×ₗ ℕ := toLex ((max (ofLex k).1 0).toNat, (max (ofLex k).2 0).toNat)

/-- A cursor whose numbers fit their columns. -/
def CursorFits (c : ℕ ×ₗ ℕ) : Prop := (ofLex c).1 ≤ i64Max ∧ (ofLex c).2 ≤ i32Max

theorem KeyFits.cursorFits {k : ℤ ×ₗ ℤ} (h : KeyFits k) : CursorFits (natKey k) := by
  have h₁ := h.fst_nonneg
  have h₂ := h.fst_le
  have h₃ := h.snd_nonneg
  have h₄ := h.snd_le
  constructor
  · change (max (ofLex k).1 0).toNat ≤ i64Max
    omega
  · change (max (ofLex k).2 0).toNat ≤ i32Max
    omega

/-- Keys are shown in their order. -/
theorem natKey_lt_natKey {k k' : ℤ ×ₗ ℤ} (h : KeyFits k) (h' : KeyFits k') :
    natKey k < natKey k' ↔ k < k' := by
  have h₁ := h.fst_nonneg
  have h₂ := h.snd_nonneg
  have h₃ := h'.fst_nonneg
  have h₄ := h'.snd_nonneg
  rw [Prod.Lex.lt_iff, Prod.Lex.lt_iff]
  simp only [natKey, ofLex_toLex]
  omega

/-- **The `WHERE` of a keyset list** compares the keys shown. -/
theorem belowUpper_eq {k : ℤ ×ₗ ℤ} {c : Option (ℕ ×ₗ ℕ)} (h : KeyFits k)
    (hc : ∀ k ∈ c, CursorFits k) : belowUpper (c.map ofLex) k = below c (natKey k) := by
  rcases c with - | c
  · rfl
  · obtain ⟨hfst, hsnd⟩ := hc c rfl
    have h₁ := h.fst_nonneg
    have h₂ := h.snd_nonneg
    simp only [belowUpper, below, Option.map_some, Option.all_some, asI64_of_le hfst,
      asI32_of_le hsnd]
    refine decide_eq_decide.mpr ?_
    rw [Prod.Lex.lt_iff, Prod.Lex.lt_iff]
    simp only [natKey, ofLex_toLex]
    omega

omit [LinearOrder K] in
/-- A cursor that fits reads back, in either column order. -/
theorem parseCursor_lex {text : CursorText (ℕ × ℕ)} {count : ℕ} {c : Option (ℕ ×ₗ ℕ)}
    (htext : text.RoundTrips fun c => c.1 ≤ u64Max ∧ c.2 ≤ u32Max) (hc : ∀ k ∈ c, CursorFits k) :
    parseCursor text ⟨count, c.map fun k => text.toText (ofLex k)⟩ = .ok (c.map ofLex) := by
  have hmap : (c.map fun k => text.toText (ofLex k)) = (c.map ofLex).map text.toText := by
    rw [Option.map_map]
    rfl
  rw [hmap]
  refine parseCursor_toText htext fun k hk => ?_
  obtain ⟨k', hk', rfl⟩ := Option.map_eq_some_iff.mp hk
  have hfit := hc k' hk'
  simp only [CursorFits, i64Max, i32Max] at hfit
  simp only [u64Max, u32Max]
  omega

omit [LinearOrder K] in
/-- The next cursor is the text of the last key. -/
theorem nextCursor_eq {hasMore : Bool} {rows : List α} (key : α → K) (text : K → String) :
    nextCursor hasMore (fun a => text (key a)) rows =
      if hasMore then ((rows.map key).getLast?).map text else none := by
  unfold nextCursor
  rw [List.getLast?_map, Option.map_map]
  rfl

theorem tightest_none (c : Option (ℕ × ℕ)) : tightest c none = c := by
  cases c <;> rfl

end AllfeatExplorer
