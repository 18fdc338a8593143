import AllfeatExplorer.Lib.Walk
import Mathlib.Order.Lattice

/-!
# Keyset pagination

The keys of a table in descending order, a page of at most `n` below a
cursor, the last key of a full page as the next cursor. The keys may
change between two pages. A walk lists keys in strictly descending order
and every key that was there throughout, in full pages but the last, which
leaves no key of its state below those listed; over keys that do not
change it lists them all. There is a walk along whatever the states are
one after the other, where keys do not descend for ever.
-/

namespace AllfeatExplorer

variable {σ K : Type*} [LinearOrder K]

/-- Whether the key comes after the cursor. -/
def below (c : Option K) (k : K) : Bool := c.all fun x => decide (k < x)

/-- **One page**: the first `n` keys below the cursor. One more is asked
for, and tells whether there is a next page. -/
def keysetPage (n : ℕ) (ks : List K) (c : Option K) : List K × Option K :=
  let rows := (ks.filter (below c)).take (n + 1)
  if n < rows.length then (rows.take n, (rows.take n).getLast?) else (rows, none)

variable {n : ℕ} {ks : List K} {c : Option K} {k k' : K} {keys : σ → List K}
  {w : List (σ × List K)} {s : σ}

@[simp] theorem below_none : below (none : Option K) k = true := rfl

@[simp] theorem below_some : below (some k') k = true ↔ k < k' := by
  simp [below]

/-- The page is the first `n` keys. -/
theorem keysetPage_fst : (keysetPage n ks c).1 = (ks.filter (below c)).take n := by
  unfold keysetPage
  simp only [List.length_take, List.take_take]
  split
  · rw [Nat.min_eq_left (Nat.le_succ n)]
  · rw [List.take_of_length_le (by omega), List.take_of_length_le (by omega)]

/-- There is a next page where more than `n` keys are left. -/
theorem keysetPage_snd : (keysetPage n ks c).2 =
    if n < (ks.filter (below c)).length then ((ks.filter (below c)).take n).getLast? else none := by
  unfold keysetPage
  simp only [List.length_take, List.take_take]
  by_cases h : n < (ks.filter (below c)).length
  · rw [if_pos h, if_pos (by omega), Nat.min_eq_left (Nat.le_succ n)]
  · rw [if_neg h, if_neg (by omega)]

theorem keysetPage_of_next_eq_none (h : (keysetPage n ks c).2 = none) (hn : 0 < n) :
    (keysetPage n ks c).1 = ks.filter (below c) := by
  rw [keysetPage_snd] at h
  split at h
  · rename_i hlt
    have hempty := List.getLast?_eq_none_iff.mp h
    rw [List.take_eq_nil_iff] at hempty
    rcases hempty with rfl | hempty
    · omega
    · rw [hempty] at hlt
      exact absurd hlt (Nat.not_lt_zero n)
  · rw [keysetPage_fst, List.take_of_length_le (by omega)]

/-- **A page with a next one is full**, and parts the keys at its last. -/
theorem keysetPage_of_next_eq_some (hks : ks.Pairwise (· > ·))
    (h : (keysetPage n ks c).2 = some k) :
    (keysetPage n ks c).1.length = n ∧ below c k = true ∧ k ∈ ks ∧
      ks.filter (below c) = (keysetPage n ks c).1 ++ ks.filter (below (some k)) ∧
      ks.filter (below (some k)) ≠ [] := by
  rw [keysetPage_snd] at h
  split at h
  swap
  · cases h
  rename_i hlt
  have hlen : ((ks.filter (below c)).take n).length = n := by
    rw [List.length_take]
    omega
  have hmem : k ∈ ks.filter (below c) := List.mem_of_mem_take (List.mem_of_getLast? h)
  obtain ⟨hk, hbelow⟩ := List.mem_filter.mp hmem
  have hsorted : (ks.filter (below c)).Pairwise (· > ·) := hks.filter _
  -- The keys below the last one of the page are those the page leaves.
  obtain ⟨front, hfront⟩ := List.getLast?_eq_some_iff.mp h
  have hsplit : ks.filter (below c) = front ++ k :: (ks.filter (below c)).drop n := by
    rw [← List.singleton_append, ← List.append_assoc, ← hfront, List.take_append_drop]
  have hparts := hsplit ▸ hsorted
  rw [List.pairwise_append, List.pairwise_cons] at hparts
  have hrest : ks.filter (below (some k)) = (ks.filter (below c)).drop n := by
    have hstep : ks.filter (below (some k)) = (ks.filter (below c)).filter (below (some k)) := by
      rw [List.filter_filter]
      refine List.filter_congr fun x _ => ?_
      rcases c with - | y
      · simp
      · have hky : k < y := below_some.mp hbelow
        by_cases hx : x < k
        · simp [below, hx, lt_trans hx hky]
        · simp [below, hx]
    rw [hstep, hsplit, List.filter_append, List.filter_cons]
    have hnone : front.filter (below (some k)) = [] := by
      refine List.filter_eq_nil_iff.mpr fun x hx => ?_
      have hgt : x > k := hparts.2.2 x hx k List.mem_cons_self
      simpa using le_of_lt hgt
    have hall : ((ks.filter (below c)).drop n).filter (below (some k)) =
        (ks.filter (below c)).drop n :=
      List.filter_eq_self.mpr fun x hx => below_some.mpr (hparts.2.1.1 x hx)
    rw [← hsplit, hnone, hall, if_neg (by simp)]
    rfl
  refine ⟨by rw [keysetPage_fst, hlen], hbelow, hk, ?_, ?_⟩
  · rw [keysetPage_fst, hrest, List.take_append_drop]
  · rw [hrest]
    intro hnil
    have := congrArg List.length hnil
    rw [List.length_drop, List.length_nil] at this
    omega

/-- The next cursor is the least key of its page. -/
theorem keysetPage_last (hks : ks.Pairwise (· > ·)) (h : (keysetPage n ks c).2 = some k) :
    k ∈ (keysetPage n ks c).1 ∧ ∀ x ∈ (keysetPage n ks c).1, k ≤ x := by
  rw [keysetPage_snd] at h
  split at h
  swap
  · cases h
  rw [keysetPage_fst]
  refine ⟨List.mem_of_getLast? h, fun x hx => ?_⟩
  obtain ⟨front, hfront⟩ := List.getLast?_eq_some_iff.mp h
  have hsorted : (front ++ [k]).Pairwise (· > ·) := hfront ▸ (hks.filter _).take
  rw [hfront] at hx
  rcases List.mem_append.mp hx with hx | hx
  · exact le_of_lt ((List.pairwise_append.mp hsorted).2.2 x hx k List.mem_cons_self)
  · exact le_of_eq (List.mem_singleton.mp hx).symm

/-- A page has no next one exactly when it leaves no key below its own. -/
theorem keysetPage_snd_eq_none_iff (hn : 0 < n) (hks : ks.Pairwise (· > ·)) :
    (keysetPage n ks c).2 = none ↔
      ∀ k ∈ ks, below c k = true → ∃ k' ∈ (keysetPage n ks c).1, k' ≤ k := by
  constructor
  · intro hnone k hk hc
    refine ⟨k, ?_, le_rfl⟩
    rw [keysetPage_of_next_eq_none hnone hn]
    exact List.mem_filter.mpr ⟨hk, hc⟩
  · intro hleft
    by_contra hsome
    obtain ⟨k, hnext⟩ := Option.ne_none_iff_exists'.mp hsome
    obtain ⟨-, -, -, hparts, hmore⟩ := keysetPage_of_next_eq_some hks hnext
    -- A key that the page leaves is below its last, which is its least.
    obtain ⟨low, hlow⟩ := List.exists_mem_of_ne_nil _ hmore
    have hin : low ∈ ks.filter (below c) := by
      rw [hparts]
      exact List.mem_append_right _ hlow
    obtain ⟨hmem, hbelow⟩ := List.mem_filter.mp hlow
    obtain ⟨k', hk', hle⟩ := hleft low hmem (List.mem_filter.mp hin).2
    have hleast := (keysetPage_last hks hnext).2 k' hk'
    exact absurd (below_some.mp hbelow) (not_lt.mpr (hleast.trans hle))

/-- What is below a key below the cursor is below the cursor. -/
theorem below_of_lt {low : K} (hbelow : below c k = true) (hlt : low < k) :
    below c low = true := by
  cases c with
  | none => rfl
  | some top => exact below_some.mpr (hlt.trans (below_some.mp hbelow))

/-! ## Walks -/

/-- A keyset read of the keys of a state. -/
def keysetRead (keys : σ → List K) (n : ℕ) : σ → Option K → List K × Option K :=
  fun s c => keysetPage n (keys s) c

/-- **A walk lists keys in strictly descending order.** -/
theorem sorted_walk (hn : 0 < n) (h : Walk (answering (keysetRead keys n)) c w)
    (hkeys : ∀ x ∈ w, (keys x.1).Pairwise (· > ·)) :
    (w.flatMap Prod.snd).Pairwise (· > ·) ∧ ∀ k ∈ w.flatMap Prod.snd, below c k = true := by
  induction h with
  | @last s c p hread =>
    have hpage : keysetPage n (keys s) c = (p, none) := Option.some.inj hread
    have hp : p = (keys s).filter (below c) := by
      rw [← keysetPage_of_next_eq_none (congrArg Prod.snd hpage) hn, hpage]
    simp only [List.flatMap_singleton]
    rw [hp]
    exact ⟨(hkeys _ List.mem_cons_self).filter _, fun k hk => (List.mem_filter.mp hk).2⟩
  | @next s c p k w hread hrest ih =>
    have hpage : keysetPage n (keys s) c = (p, some k) := Option.some.inj hread
    have hs := hkeys _ List.mem_cons_self
    obtain ⟨-, hbelow, -, hparts, -⟩ := keysetPage_of_next_eq_some hs (congrArg Prod.snd hpage)
    rw [hpage] at hparts
    obtain ⟨hsorted, hlow⟩ := ih fun x hx => hkeys x (List.mem_cons_of_mem _ hx)
    have hpmem : ∀ x ∈ p, x ∈ (keys s).filter (below c) := by
      intro x hx
      rw [hparts]
      exact List.mem_append_left _ hx
    have hpk : ∀ x ∈ p, k ≤ x := by
      have hlast := (keysetPage_last hs (congrArg Prod.snd hpage)).2
      rwa [hpage] at hlast
    rw [List.flatMap_cons]
    constructor
    · refine List.pairwise_append.mpr ⟨?_, hsorted, fun x hx y hy => ?_⟩
      · have hfst := congrArg Prod.fst hpage
        simp only [keysetPage_fst] at hfst
        exact hfst ▸ (hs.filter _).take
      · exact lt_of_lt_of_le (below_some.mp (hlow y hy)) (hpk x hx)
    · intro x hx
      rcases List.mem_append.mp hx with hx | hx
      · exact (List.mem_filter.mp (hpmem x hx)).2
      · exact below_of_lt hbelow (below_some.mp (hlow x hx))

/-- **A key that is there throughout is listed.** -/
theorem mem_walk (hn : 0 < n) (h : Walk (answering (keysetRead keys n)) c w)
    (hkeys : ∀ x ∈ w, (keys x.1).Pairwise (· > ·)) (hc : below c k = true)
    (hk : ∀ x ∈ w, k ∈ keys x.1) : k ∈ w.flatMap Prod.snd := by
  induction h with
  | @last s c p hread =>
    have hpage : keysetPage n (keys s) c = (p, none) := Option.some.inj hread
    have hp : p = (keys s).filter (below c) := by
      rw [← keysetPage_of_next_eq_none (congrArg Prod.snd hpage) hn, hpage]
    rw [List.flatMap_singleton]
    exact hp ▸ List.mem_filter.mpr ⟨hk _ List.mem_cons_self, hc⟩
  | @next s c p k₀ w hread hrest ih =>
    have hpage : keysetPage n (keys s) c = (p, some k₀) := Option.some.inj hread
    obtain ⟨-, -, -, hparts, -⟩ :=
      keysetPage_of_next_eq_some (hkeys _ List.mem_cons_self) (congrArg Prod.snd hpage)
    have hmem : k ∈ (keys s).filter (below c) :=
      List.mem_filter.mpr ⟨hk _ List.mem_cons_self, hc⟩
    rw [hparts, hpage] at hmem
    rw [List.flatMap_cons]
    rcases List.mem_append.mp hmem with hp | hlow
    · exact List.mem_append_left _ hp
    · refine List.mem_append_right _ (ih (fun x hx => hkeys x (List.mem_cons_of_mem _ hx)) ?_ ?_)
      · exact (List.mem_filter.mp hlow).2
      · exact fun x hx => hk x (List.mem_cons_of_mem _ hx)

/-- **Every page but the last is full.** -/
theorem walk_full (h : Walk (answering (keysetRead keys n)) c w)
    (hkeys : ∀ x ∈ w, (keys x.1).Pairwise (· > ·)) : ∀ x ∈ w.dropLast, x.2.length = n := by
  induction h with
  | last hread => exact fun x hx => absurd hx List.not_mem_nil
  | @next s c p k w hread hrest ih =>
    have hpage : keysetPage n (keys s) c = (p, some k) := Option.some.inj hread
    obtain ⟨hlen, -⟩ :=
      keysetPage_of_next_eq_some (hkeys _ List.mem_cons_self) (congrArg Prod.snd hpage)
    rw [hpage] at hlen
    rw [List.dropLast_cons_of_ne_nil hrest.ne_nil]
    intro x hx
    rcases List.mem_cons.mp hx with rfl | hx
    · exact hlen
    · exact ih (fun y hy => hkeys y (List.mem_cons_of_mem _ hy)) x hx

/-- **A page is the last of its walk** exactly when it leaves no key of its
state below those listed so far. -/
theorem walk_last_iff (hn : 0 < n) {pre post : List (σ × List K)} {x : σ × List K}
    (h : Walk (answering (keysetRead keys n)) c (pre ++ x :: post))
    (hkeys : ∀ y ∈ pre ++ x :: post, (keys y.1).Pairwise (· > ·)) :
    post = [] ↔ ∀ k ∈ keys x.1, below c k = true →
      ∃ k' ∈ (pre ++ [x]).flatMap Prod.snd, k' ≤ k := by
  induction pre generalizing c with
  | nil =>
    rw [List.nil_append] at h hkeys ⊢
    rw [List.flatMap_singleton]
    have hs := hkeys x List.mem_cons_self
    cases h with
    | @last s _ p hread =>
      have hpage : keysetPage n (keys s) c = (p, none) := Option.some.inj hread
      have hleft := (keysetPage_snd_eq_none_iff hn hs).mp (congrArg Prod.snd hpage)
      rw [hpage] at hleft
      exact iff_of_true rfl hleft
    | @next s _ p k _ hread hrest =>
      have hpage : keysetPage n (keys s) c = (p, some k) := Option.some.inj hread
      have hiff := keysetPage_snd_eq_none_iff (c := c) hn hs
      rw [hpage] at hiff
      exact iff_of_false hrest.ne_nil fun hleft => Option.some_ne_none k (hiff.mpr hleft)
  | cons y pre ih =>
    rw [List.cons_append] at h hkeys
    generalize hrest : pre ++ x :: post = rest at h hkeys
    cases h with
    | last hread => simp at hrest
    | @next s _ p k _ hread hw =>
      subst hrest
      have hpage : keysetPage n (keys s) c = (p, some k) := Option.some.inj hread
      have hs := hkeys _ List.mem_cons_self
      obtain ⟨-, hbelow, -⟩ := keysetPage_of_next_eq_some hs (congrArg Prod.snd hpage)
      obtain ⟨hmem, hleast⟩ := keysetPage_last hs (congrArg Prod.snd hpage)
      rw [hpage] at hmem hleast
      rw [ih hw fun z hz => hkeys z (List.mem_cons_of_mem _ hz), List.cons_append,
        List.flatMap_cons]
      constructor
      · intro hleft low hlow _
        rcases lt_or_ge low k with hlt | hge
        · obtain ⟨k', hk', hle⟩ := hleft low hlow (below_some.mpr hlt)
          exact ⟨k', List.mem_append_right _ hk', hle⟩
        · exact ⟨k, List.mem_append_left _ hmem, hge⟩
      · intro hleft low hlow hlt
        have hlt' : low < k := below_some.mp hlt
        obtain ⟨k', hk', hle⟩ := hleft low hlow (below_of_lt hbelow hlt')
        rcases List.mem_append.mp hk' with hk' | hk'
        · exact absurd hlt' (not_lt.mpr ((hleast k' hk').trans hle))
        · exact ⟨k', hk', hle⟩

/-- **There is a walk along any states**, page `j` read in state `j`, where
keys do not descend for ever. -/
theorem exists_walk_along [WellFoundedLT K] {states : ℕ → σ}
    (hkeys : ∀ j, (keys (states j)).Pairwise (· > ·)) (c : Option K) :
    ∃ w, Walk (answering (keysetRead keys n)) c w ∧
      w.map Prod.fst = (List.range w.length).map states := by
  -- A walk after a next cursor is one in the states from 1 on.
  have hcons : ∀ {states : ℕ → σ} {c : Option K} {p : List K} {k : K} {w : List (σ × List K)},
      keysetPage n (keys (states 0)) c = (p, some k) →
      Walk (answering (keysetRead keys n)) (some k) w →
      w.map Prod.fst = (List.range w.length).map (fun j => states (j + 1)) →
      ∃ w, Walk (answering (keysetRead keys n)) c w ∧
        w.map Prod.fst = (List.range w.length).map states := by
    intro states c p k w hpage hw hstates
    refine ⟨(states 0, p) :: w, .next (congrArg some hpage) hw, ?_⟩
    rw [List.map_cons, List.length_cons, List.range_succ_eq_map, List.map_cons, List.map_map,
      hstates]
    rfl
  have hlast : ∀ {states : ℕ → σ} {c : Option K} {p : List K},
      keysetPage n (keys (states 0)) c = (p, none) →
      ∃ w, Walk (answering (keysetRead keys n)) c w ∧
        w.map Prod.fst = (List.range w.length).map states :=
    fun {states c p} hpage => ⟨[(states 0, p)], .last (congrArg some hpage), rfl⟩
  have hrec : ∀ (k : K) (states : ℕ → σ), (∀ j, (keys (states j)).Pairwise (· > ·)) →
      ∃ w, Walk (answering (keysetRead keys n)) (some k) w ∧
        w.map Prod.fst = (List.range w.length).map states := by
    intro k
    induction k using WellFoundedLT.induction with
    | _ k ih =>
      intro states hkeys
      rcases hpage : keysetPage n (keys (states 0)) (some k) with ⟨p, - | k'⟩
      · exact hlast hpage
      · obtain ⟨-, hbelow, -⟩ :=
          keysetPage_of_next_eq_some (hkeys 0) (congrArg Prod.snd hpage)
        obtain ⟨w, hw, hstates⟩ := ih k' (below_some.mp hbelow) (fun j => states (j + 1))
          fun j => hkeys (j + 1)
        exact hcons hpage hw hstates
  rcases hpage : keysetPage n (keys (states 0)) c with ⟨p, - | k⟩
  · exact hlast hpage
  · obtain ⟨w, hw, hstates⟩ := hrec k (fun j => states (j + 1)) fun j => hkeys (j + 1)
    exact hcons hpage hw hstates

/-- **Over keys that do not change** a walk lists those below the
cursor. -/
theorem walk_fixed (hn : 0 < n) (h : Walk (answering (keysetRead keys n)) c w)
    (hs : ∀ x ∈ w, x.1 = s) (hkeys : (keys s).Pairwise (· > ·)) :
    w.flatMap Prod.snd = (keys s).filter (below c) := by
  induction h with
  | @last s' c p hread =>
    obtain rfl : s' = s := hs _ List.mem_cons_self
    have hpage : keysetPage n (keys s') c = (p, none) := Option.some.inj hread
    rw [List.flatMap_singleton, ← keysetPage_of_next_eq_none (congrArg Prod.snd hpage) hn, hpage]
  | @next s' c p k w hread hrest ih =>
    obtain rfl : s' = s := hs _ List.mem_cons_self
    have hpage : keysetPage n (keys s') c = (p, some k) := Option.some.inj hread
    obtain ⟨-, -, -, hparts, -⟩ := keysetPage_of_next_eq_some hkeys (congrArg Prod.snd hpage)
    rw [hpage] at hparts
    rw [List.flatMap_cons, ih fun x hx => hs x (List.mem_cons_of_mem _ hx), hparts]

/-- **A page of such a walk is its last one** exactly when no key is left. -/
theorem walk_fixed_last_iff (hn : 0 < n) {pre post : List (σ × List K)} {x : σ × List K}
    (h : Walk (answering (keysetRead keys n)) none (pre ++ x :: post))
    (hs : ∀ y ∈ pre ++ x :: post, y.1 = s) (hkeys : (keys s).Pairwise (· > ·)) :
    post = [] ↔ ∀ k ∈ keys s, k ∈ (pre ++ [x]).flatMap Prod.snd := by
  have hlist := walk_fixed hn h hs hkeys
  have hall : (keys s).filter (below none) = keys s := List.filter_eq_self.mpr fun _ _ => rfl
  rw [hall] at hlist
  constructor
  · rintro rfl k hk
    rwa [hlist]
  · intro hleft
    refine (walk_last_iff hn h fun y hy => hs y hy ▸ hkeys).mpr fun k hk _ => ⟨k, ?_, le_rfl⟩
    exact hleft k (hs x (List.mem_append_right _ List.mem_cons_self) ▸ hk)

/-- **There is a walk** over keys that do not change. -/
theorem exists_walk_fixed (hn : 0 < n) (hkeys : (keys s).Pairwise (· > ·)) (c : Option K) :
    ∃ w, Walk (answering (keysetRead keys n)) c w ∧ ∀ x ∈ w, x.1 = s := by
  have hrec : ∀ m c, ((keys s).filter (below c)).length ≤ m →
      ∃ w, Walk (answering (keysetRead keys n)) c w ∧ ∀ x ∈ w, x.1 = s := by
    intro m
    induction m with
    | zero =>
      intro c hm
      refine ⟨[(s, [])], .last ?_, fun x hx => (List.mem_singleton.mp hx) ▸ rfl⟩
      have hnil : (keys s).filter (below c) = [] := List.length_eq_zero_iff.mp (by omega)
      simp only [answering, keysetRead, keysetPage, hnil]
      rfl
    | succ m ih =>
      intro c hm
      rcases hnext : (keysetPage n (keys s) c).2 with - | k
      · refine ⟨[(s, (keysetPage n (keys s) c).1)], .last ?_, fun x hx => ?_⟩
        · exact congrArg some (Prod.ext rfl hnext)
        · rw [List.mem_singleton.mp hx]
      · obtain ⟨hlen, -, -, hparts, -⟩ := keysetPage_of_next_eq_some hkeys hnext
        have hshorter : ((keys s).filter (below (some k))).length ≤ m := by
          have := congrArg List.length hparts
          rw [List.length_append, hlen] at this
          omega
        obtain ⟨w, hw, hws⟩ := ih (some k) hshorter
        refine ⟨(s, (keysetPage n (keys s) c).1) :: w,
          .next (congrArg some (Prod.ext rfl hnext)) hw, fun x hx => ?_⟩
        rcases List.mem_cons.mp hx with rfl | hx
        · rfl
        · exact hws x hx
  exact hrec _ c (Nat.le_refl _)

end AllfeatExplorer
