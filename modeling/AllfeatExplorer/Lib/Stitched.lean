import AllfeatExplorer.Lib.Keyset
import Mathlib.Tactic.Linarith

/-!
# Pages stitched from two sources

Numbers in descending order: those above a seam come from a source that
only looks a window down from where the page starts, those below it from
one that is asked for a number of rows. A page is what the window gives,
filled up from below. Once a page takes something from below, the next
ones start below the seam, so a number above it that lies further down
than its window is not listed.
-/

namespace AllfeatExplorer

variable {σ : Type*}

/-! ## Descending lists -/

/-- Two descending lists with the same members are equal. -/
theorem eq_of_mem_iff {l l' : List ℕ} (h : l.Pairwise (· > ·)) (h' : l'.Pairwise (· > ·))
    (hmem : ∀ x, x ∈ l ↔ x ∈ l') : l = l' := by
  have hnodup : ∀ {l : List ℕ}, l.Pairwise (· > ·) → l.Nodup :=
    fun h => h.imp fun hab => ne_of_gt hab
  refine List.Perm.eq_of_pairwise ?_ h h' ((List.perm_ext_iff_of_nodup (hnodup h) (hnodup h')).mpr
    hmem)
  intro a b _ _ hab hba
  exact absurd hab (Nat.lt_asymm hba)

/-- What comes first in a descending list is what is large. -/
theorem filter_eq_take {l : List ℕ} (h : l.Pairwise (· > ·)) {p : ℕ → Bool}
    (hp : ∀ x y, x ≤ y → p x = true → p y = true) : l.filter p = l.take (l.filter p).length := by
  induction l with
  | nil => rfl
  | cons a l ih =>
    obtain ⟨ha, hl⟩ := List.pairwise_cons.mp h
    by_cases hpa : p a = true
    · rw [List.filter_cons_of_pos hpa, List.length_cons, List.take_succ_cons, ← ih hl]
    · have hnil : l.filter p = [] := by
        refine List.filter_eq_nil_iff.mpr fun x hx hpx => hpa ?_
        exact hp x a (le_of_lt (ha x hx)) hpx
      rw [List.filter_cons_of_neg hpa, hnil]
      rfl

/-- What is below the last of the first `n` numbers is what they leave. -/
theorem filter_lt_getLast {l : List ℕ} {n k : ℕ} (h : l.Pairwise (· > ·))
    (hk : (l.take n).getLast? = some k) : l.filter (fun x => decide (x < k)) = l.drop n := by
  have hparts : (l.take n ++ l.drop n).Pairwise (· > ·) := by
    rw [List.take_append_drop]
    exact h
  obtain ⟨hfirst, -, hcross⟩ := List.pairwise_append.mp hparts
  obtain ⟨front, hfront⟩ := List.getLast?_eq_some_iff.mp hk
  have hge : ∀ x ∈ l.take n, k ≤ x := by
    rw [hfront] at hfirst ⊢
    intro x hx
    rcases List.mem_append.mp hx with hx | hx
    · exact le_of_lt ((List.pairwise_append.mp hfirst).2.2 x hx k List.mem_cons_self)
    · exact le_of_eq (List.mem_singleton.mp hx).symm
  have hnone : (l.take n).filter (fun x => decide (x < k)) = [] := by
    refine List.filter_eq_nil_iff.mpr fun x hx hlt => ?_
    exact absurd (of_decide_eq_true hlt) (Nat.not_lt.mpr (hge x hx))
  have hall : (l.drop n).filter (fun x => decide (x < k)) = l.drop n :=
    List.filter_eq_self.mpr fun x hx =>
      decide_eq_true (hcross k (List.mem_of_getLast? hk) x hx)
  calc l.filter (fun x => decide (x < k))
      = (l.take n ++ l.drop n).filter (fun x => decide (x < k)) := by rw [List.take_append_drop]
    _ = l.drop n := by rw [List.filter_append, hnone, hall, List.nil_append]

/-- Parts above and below a seam are told apart. -/
theorem append_eq_append_of_seam {seam : ℕ} {u u' v v' : List ℕ} (hu : ∀ x ∈ u, seam < x)
    (hu' : ∀ x ∈ u', seam < x) (hv : ∀ x ∈ v, x ≤ seam) (hv' : ∀ x ∈ v', x ≤ seam)
    (h : u ++ v = u' ++ v') : u = u' ∧ v = v' := by
  have habove : ∀ {u v : List ℕ}, (∀ x ∈ u, seam < x) → (∀ x ∈ v, x ≤ seam) →
      (u ++ v).filter (fun x => decide (seam < x)) = u := by
    intro u v hu hv
    rw [List.filter_append, List.filter_eq_self.mpr fun x hx => decide_eq_true (hu x hx),
      List.filter_eq_nil_iff.mpr fun x hx => by simpa using hv x hx, List.append_nil]
  have heq : u = u' := by rw [← habove hu hv, h, habove hu' hv']
  subst heq
  exact ⟨rfl, List.append_cancel_left h⟩

/-! ## Pages -/

/-- **One page.** The window goes `n` down from the cursor; below the seam
`probe need` rows are asked for, and one more than is needed tells that
there is a next page. -/
def stitchedPage (n : ℕ) (probe : ℕ → ℕ) (top : ℕ) (upper lower : List ℕ) (c : Option ℕ) :
    List ℕ × Option ℕ :=
  let start := c.elim top (· - 1)
  let pending := ((upper.filter fun x => decide (x ≤ start)).filter fun x =>
    decide (start ≤ x + n)).take n
  let need := n - pending.length
  if need = 0 then (pending, pending.getLast?)
  else
    let rows := (lower.filter (below c)).take (probe need)
    if need < rows.length then (pending ++ rows.take need, (rows.take need).getLast?)
    else (pending ++ rows, none)

/-- The read of two sources that may differ from state to state. -/
def stitchedRead (n : ℕ) (probe : ℕ → ℕ) (top : σ → ℕ) (upper lower : σ → List ℕ) :
    σ → Option ℕ → List ℕ × Option ℕ :=
  fun s => stitchedPage n probe (top s) (upper s) (lower s)

/-- **Two sources on the two sides of a seam.** A probe asks for one row
more than is needed, but that of a whole page may ask for none. -/
structure Zones (n : ℕ) (probe : ℕ → ℕ) (seam : ℕ) (upper lower : List ℕ) : Prop where
  pos : 0 < n
  upper_sorted : upper.Pairwise (· > ·)
  lower_sorted : lower.Pairwise (· > ·)
  upper_gt : ∀ x ∈ upper, seam < x
  lower_le : ∀ x ∈ lower, x ≤ seam
  probe_lt : ∀ m, 0 < m → m < n → probe m = m + 1
  probe_page : probe n = n + 1 ∨ probe n = 0

/-- Where the page number `k` of full pages starts. -/
def pageTop (n start : ℕ) (l : List ℕ) : ℕ → ℕ
  | 0 => start
  | k + 1 => l.getD ((k + 1) * n - 1) 0 - 1

/-- **Every number lies in the window of its page.** -/
def InWindow (n start : ℕ) (l : List ℕ) : Prop :=
  ∀ i (h : i < l.length), pageTop n start l (i / n) ≤ l[i] + n

/-- **What is listed from below**, after a page that has `r` from above:
everything, where a whole page can be asked for, else what fits that
page. -/
def listedBelow (n : ℕ) (probe : ℕ → ℕ) (lower : List ℕ) (r : ℕ) : List ℕ :=
  if probe n = 0 then lower.take (if r = 0 then 0 else n - r) else lower

variable {n : ℕ} {probe : ℕ → ℕ} {seam start : ℕ} {l : List ℕ}

/-- A list shorter than a page is in one window. -/
theorem inWindow_iff_of_lt (h : l.length < n) : InWindow n start l ↔ ∀ x ∈ l, start ≤ x + n := by
  have hpage : ∀ i < l.length, pageTop n start l (i / n) = start := by
    intro i hi
    rw [Nat.div_eq_of_lt (by omega)]
    rfl
  rw [List.forall_mem_iff_getElem]
  constructor
  · intro hw i hi
    have := hw i hi
    rwa [hpage i hi] at this
  · intro hw i hi
    rw [hpage i hi]
    exact hw i hi

/-- **The first page of a longer list**, and the others. -/
theorem inWindow_iff_of_le (hn : 0 < n) (h : n ≤ l.length) : InWindow n start l ↔
    (∀ x ∈ l.take n, start ≤ x + n) ∧ InWindow n (l.getD (n - 1) 0 - 1) (l.drop n) := by
  have hshift : ∀ k, pageTop n start l (k + 1) =
      pageTop n (l.getD (n - 1) 0 - 1) (l.drop n) k := by
    intro k
    rcases k with - | k
    · simp [pageTop]
    · have hindex : (k + 1 + 1) * n - 1 = n + ((k + 1) * n - 1) := by
        have hpos : 0 < (k + 1) * n := Nat.mul_pos (Nat.succ_pos k) hn
        have hmul : (k + 1 + 1) * n = (k + 1) * n + n := Nat.succ_mul (k + 1) n
        omega
      simp only [pageTop, hindex, List.getD_eq_getElem?_getD, List.getElem?_drop]
  constructor
  · intro hw
    refine ⟨?_, fun i hi => ?_⟩
    · rw [List.forall_mem_iff_getElem]
      intro i hi
      have hin : i < n := by
        rw [List.length_take] at hi
        omega
      have hwi := hw i (by omega)
      rw [Nat.div_eq_of_lt hin] at hwi
      rw [List.getElem_take]
      exact hwi
    · rw [List.length_drop] at hi
      have hwi := hw (n + i) (by omega)
      rw [Nat.add_div_left i hn, hshift] at hwi
      rw [List.getElem_drop]
      exact hwi
  · rintro ⟨hfirst, hrest⟩ i hi
    by_cases hin : i < n
    · rw [Nat.div_eq_of_lt hin]
      exact hfirst _ (List.mem_take_iff_getElem.mpr ⟨i, by omega, rfl⟩)
    · obtain ⟨j, rfl⟩ : ∃ j, i = n + j := ⟨i - n, by omega⟩
      have hj := hrest j (by rw [List.length_drop]; omega)
      rw [List.getElem_drop] at hj
      rw [Nat.add_div_left j hn, hshift]
      exact hj

/-! ## One page -/

variable {top : ℕ} {upper lower : List ℕ} {c : Option ℕ} {p : List ℕ} {k : ℕ}

/-- What the window of a page gives. -/
def pendingAt (n top : ℕ) (upper : List ℕ) (c : Option ℕ) : List ℕ :=
  ((upper.filter fun x => decide (x ≤ c.elim top (· - 1))).filter fun x =>
    decide (c.elim top (· - 1) ≤ x + n)).take n

theorem length_pendingAt_le : (pendingAt n top upper c).length ≤ n := by
  rw [pendingAt, List.length_take]
  exact Nat.min_le_left _ _

theorem stitchedPage_of_full (h : (pendingAt n top upper c).length = n) :
    stitchedPage n probe top upper lower c =
      (pendingAt n top upper c, (pendingAt n top upper c).getLast?) :=
  if_pos (by change n - (pendingAt n top upper c).length = 0; omega)

section Page

variable {pending rows : List ℕ} (hpending : pendingAt n top upper c = pending)
  (hrows : (lower.filter (below c)).take (probe (n - pending.length)) = rows)
include hpending hrows

theorem stitchedPage_of_more (h : pending.length < n) (hmore : n - pending.length < rows.length) :
    stitchedPage n probe top upper lower c =
      (pending ++ rows.take (n - pending.length), (rows.take (n - pending.length)).getLast?) := by
  subst hpending hrows
  exact (if_neg (by change ¬ n - (pendingAt n top upper c).length = 0; omega)).trans (if_pos hmore)

theorem stitchedPage_of_last (h : pending.length < n) (hlast : rows.length ≤ n - pending.length) :
    stitchedPage n probe top upper lower c = (pending ++ rows, none) := by
  subst hpending hrows
  exact (if_neg (by change ¬ n - (pendingAt n top upper c).length = 0; omega)).trans
    (if_neg (Nat.not_lt.mpr hlast))

end Page

/-- **A page with a next one is full**, and its cursor is its last number,
which is not zero. -/
theorem stitchedPage_eq_some (hz : Zones n probe seam upper lower)
    (h : stitchedPage n probe top upper lower c = (p, some k)) :
    p.length = n ∧ p.getLast? = some k ∧ 0 < k ∧ (k ∈ upper ∨ k ∈ lower) := by
  by_cases hfull : (pendingAt n top upper c).length = n
  · rw [stitchedPage_of_full hfull] at h
    obtain ⟨rfl, hk⟩ := Prod.mk.inj h
    have hmem : k ∈ upper :=
      List.mem_of_mem_filter (List.mem_of_mem_filter (List.mem_of_mem_take
        (List.mem_of_getLast? hk)))
    exact ⟨hfull, hk, Nat.zero_lt_of_lt (hz.upper_gt k hmem), .inl hmem⟩
  · have hlt : (pendingAt n top upper c).length < n :=
      Nat.lt_of_le_of_ne length_pendingAt_le hfull
    generalize hpending : pendingAt n top upper c = pending at hlt
    generalize hrows : (lower.filter (below c)).take (probe (n - pending.length)) = rows
    by_cases hmore : n - pending.length < rows.length
    · rw [stitchedPage_of_more hpending hrows hlt hmore] at h
      obtain ⟨rfl, hk⟩ := Prod.mk.inj h
      have hrow := List.mem_of_mem_take (List.mem_of_getLast? hk)
      rw [← hrows] at hrow
      refine ⟨?_, ?_, ?_, .inr (List.mem_of_mem_filter (List.mem_of_mem_take hrow))⟩
      · rw [List.length_append, List.length_take]
        omega
      · rw [List.getLast?_append, hk]
        rfl
      · -- There is a further row, and it is smaller.
        have hsorted : rows.Pairwise (· > ·) := hrows ▸ (hz.lower_sorted.filter _).take
        obtain ⟨y, hy⟩ : ∃ y, y ∈ rows.drop (n - pending.length) := by
          refine List.exists_mem_of_length_pos ?_
          rw [List.length_drop]
          omega
        rw [← List.take_append_drop (n - pending.length) rows] at hsorted
        have hky := (List.pairwise_append.mp hsorted).2.2 k (List.mem_of_getLast? hk) y hy
        exact Nat.zero_lt_of_lt hky
    · rw [stitchedPage_of_last hpending hrows hlt (Nat.not_lt.mp hmore)] at h
      cases h

/-! ## Walks -/

section Walks

variable {tops : σ → ℕ} {uppers lowers : σ → List ℕ} {s : σ}

/-- Nothing of the window is left at or below the seam. -/
theorem pendingAt_eq_nil (hz : Zones n probe seam upper lower) (hk : k ≤ seam) :
    pendingAt n top upper (some k) = [] := by
  have hnil : upper.filter (fun x => decide (x ≤ (some k).elim top (· - 1))) = [] := by
    refine List.filter_eq_nil_iff.mpr fun x hx hle => ?_
    have hgt := hz.upper_gt x hx
    have hlek : x ≤ k - 1 := of_decide_eq_true hle
    omega
  rw [pendingAt, hnil, List.filter_nil, List.take_nil]

/-- The page that a keyset read would give has a last number. -/
theorem exists_getLast?_take (hn : 0 < n) (h : n < l.length) :
    ∃ k, (l.take n).getLast? = some k := by
  refine Option.ne_none_iff_exists'.mp fun hnone => ?_
  have hnil := congrArg List.length (List.getLast?_eq_none_iff.mp hnone)
  rw [List.length_take, List.length_nil] at hnil
  omega

/-- A first page is put before a walk. -/
theorem exists_walk_cons {page : List ℕ} {rest : List ℕ} {c' : Option ℕ}
    (hpage : stitchedPage n probe (tops s) (uppers s) (lowers s) c' = (page, some k))
    (h : ∃ w, Walk (answering (stitchedRead n probe tops uppers lowers)) (some k) w ∧
      (∀ x ∈ w, x.1 = s) ∧ w.flatMap Prod.snd = rest) :
    ∃ w, Walk (answering (stitchedRead n probe tops uppers lowers)) c' w ∧
      (∀ x ∈ w, x.1 = s) ∧ w.flatMap Prod.snd = page ++ rest := by
  obtain ⟨w, hw, hs, hcontent⟩ := h
  refine ⟨(s, page) :: w, .next (congrArg some hpage) hw, ?_, ?_⟩
  · intro x hx
    rcases List.mem_cons.mp hx with rfl | hx
    · rfl
    · exact hs x hx
  · rw [List.flatMap_cons, hcontent]

/-- A last page is a walk. -/
theorem exists_walk_last {page : List ℕ} {c' : Option ℕ}
    (hpage : stitchedPage n probe (tops s) (uppers s) (lowers s) c' = (page, none)) :
    ∃ w, Walk (answering (stitchedRead n probe tops uppers lowers)) c' w ∧
      (∀ x ∈ w, x.1 = s) ∧ w.flatMap Prod.snd = page := by
  refine ⟨[(s, page)], .last (congrArg some hpage), ?_, List.flatMap_singleton ..⟩
  intro x hx
  rw [List.mem_singleton.mp hx]

/-- **From a cursor below the seam** a walk lists the rest, where a whole
page can be asked for, and else nothing. -/
theorem exists_walk_below (hz : Zones n probe seam (uppers s) (lowers s)) (hk : k ≤ seam) :
    ∃ w, Walk (answering (stitchedRead n probe tops uppers lowers)) (some k) w ∧
      (∀ x ∈ w, x.1 = s) ∧ w.flatMap Prod.snd =
        if probe n = 0 then [] else (lowers s).filter (below (some k)) := by
  induction hlen : ((lowers s).filter (below (some k))).length using Nat.strongRecOn
    generalizing k with
  | _ len ih =>
    have hpending : pendingAt n (tops s) (uppers s) (some k) = [] := pendingAt_eq_nil hz hk
    rcases hz.probe_page with hprobe | hprobe
    swap
    · have hrows : ((lowers s).filter (below (some k))).take (probe n) = [] := by
        rw [hprobe, List.take_zero]
      rw [if_pos hprobe]
      exact exists_walk_last (stitchedPage_of_last hpending hrows hz.pos (Nat.zero_le _))
    have hne : ¬ probe n = 0 := by omega
    rw [if_neg hne]
    have hrows : ((lowers s).filter (below (some k))).take (probe n) =
        ((lowers s).filter (below (some k))).take (n + 1) := by rw [hprobe]
    by_cases hmore : n < ((lowers s).filter (below (some k))).length
    · have hpage := stitchedPage_of_more hpending hrows hz.pos
        (by rw [List.length_take, List.length_nil]; omega)
      rw [List.length_nil, Nat.sub_zero, List.take_take, Nat.min_eq_left (Nat.le_succ n),
        List.nil_append] at hpage
      -- It is the page that a keyset read gives.
      obtain ⟨k', hk'⟩ := exists_getLast?_take hz.pos hmore
      rw [hk'] at hpage
      have hsnd : (keysetPage n (lowers s) (some k)).2 = some k' := by
        rw [keysetPage_snd, if_pos hmore, hk']
      obtain ⟨hfull, -, hmem, hparts, -⟩ := keysetPage_of_next_eq_some hz.lower_sorted hsnd
      rw [keysetPage_fst] at hparts hfull
      have hshorter : ((lowers s).filter (below (some k'))).length < len := by
        have hsum := congrArg List.length hparts
        rw [List.length_append, hfull, hlen] at hsum
        have hpos := hz.pos
        omega
      have hrest := ih _ hshorter (hz.lower_le k' hmem) rfl
      rw [if_neg hne] at hrest
      rw [hparts]
      exact exists_walk_cons hpage hrest
    · have hpage := stitchedPage_of_last hpending hrows hz.pos
        (by rw [List.length_take, List.length_nil]; omega)
      rw [List.nil_append, List.take_of_length_le (by omega)] at hpage
      exact exists_walk_last hpage

/-- **From a page that is not full from above** a walk lists what is pending
and then from below. -/
theorem exists_walk_turn (hz : Zones n probe seam (uppers s) (lowers s))
    (hc : ∀ x ∈ lowers s, below c x = true)
    (hlt : (pendingAt n (tops s) (uppers s) c).length < n) :
    ∃ w, Walk (answering (stitchedRead n probe tops uppers lowers)) c w ∧ (∀ x ∈ w, x.1 = s) ∧
      w.flatMap Prod.snd = pendingAt n (tops s) (uppers s) c ++
        listedBelow n probe (lowers s) (pendingAt n (tops s) (uppers s) c).length := by
  generalize hpending : pendingAt n (tops s) (uppers s) c = pending at hlt ⊢
  have hall : (lowers s).filter (below c) = lowers s := List.filter_eq_self.mpr hc
  by_cases hzero : pending.length = 0 ∧ probe n = 0
  · -- The whole page is asked for from below, and nothing comes.
    have hrows : ((lowers s).filter (below c)).take (probe (n - pending.length)) = [] := by
      rw [hzero.1, Nat.sub_zero, hzero.2, List.take_zero]
    have hlisted : listedBelow n probe (lowers s) pending.length = [] := by
      rw [listedBelow, if_pos hzero.2, if_pos hzero.1, List.take_zero]
    rw [hlisted]
    exact exists_walk_last (stitchedPage_of_last hpending hrows hlt (Nat.zero_le _))
  have hprobe : probe (n - pending.length) = n - pending.length + 1 := by
    rcases Nat.eq_zero_or_pos pending.length with hnil | hpos
    · rw [hnil, Nat.sub_zero]
      exact hz.probe_page.resolve_right fun h => hzero ⟨hnil, h⟩
    · exact hz.probe_lt _ (by omega) (by omega)
  have hrows : ((lowers s).filter (below c)).take (probe (n - pending.length)) =
      (lowers s).take (n - pending.length + 1) := by rw [hall, hprobe]
  by_cases hmore : n - pending.length < (lowers s).length
  · have hpage := stitchedPage_of_more hpending hrows hlt (by rw [List.length_take]; omega)
    rw [List.take_take, Nat.min_eq_left (Nat.le_succ _)] at hpage
    obtain ⟨k', hk'⟩ := exists_getLast?_take (by omega) hmore
    rw [hk'] at hpage
    have hnone : (lowers s).filter (below none) = lowers s :=
      List.filter_eq_self.mpr fun _ _ => rfl
    have hsnd : (keysetPage (n - pending.length) (lowers s) none).2 = some k' := by
      rw [keysetPage_snd, hnone, if_pos hmore, hk']
    obtain ⟨-, -, hmem, hparts, -⟩ := keysetPage_of_next_eq_some hz.lower_sorted hsnd
    rw [keysetPage_fst, hnone] at hparts
    have hlisted : listedBelow n probe (lowers s) pending.length =
        (lowers s).take (n - pending.length) ++
          if probe n = 0 then [] else (lowers s).filter (below (some k')) := by
      rw [listedBelow]
      split
      · rename_i hno
        rw [if_neg fun hnil => hzero ⟨hnil, hno⟩, List.append_nil]
      · exact hparts
    rw [hlisted, ← List.append_assoc]
    exact exists_walk_cons hpage (exists_walk_below hz (hz.lower_le k' hmem))
  · have hpage := stitchedPage_of_last hpending hrows hlt (by rw [List.length_take]; omega)
    rw [List.take_of_length_le (by omega)] at hpage
    have hlisted : listedBelow n probe (lowers s) pending.length = lowers s := by
      rw [listedBelow]
      split
      · rename_i hno
        rw [if_neg fun hnil => hzero ⟨hnil, hno⟩, List.take_of_length_le (by omega)]
      · rfl
    rw [hlisted]
    exact exists_walk_last hpage

theorem listedBelow_le {r : ℕ} (hz : Zones n probe seam upper lower) :
    ∀ x ∈ listedBelow n probe lower r, x ≤ seam := by
  intro x hx
  rw [listedBelow] at hx
  split at hx
  · exact hz.lower_le x (List.mem_of_mem_take hx)
  · exact hz.lower_le x hx

/-- Where every number lies in its window, a window that does not fill the
page holds all. -/
theorem eq_of_inWindow {window : List ℕ} (hn : 0 < n) (hsorted : l.Pairwise (· > ·))
    (hmem : ∀ x, x ∈ window ↔ x ∈ l ∧ start ≤ x + n) (hlt : window.length < n)
    (hfirst : window = l.take window.length) (h : InWindow n start l) :
    l.length < n ∧ window = l := by
  have hnodup : l.Nodup := hsorted.imp fun hab => ne_of_gt hab
  have hle : ∀ m, (∀ x ∈ l.take m, start ≤ x + n) → (l.take m).length ≤ window.length := by
    intro m hall
    refine (hnodup.sublist (List.take_sublist _ _)).length_le_of_subset fun x hx => ?_
    exact (hmem x).mpr ⟨List.mem_of_mem_take hx, hall x hx⟩
  have hshort : l.length < n := by
    by_contra hlong
    have hfirst := hle n ((inWindow_iff_of_le hn (Nat.not_lt.mp hlong)).mp h).1
    rw [List.length_take] at hfirst
    omega
  have hall := hle l.length (by rw [List.take_length]; exact (inWindow_iff_of_lt hshort).mp h)
  rw [List.take_length] at hall
  exact ⟨hshort, by rw [hfirst, List.take_of_length_le hall]⟩

/-- The window of a descending list is its first numbers. -/
theorem window_eq_take (n start : ℕ) {left : List ℕ} (hsorted : left.Pairwise (· > ·)) :
    left.filter (fun x => decide (start ≤ x + n)) =
      left.take (left.filter fun x => decide (start ≤ x + n)).length := by
  refine filter_eq_take hsorted fun x y hxy hx => decide_eq_true ?_
  have := of_decide_eq_true hx
  omega

/-- **A page filled from above** takes the first `n` numbers of what is left
there, and the next one starts below the last of them. -/
theorem stitchedPage_of_window (hz : Zones n probe seam upper lower) {left : List ℕ}
    (hleft : upper.filter (fun x => decide (x ≤ c.elim top (· - 1))) = left)
    (hfull : n ≤ (left.filter fun x => decide (c.elim top (· - 1) ≤ x + n)).length) :
    ∃ k ∈ left, left.getD (n - 1) 0 = k ∧
      stitchedPage n probe top upper lower c = (left.take n, some k) ∧
      upper.filter (fun x => decide (x ≤ (some k).elim top (· - 1))) = left.drop n := by
  have hsorted : left.Pairwise (· > ·) := hleft ▸ hz.upper_sorted.filter _
  have hfirst := window_eq_take n (c.elim top (· - 1)) hsorted
  have hpending : pendingAt n top upper c =
      (left.filter fun x => decide (c.elim top (· - 1) ≤ x + n)).take n := by
    rw [pendingAt, hleft]
  generalize left.filter (fun x => decide (c.elim top (· - 1) ≤ x + n)) = window at *
  have htake : window.take n = left.take n := by
    rw [hfirst, List.take_take, Nat.min_eq_left hfull]
  have hlong : n ≤ left.length := by
    have := congrArg List.length hfirst
    rw [List.length_take] at this
    omega
  obtain ⟨k, hk⟩ : ∃ k, left[n - 1]? = some k :=
    ⟨_, List.getElem?_eq_getElem (by have := hz.pos; omega)⟩
  have hlast : (left.take n).getLast? = some k := by
    rw [List.getLast?_eq_getElem?, List.length_take, Nat.min_eq_left hlong,
      List.getElem?_take_of_lt (Nat.sub_lt hz.pos Nat.zero_lt_one), hk]
  have hkleft : k ∈ left := List.mem_of_getElem? hk
  refine ⟨k, hkleft, ?_, ?_, ?_⟩
  · rw [List.getD_eq_getElem?_getD, hk]
    rfl
  · rw [stitchedPage_of_full (by rw [hpending, htake, List.length_take]; omega), hpending, htake,
      hlast]
  · rw [← filter_lt_getLast hsorted hlast, ← hleft, List.filter_filter]
    refine List.filter_congr fun x _ => ?_
    rw [← hleft] at hkleft
    have hkstart := of_decide_eq_true (List.mem_filter.mp hkleft).2
    have hkgt := hz.upper_gt k (List.mem_of_mem_filter hkleft)
    rw [← Bool.decide_and]
    exact decide_eq_decide.mpr (by change x ≤ k - 1 ↔ _; omega)

/-- **A walk over what is left above** lists it and then from below, if every
number lies in its window; and only if it does is it listed whole. -/
theorem exists_stitched_walk (hz : Zones n probe seam (uppers s) (lowers s)) {left : List ℕ}
    (hc : ∀ x ∈ lowers s, below c x = true)
    (hleft : (uppers s).filter (fun x => decide (x ≤ c.elim (tops s) (· - 1))) = left) :
    ∃ w, Walk (answering (stitchedRead n probe tops uppers lowers)) c w ∧ (∀ x ∈ w, x.1 = s) ∧
      (InWindow n (c.elim (tops s) (· - 1)) left → w.flatMap Prod.snd =
        left ++ listedBelow n probe (lowers s) (left.length % n)) ∧
      ∀ rest, (∀ x ∈ rest, x ≤ seam) → w.flatMap Prod.snd = left ++ rest →
        InWindow n (c.elim (tops s) (· - 1)) left := by
  -- Each full page takes `n` numbers off.
  induction hlen : left.length using Nat.strongRecOn generalizing left c with
  | _ len ih =>
    subst hlen
    have hsorted : left.Pairwise (· > ·) := hleft ▸ hz.upper_sorted.filter _
    have hgt : ∀ x ∈ left, seam < x := by
      intro x hx
      rw [← hleft] at hx
      exact hz.upper_gt x (List.mem_of_mem_filter hx)
    have hmem : ∀ x, x ∈ left.filter (fun x => decide (c.elim (tops s) (· - 1) ≤ x + n)) ↔
        x ∈ left ∧ c.elim (tops s) (· - 1) ≤ x + n := by
      intro x
      rw [List.mem_filter, decide_eq_true_eq]
    have hfirst := window_eq_take n (c.elim (tops s) (· - 1)) hsorted
    by_cases hfull :
        n ≤ (left.filter fun x => decide (c.elim (tops s) (· - 1) ≤ x + n)).length
    · -- A full page: the next one starts below its last number.
      obtain ⟨k, hkleft, hk, hpage, hnext⟩ := stitchedPage_of_window hz hleft hfull
      have hlong : n ≤ left.length := le_trans hfull (List.length_filter_le _ _)
      obtain ⟨w, hw, hs, hlisted, honly⟩ := ih (left.drop n).length
        (by rw [List.length_drop]; have := hz.pos; omega)
        (fun x hx => below_some.mpr (Nat.lt_of_le_of_lt (hz.lower_le x hx) (hgt k hkleft)))
        hnext rfl
      have hstart : left.getD (n - 1) 0 - 1 = (some k).elim (tops s) (· - 1) := by
        rw [hk]
        rfl
      obtain ⟨w', hw', hs', hcontent⟩ := exists_walk_cons hpage ⟨w, hw, hs, rfl⟩
      refine ⟨w', hw', hs', ?_, ?_⟩
      · intro hin
        obtain ⟨-, hin⟩ := (inWindow_iff_of_le hz.pos hlong).mp hin
        rw [hcontent, hlisted (hstart ▸ hin), List.length_drop, ← Nat.mod_eq_sub_mod hlong,
          ← List.append_assoc, List.take_append_drop]
      · intro rest hrest heq
        refine (inWindow_iff_of_le hz.pos hlong).mpr ⟨fun x hx => ?_, ?_⟩
        · refine ((hmem x).mp ?_).2
          rw [hfirst]
          exact List.take_subset_take_left left hfull hx
        · have hparts : left.take n ++ w.flatMap Prod.snd =
              left.take n ++ (left.drop n ++ rest) := by
            rw [← hcontent, heq, ← List.append_assoc, List.take_append_drop]
          rw [hstart]
          exact honly rest hrest (List.append_cancel_left hparts)
    · -- The page is turned: what is left above is not listed any more.
      have hpending : pendingAt n (tops s) (uppers s) c =
          left.filter fun x => decide (c.elim (tops s) (· - 1) ≤ x + n) := by
        rw [pendingAt, hleft, List.take_of_length_le (by omega)]
      obtain ⟨w, hw, hs, hcontent⟩ := exists_walk_turn hz hc (by rw [hpending]; omega)
      rw [hpending] at hcontent
      refine ⟨w, hw, hs, ?_, ?_⟩
      · intro hin
        obtain ⟨hshort, hsame⟩ :=
          eq_of_inWindow hz.pos hsorted hmem (Nat.not_le.mp hfull) hfirst hin
        rw [hcontent, hsame, Nat.mod_eq_of_lt hshort]
      · intro rest hrest heq
        rw [hcontent] at heq
        obtain ⟨hsame, -⟩ := append_eq_append_of_seam
          (fun x hx => hgt x ((hmem x).mp hx).1) hgt (listedBelow_le hz) hrest heq
        rw [← hsame]
        exact (inWindow_iff_of_lt (Nat.not_le.mp hfull)).mpr fun x hx => ((hmem x).mp hx).2

/-- **A walk lists what is above and then `rest`** exactly when every number
above lies in its window and `rest` is what is listed from below. -/
theorem stitched_walk_iff (hz : Zones n probe seam (uppers s) (lowers s))
    (htop : ∀ x ∈ uppers s, x ≤ tops s) {rest : List ℕ} (hrest : ∀ x ∈ rest, x ≤ seam) :
    (∃ w, Walk (answering (stitchedRead n probe tops uppers lowers)) none w ∧
      (∀ x ∈ w, x.1 = s) ∧ w.flatMap Prod.snd = uppers s ++ rest) ↔
      InWindow n (tops s) (uppers s) ∧
        listedBelow n probe (lowers s) ((uppers s).length % n) = rest := by
  have hleft : (uppers s).filter (fun x => decide (x ≤ (none : Option ℕ).elim (tops s) (· - 1))) =
      uppers s := List.filter_eq_self.mpr fun x hx => decide_eq_true (htop x hx)
  obtain ⟨w, hw, hs, hlisted, honly⟩ := exists_stitched_walk (c := none) hz (fun _ _ => rfl) hleft
  constructor
  · rintro ⟨w', hw', hs', hcontent⟩
    rw [hw'.unique hw hs' hs] at hcontent
    have hin := honly rest hrest hcontent
    rw [hlisted hin] at hcontent
    exact ⟨hin, List.append_cancel_left hcontent⟩
  · rintro ⟨hin, hbelow⟩
    exact ⟨w, hw, hs, by rw [hlisted hin, hbelow]⟩

/-- Every page of a walk but the last is full. -/
theorem length_stitched_walk (hz : Zones n probe seam (uppers s) (lowers s))
    {w : List (σ × List ℕ)} (h : Walk (answering (stitchedRead n probe tops uppers lowers)) c w)
    (hs : ∀ x ∈ w, x.1 = s) : ∀ x ∈ w.dropLast, x.2.length = n := by
  induction h with
  | last h =>
    intro x hx
    exact absurd hx List.not_mem_nil
  | @next t c p k w hread hrest ih =>
    obtain rfl : t = s := hs _ List.mem_cons_self
    rw [List.dropLast_cons_of_ne_nil hrest.ne_nil]
    intro x hx
    rcases List.mem_cons.mp hx with rfl | hx
    · exact (stitchedPage_eq_some hz (Option.some.inj hread)).1
    · exact ih (fun y hy => hs y (List.mem_cons_of_mem _ hy)) x hx

end Walks

end AllfeatExplorer
