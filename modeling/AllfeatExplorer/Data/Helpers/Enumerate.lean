import AllfeatExplorer.Lib.Keyset
import AllfeatExplorer.Data.Model.Lists

/-!
# Lists that are enumerated

What it is for a walk over an unchanging list to enumerate it
(`Enumerates`): the pages put together are the list, and each page says
whether more is to come. A list is enumerated where its pages are the
rows below the cursor (`Enumerates.of_pages`), and only the cursors a
walk meets need be looked at.
-/

namespace AllfeatExplorer

open Queries

variable {σ α ε K : Type} [LinearOrder K]

/-- The rows of some pages. -/
def pagesContent (w : List (σ × Page α)) : List α := w.flatMap fun x => x.2.items

/-- **A walk enumerates `all`**: from no cursor until there is no next
one, the pages put together are `all`, and a page has more exactly when
they are not it yet. -/
def Enumerates (list : σ → PageRequest → Except ε (Page α)) (count : ℕ) (s : σ)
    (all : List α) : Prop :=
  ∃ w, Walk (pageRead list count) none w ∧ (∀ x ∈ w, x.1 = s) ∧ pagesContent w = all ∧
    ∀ pre x post, w = pre ++ x :: post →
      (x.2.pageInfo.hasMore = true ↔ pagesContent (pre ++ [x]) ≠ all)

variable {list : σ → PageRequest → Except ε (Page α)} {count : ℕ} {s : σ}
  {all l front rest : List α} {key : α → K} {c : Option K} {a : α} {page : Page α}

omit [LinearOrder K] in
@[simp] theorem pagesContent_nil : pagesContent ([] : List (σ × Page α)) = [] := rfl

omit [LinearOrder K] in
@[simp] theorem pagesContent_cons (x : σ × Page α) (w : List (σ × Page α)) :
    pagesContent (x :: w) = x.2.items ++ pagesContent w := List.flatMap_cons

omit [LinearOrder K] in
@[simp] theorem pagesContent_append (w w' : List (σ × Page α)) :
    pagesContent (w ++ w') = pagesContent w ++ pagesContent w' := List.flatMap_append

/-- The rows older than the cursor. -/
def olderThan (key : α → K) (all : List α) (c : Option K) : List α :=
  all.filter fun a => below c (key a)

theorem olderThan_none : olderThan key all none = all := List.filter_eq_self.mpr fun _ _ => rfl

/-- What is below a row of a descending list comes after it. -/
theorem filter_below_split (hsorted : (front ++ a :: rest).Pairwise fun a b => key b < key a) :
    olderThan key (front ++ a :: rest) (some (key a)) = rest := by
  rw [List.pairwise_append, List.pairwise_cons] at hsorted
  have hfront : front.filter (fun b => below (some (key a)) (key b)) = [] := by
    refine List.filter_eq_nil_iff.mpr fun b hb => ?_
    have hlt : key a < key b := hsorted.2.2 b hb a List.mem_cons_self
    rw [below_some]
    exact hlt.not_gt
  have hrest : rest.filter (fun b => below (some (key a)) (key b)) = rest :=
    List.filter_eq_self.mpr fun b hb => below_some.mpr (hsorted.2.1.1 b hb)
  have hself : ¬ below (some (key a)) (key a) = true := by
    rw [below_some]
    exact lt_irrefl _
  rw [olderThan, List.filter_append, hfront, List.filter_cons, if_neg hself, hrest,
    List.nil_append]

/-- **The rows older than the last of a page** are those the page leaves. -/
theorem olderThan_last (hsorted : all.Pairwise fun a b => key b < key a)
    (hlast : ((olderThan key all c).take count).getLast? = some a) :
    olderThan key all (some (key a)) = (olderThan key all c).drop count := by
  obtain ⟨front, hfront⟩ := List.getLast?_eq_some_iff.mp hlast
  have hsplit : olderThan key all c = front ++ a :: (olderThan key all c).drop count := by
    rw [← List.singleton_append, ← List.append_assoc, ← hfront, List.take_append_drop]
  have hmem : a ∈ olderThan key all c := by
    rw [hsplit]
    exact List.mem_append_right _ List.mem_cons_self
  have hbelow : below c (key a) = true := (List.mem_filter.mp hmem).2
  have hstep : olderThan key all (some (key a)) =
      olderThan key (olderThan key all c) (some (key a)) := by
    rw [olderThan, olderThan, olderThan, List.filter_filter]
    refine List.filter_congr fun b _ => ?_
    rcases c with - | k
    · simp
    · by_cases hb : key b < key a
      · simp [below, hb, lt_trans hb (below_some.mp hbelow)]
      · simp [below, hb]
  have hsorted' : (olderThan key all c).Pairwise fun a b => key b < key a := hsorted.filter _
  rw [hsplit] at hsorted'
  rw [hstep]
  calc olderThan key (olderThan key all c) (some (key a))
      = olderThan key (front ++ a :: (olderThan key all c).drop count) (some (key a)) := by
        rw [← hsplit]
    _ = (olderThan key all c).drop count := filter_below_split hsorted'

/-- What is older than the last of the first `n`. -/
theorem olderThan_take {n : ℕ} (hsorted : all.Pairwise fun a b => key b < key a)
    (ha : (all.take n).getLast? = some a) : olderThan key all (some (key a)) = all.drop n := by
  have hlast := @olderThan_last _ _ _ n all key none a hsorted
  rw [olderThan_none] at hlast
  exact hlast ha

/-- **The page after a row** is the first of the rows below it; the next
cursor is the text of the page's last row. -/
structure PageAfter (list : σ → PageRequest → Except ε (Page α)) (count : ℕ) (s : σ)
    (all : List α) (key : α → K) (text : α → String) (c : Option α) (page : Page α) : Prop where
  answers : list s ⟨count, c.map text⟩ = .ok page
  items : page.items = (olderThan key all (c.map key)).take count
  hasMore : page.pageInfo.hasMore = decide (count < (olderThan key all (c.map key)).length)
  next : page.pageInfo.nextCursor =
    if count < (olderThan key all (c.map key)).length then
      (((olderThan key all (c.map key)).take count).getLast?).map text
    else none

omit [LinearOrder K] in
/-- Rows probed are trimmed to a page. -/
theorem trimProbe_eq (rows : List α) :
    trimProbe count rows = (rows.take count, decide (count < rows.length)) := by
  unfold trimProbe
  split
  · rename_i hlt
    rw [decide_eq_true hlt]
  · rename_i hle
    rw [decide_eq_false hle, List.take_of_length_le (Nat.le_of_not_lt hle)]

/-- **A page trimmed from rows** that are the ones below the cursor, as
far as the page and one more reach. -/
theorem PageAfter.of_trim {text : α → String} {c : Option α} (total : Option ℕ) (rows : List α)
    (hpage : list s ⟨count, c.map text⟩ = .ok
      { items := (trimProbe count rows).1
        pageInfo :=
          { total := total
            nextCursor := nextCursor (trimProbe count rows).2 text (trimProbe count rows).1
            hasMore := (trimProbe count rows).2 } })
    (hrows : rows.take (count + 1) = (olderThan key all (c.map key)).take (count + 1)) :
    ∃ page, PageAfter list count s all key text c page := by
  have htake : rows.take count = (olderThan key all (c.map key)).take count := by
    have htwice := congrArg (List.take count) hrows
    rwa [List.take_take, List.take_take, Nat.min_eq_left (Nat.le_succ count)] at htwice
  have hmore : count < rows.length ↔ count < (olderThan key all (c.map key)).length := by
    have hlen := congrArg List.length hrows
    rw [List.length_take, List.length_take] at hlen
    omega
  refine ⟨_, hpage, ?_, ?_, ?_⟩
  · rw [trimProbe_eq, htake]
  · rw [trimProbe_eq]
    exact decide_eq_decide.mpr hmore
  · simp only [trimProbe_eq, nextCursor, decide_eq_true_eq, hmore, htake]

/-- A page that no other follows ends the walk. -/
theorem PageAfter.last_walk {text : α → String} {c : Option α}
    (hpage : PageAfter list count s all key text c page)
    (hle : (olderThan key all (c.map key)).length ≤ count) :
    Walk (pageRead list count) (c.map text) [(s, page)] ∧
      pagesContent [(s, page)] = olderThan key all (c.map key) ∧
      ∀ pre x post, [(s, page)] = pre ++ x :: post →
        (x.2.pageInfo.hasMore = true ↔
          pagesContent (pre ++ [x]) ≠ olderThan key all (c.map key)) := by
  have hall : page.items = olderThan key all (c.map key) := by
    rw [hpage.items, List.take_of_length_le hle]
  have hnone : page.pageInfo.nextCursor = none := by
    rw [hpage.next, if_neg (Nat.not_lt.mpr hle)]
  have hmore : page.pageInfo.hasMore = false := by
    rw [hpage.hasMore, decide_eq_false (Nat.not_lt.mpr hle)]
  refine ⟨.last (pageRead_eq_some.mpr ⟨hpage.answers, hnone.symm⟩), ?_, ?_⟩
  · rw [pagesContent_cons, pagesContent_nil, List.append_nil, hall]
  · intro pre x post hw
    obtain ⟨rfl, rfl⟩ : pre = [] ∧ x = (s, page) := by
      cases pre <;> simp_all
    rw [hmore, List.nil_append, pagesContent_cons, pagesContent_nil, List.append_nil, hall]
    exact iff_of_false Bool.false_ne_true (fun hne => hne rfl)

/-- **A list whose pages are the rows below the cursor is enumerated**,
at whatever cursors count. -/
theorem Enumerates.of_pages (text : α → String) (okC : α → Prop) (hcount : 1 ≤ count)
    (hsorted : all.Pairwise fun a b => key b < key a)
    (hpages : ∀ c, (∀ a ∈ c, okC a) → ∃ page, PageAfter list count s all key text c page)
    (hok : ∀ c : Option α, (∀ a ∈ c, okC a) → count < (olderThan key all (c.map key)).length →
      ∀ a, ((olderThan key all (c.map key)).take count).getLast? = some a → okC a) :
    Enumerates list count s all := by
  have hwalk : ∀ (m : ℕ) (c : Option α), (olderThan key all (c.map key)).length ≤ m →
      (∀ a ∈ c, okC a) → ∃ w, Walk (pageRead list count) (c.map text) w ∧ (∀ x ∈ w, x.1 = s) ∧
        pagesContent w = olderThan key all (c.map key) ∧
        ∀ pre x post, w = pre ++ x :: post →
          (x.2.pageInfo.hasMore = true ↔
            pagesContent (pre ++ [x]) ≠ olderThan key all (c.map key)) := by
    intro m
    induction m with
    | zero =>
      intro c hm hc
      obtain ⟨page, hpage⟩ := hpages c hc
      obtain ⟨hw, hcontent, hflags⟩ := hpage.last_walk (by omega)
      exact ⟨_, hw, fun x hx => (List.mem_singleton.mp hx) ▸ rfl, hcontent, hflags⟩
    | succ m ih =>
      intro c hm hc
      obtain ⟨page, hpage⟩ := hpages c hc
      by_cases hmore : count < (olderThan key all (c.map key)).length
      · -- More is to come: the rest of the walk starts at the last row of the page.
        obtain ⟨a, ha⟩ : ∃ a, ((olderThan key all (c.map key)).take count).getLast? = some a := by
          refine Option.ne_none_iff_exists'.mp fun hnone => ?_
          have hnil := List.getLast?_eq_none_iff.mp hnone
          have hlen := congrArg List.length hnil
          rw [List.length_take, List.length_nil] at hlen
          omega
        have hrest : olderThan key all ((some a).map key) =
            (olderThan key all (c.map key)).drop count := olderThan_last hsorted ha
        have hnext : page.pageInfo.nextCursor = some (text a) := by
          rw [hpage.next, if_pos hmore, ha, Option.map_some]
        have hshorter : (olderThan key all ((some a).map key)).length ≤ m := by
          rw [hrest, List.length_drop]
          omega
        obtain ⟨w, hw, hs, hcontent, hflags⟩ := ih (some a) hshorter (by
          rintro b hb
          obtain rfl := Option.some.inj (Option.mem_def.mp hb)
          exact hok c hc hmore a ha)
        refine ⟨(s, page) :: w, .next (pageRead_eq_some.mpr ⟨hpage.answers, hnext.symm⟩) hw,
          ?_, ?_, ?_⟩
        · intro x hx
          rcases List.mem_cons.mp hx with rfl | hx
          · rfl
          · exact hs x hx
        · rw [pagesContent_cons, hcontent, hrest, hpage.items, List.take_append_drop]
        · intro pre x post hsplit
          cases pre with
          | nil =>
            obtain ⟨rfl, rfl⟩ := List.cons.inj hsplit
            rw [hpage.hasMore, decide_eq_true hmore, List.nil_append, pagesContent_cons,
              pagesContent_nil, List.append_nil, hpage.items]
            refine iff_of_true rfl fun heq => ?_
            have hlen := congrArg List.length heq
            rw [List.length_take] at hlen
            omega
          | cons y pre =>
            obtain ⟨rfl, hpost⟩ := List.cons.inj hsplit
            rw [hflags pre x post hpost, hrest, List.cons_append, pagesContent_cons, hpage.items]
            refine not_congr ⟨fun heq => ?_, fun heq => ?_⟩
            · rw [heq, List.take_append_drop]
            · refine List.append_cancel_left (heq.trans ?_)
              exact (List.take_append_drop count _).symm
      · obtain ⟨hw, hcontent, hflags⟩ := hpage.last_walk (by omega)
        exact ⟨_, hw, fun x hx => (List.mem_singleton.mp hx) ▸ rfl, hcontent, hflags⟩
  have hall := hwalk (olderThan key all none).length none le_rfl
    fun _ hk => absurd hk (Option.not_mem_none _)
  rw [Option.map_none, Option.map_none, olderThan_none] at hall
  exact hall

omit [LinearOrder K] in
/-- The first page of a walk is the one the list answers. -/
theorem Walk.first_page {cursor : Option String} {w : List (σ × Page α)}
    (hw : Walk (pageRead list count) cursor w) (hs : ∀ x ∈ w, x.1 = s)
    (hpage : list s ⟨count, cursor⟩ = .ok page) :
    ∃ rest, w = (s, page) :: rest ∧
      ∀ k, page.pageInfo.nextCursor = some k → Walk (pageRead list count) (some k) rest := by
  cases hw with
  | @last t _ p hread =>
    obtain rfl : t = s := hs _ List.mem_cons_self
    obtain ⟨hp, hk⟩ := pageRead_eq_some.mp hread
    obtain rfl := Except.ok.inj (hpage.symm.trans hp)
    refine ⟨[], rfl, fun k hsome => ?_⟩
    rw [hsome] at hk
    cases hk
  | @next t _ p k rest hread hrest =>
    obtain rfl : t = s := hs _ List.mem_cons_self
    obtain ⟨hp, hk⟩ := pageRead_eq_some.mp hread
    obtain rfl := Except.ok.inj (hpage.symm.trans hp)
    refine ⟨rest, rfl, fun k' hsome => ?_⟩
    obtain rfl := Option.some.inj (hk.trans hsome)
    exact hrest

omit [LinearOrder K] in
/-- **A first page without a next one** is the whole list. -/
theorem Enumerates.eq_of_first (h : Enumerates list count s all)
    (hpage : list s ⟨count, none⟩ = .ok page) (hnone : page.pageInfo.nextCursor = none) :
    page.items = all := by
  obtain ⟨w, hw, hs, hcontent, -⟩ := h
  cases hw with
  | @last t _ p hread =>
    obtain rfl : t = s := hs _ List.mem_cons_self
    obtain ⟨hp, -⟩ := pageRead_eq_some.mp hread
    obtain rfl := Except.ok.inj (hpage.symm.trans hp)
    rw [← hcontent, pagesContent_cons, pagesContent_nil, List.append_nil]
  | @next t _ p k _ hread _ =>
    obtain rfl : t = s := hs _ List.mem_cons_self
    obtain ⟨hp, hk⟩ := pageRead_eq_some.mp hread
    obtain rfl := Except.ok.inj (hpage.symm.trans hp)
    rw [hnone] at hk
    cases hk

omit [LinearOrder K] in
/-- **What a walk enumerates is determined.** -/
theorem Enumerates.unique {all' : List α} (h : Enumerates list count s all)
    (h' : Enumerates list count s all') : all = all' := by
  obtain ⟨w, hw, hs, hcontent, -⟩ := h
  obtain ⟨w', hw', hs', hcontent', -⟩ := h'
  rw [← hcontent, ← hcontent', hw.unique hw' hs hs']

end AllfeatExplorer
