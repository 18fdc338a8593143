import AllfeatExplorer.Lib.Walk

/-!
# Pages at an offset

A list read in pages of `n`, where the cursor is not a place in the list
but is turned into one: the next page starts at the offset that the
cursor made of the last item stands for. A walk lists everything once
exactly when, at the end of each page, that offset is the number of items
listed so far.
-/

namespace AllfeatExplorer

variable {σ α κ : Type*}

/-- **One page**: `n` items from the offset of the cursor on. -/
def offsetPage (n : ℕ) (xs : List α) (off : κ → ℕ) (tag : α → κ) (c : Option κ) :
    List α × Option κ :=
  let rest := xs.drop (c.elim 0 off)
  if n < rest.length then (rest.take n, ((rest.take n).getLast?).map tag) else (rest, none)

/-- The read of a list that may differ from state to state. -/
def offsetRead (n : ℕ) (xs : σ → List α) (off : σ → κ → ℕ) (tag : α → κ) :
    σ → Option κ → List α × Option κ :=
  fun s => offsetPage n (xs s) (off s) tag

/-- **Offsets are aligned**: at the end of each full page that more items
follow, the cursor stands for the place reached. -/
def Aligned (n : ℕ) (xs : List α) (off : κ → ℕ) (tag : α → κ) : Prop :=
  ∀ m x, 1 ≤ m → m * n < xs.length → xs[m * n - 1]? = some x → off (tag x) = m * n

variable {n o : ℕ} {l p : List α} {f : κ → ℕ} {xs : σ → List α} {off : σ → κ → ℕ} {tag : α → κ}
  {c : Option κ} {k : κ} {s : σ} {w : List (σ × List α)}

/-- The last of the `n` items from `o` on. -/
theorem getLast?_take_drop (hn : 0 < n) (hlen : n < (l.drop o).length) :
    ((l.drop o).take n).getLast? = l[o + n - 1]? := by
  have hmin : min n (l.drop o).length = n := Nat.min_eq_left (Nat.le_of_lt hlen)
  rw [List.getLast?_eq_getElem?, List.length_take, hmin, List.getElem?_take_of_lt (by omega),
    List.getElem?_drop]
  congr 1
  omega

theorem offsetPage_of_lt (tag : α → κ) (h : n < (l.drop (c.elim 0 f)).length) :
    offsetPage n l f tag c =
      ((l.drop (c.elim 0 f)).take n, (((l.drop (c.elim 0 f)).take n).getLast?).map tag) :=
  if_pos h

theorem offsetPage_of_le (tag : α → κ) (h : (l.drop (c.elim 0 f)).length ≤ n) :
    offsetPage n l f tag c = (l.drop (c.elim 0 f), none) :=
  if_neg (Nat.not_lt.mpr h)

/-- A last page is what is left. -/
theorem offsetPage_eq_none (hn : 0 < n) (h : offsetPage n l f tag c = (p, none)) :
    p = l.drop (c.elim 0 f) ∧ (l.drop (c.elim 0 f)).length ≤ n := by
  by_cases hlt : n < (l.drop (c.elim 0 f)).length
  · rw [offsetPage_of_lt tag hlt] at h
    have hlast := (Prod.mk.inj h).2
    rw [getLast?_take_drop hn hlt, Option.map_eq_none_iff, List.getElem?_eq_none_iff] at hlast
    rw [List.length_drop] at hlt
    omega
  · rw [offsetPage_of_le tag (Nat.not_lt.mp hlt)] at h
    exact ⟨(Prod.mk.inj h).1.symm, Nat.not_lt.mp hlt⟩

/-- **A page with a next one is full**, and its cursor is that of its
last item. -/
theorem offsetPage_eq_some (hn : 0 < n) (h : offsetPage n l f tag c = (p, some k)) :
    p = (l.drop (c.elim 0 f)).take n ∧ n < (l.drop (c.elim 0 f)).length ∧
      ∃ x, l[c.elim 0 f + n - 1]? = some x ∧ tag x = k := by
  by_cases hlt : n < (l.drop (c.elim 0 f)).length
  · rw [offsetPage_of_lt tag hlt] at h
    obtain ⟨hp, hk⟩ := Prod.mk.inj h
    rw [getLast?_take_drop hn hlt, Option.map_eq_some_iff] at hk
    exact ⟨hp.symm, hlt, hk⟩
  · rw [offsetPage_of_le tag (Nat.not_lt.mp hlt)] at h
    cases h

/-- **What a walk lists first** is at the offset of its cursor. -/
theorem head?_offset_walk (hn : 0 < n) (h : Walk (answering (offsetRead n xs off tag)) c w)
    (hs : ∀ x ∈ w, x.1 = s) :
    (w.flatMap Prod.snd).head? = (xs s)[c.elim 0 (off s)]? := by
  cases h with
  | @last t c p hread =>
    obtain rfl : t = s := hs _ List.mem_cons_self
    obtain ⟨hp, -⟩ := offsetPage_eq_none hn (Option.some.inj hread)
    rw [List.flatMap_singleton, hp, List.head?_drop]
  | @next t c p k w hread hrest =>
    obtain rfl : t = s := hs _ List.mem_cons_self
    obtain ⟨hp, hlt, -⟩ := offsetPage_eq_some hn (Option.some.inj hread)
    have hne : p ≠ [] := by
      intro hnil
      have hzero := congrArg List.length hp
      rw [hnil, List.length_nil, List.length_take] at hzero
      omega
    rw [List.flatMap_cons, List.head?_append_of_ne_nil _ hne, hp, List.head?_take,
      if_neg (by omega), List.head?_drop]

/-- **Aligned offsets** list what is left, page by page. -/
theorem exists_offset_walk (hn : 0 < n) (h : Aligned n (xs s) (off s) tag) (m : ℕ)
    (hm : m * n ≤ (xs s).length) (hc : c.elim 0 (off s) = m * n) :
    ∃ w, Walk (answering (offsetRead n xs off tag)) c w ∧ (∀ x ∈ w, x.1 = s) ∧
      w.flatMap Prod.snd = (xs s).drop (m * n) := by
  -- The items left grow fewer by `n` a page.
  induction hleft : (xs s).length - m * n using Nat.strongRecOn generalizing m c with
  | _ left ih =>
    have hlen : ((xs s).drop (m * n)).length = left := by rw [List.length_drop, hleft]
    by_cases hmore : n < left
    · have hsucc : (m + 1) * n = m * n + n := Nat.succ_mul m n
      have hlt : n < ((xs s).drop (c.elim 0 (off s))).length := by
        rw [hc, hlen]
        exact hmore
      obtain ⟨x, hx⟩ : ∃ x, (xs s)[m * n + n - 1]? = some x :=
        ⟨_, List.getElem?_eq_getElem (by omega)⟩
      have hoff : off s (tag x) = (m + 1) * n :=
        h (m + 1) x (Nat.le_add_left 1 m) (by omega) (by rw [hsucc]; exact hx)
      obtain ⟨w, hw, hs, hcontent⟩ := ih (left - n) (by omega) (c := some (tag x)) (m + 1)
        (by omega) hoff (by omega)
      have hpage := offsetPage_of_lt tag hlt
      rw [getLast?_take_drop hn hlt, hc, hx] at hpage
      refine ⟨(s, ((xs s).drop (m * n)).take n) :: w, .next (congrArg some hpage) hw, ?_, ?_⟩
      · intro y hy
        rcases List.mem_cons.mp hy with rfl | hy
        · rfl
        · exact hs y hy
      · rw [List.flatMap_cons, hcontent, hsucc, ← List.drop_drop, List.take_append_drop]
    · have hpage := offsetPage_of_le (l := xs s) (f := off s) (c := c) (n := n) tag
        (by rw [hc, hlen]; omega)
      rw [hc] at hpage
      refine ⟨[(s, (xs s).drop (m * n))], .last (congrArg some hpage), ?_, ?_⟩
      · intro y hy
        rw [List.mem_singleton.mp hy]
      · rw [List.flatMap_singleton]

/-- **And a walk that lists what is left is aligned** from there on. -/
theorem aligned_of_offset_walk (hn : 0 < n) (hnodup : (xs s).Nodup)
    (hw : Walk (answering (offsetRead n xs off tag)) c w) (hs : ∀ x ∈ w, x.1 = s) {m : ℕ}
    (hc : c.elim 0 (off s) = m * n) (hcontent : w.flatMap Prod.snd = (xs s).drop (m * n)) :
    ∀ m' x, m + 1 ≤ m' → m' * n < (xs s).length → (xs s)[m' * n - 1]? = some x →
      off s (tag x) = m' * n := by
  have hsucc : ∀ m, (m + 1) * n = m * n + n := fun m => Nat.succ_mul m n
  induction hw generalizing m with
  | @last t c p hread =>
    obtain rfl : t = s := hs _ List.mem_cons_self
    obtain ⟨-, hle⟩ := offsetPage_eq_none hn (Option.some.inj hread)
    intro m' x hm' hlen
    have hmul : (m + 1) * n ≤ m' * n := Nat.mul_le_mul_right n hm'
    rw [hsucc] at hmul
    rw [hc, List.length_drop] at hle
    omega
  | @next t c p k w hread hrest ih =>
    obtain rfl : t = s := hs _ List.mem_cons_self
    obtain ⟨hp, hlt, y, hy, rfl⟩ := offsetPage_eq_some hn (Option.some.inj hread)
    rw [hc] at hp hlt hy
    have hrestContent : w.flatMap Prod.snd = (xs t).drop ((m + 1) * n) := by
      rw [List.flatMap_cons, hp] at hcontent
      rw [hsucc, ← List.drop_drop]
      refine List.append_cancel_left (hcontent.trans ?_)
      exact (List.take_append_drop _ _).symm
    have hrestFixed : ∀ x ∈ w, x.1 = t := fun x hx => hs x (List.mem_cons_of_mem _ hx)
    -- What the rest lists first is at the offset of its cursor, and at this place.
    have hoff : off t (tag y) = (m + 1) * n := by
      have hhead := head?_offset_walk hn hrest hrestFixed
      rw [hrestContent, List.head?_drop] at hhead
      have hbound : (m + 1) * n < (xs t).length := by
        rw [List.length_drop] at hlt
        rw [hsucc]
        omega
      exact ((List.getElem?_inj hbound hnodup).mp hhead).symm
    intro m' x hm' hlen hx
    rcases Nat.eq_or_lt_of_le hm' with rfl | hlater
    · have hsame : x = y := by
        rw [hsucc, hy] at hx
        exact (Option.some.inj hx).symm
      rw [hsame, hoff]
    · exact ih hrestFixed hoff hrestContent m' x hlater hlen hx

/-- **A walk lists everything once exactly when the offsets are aligned.** -/
theorem offset_walk_iff (hn : 0 < n) (hnodup : (xs s).Nodup) :
    (∃ w, Walk (answering (offsetRead n xs off tag)) none w ∧ (∀ x ∈ w, x.1 = s) ∧
      w.flatMap Prod.snd = xs s) ↔ Aligned n (xs s) (off s) tag := by
  constructor
  · rintro ⟨w, hw, hs, hcontent⟩
    refine aligned_of_offset_walk hn hnodup hw hs (m := 0) ?_ ?_
    · rw [Nat.zero_mul]
      rfl
    · rw [hcontent, Nat.zero_mul, List.drop_zero]
  · intro h
    obtain ⟨w, hw, hs, hcontent⟩ := exists_offset_walk (c := none) hn h 0 (by omega)
      (Nat.zero_mul n).symm
    refine ⟨w, hw, hs, ?_⟩
    rw [hcontent, Nat.zero_mul, List.drop_zero]

end AllfeatExplorer
