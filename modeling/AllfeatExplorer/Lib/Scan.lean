import Mathlib.Data.List.TakeWhile
import Mathlib.Data.Nat.Find

/-!
# A list read through a window

A list is read a page at a time, and each page only as far as a window
reaches that starts at the cursor. A page whose window holds more rows
than the page takes has a next one; the first that does not is the last,
whatever lies below its window. The pages are then an initial part of the
list, and all of it exactly when each window reaches the page and the row
after it.
-/

namespace AllfeatExplorer

variable {α : Type*}

/-- The row that page `j` starts after. -/
def cursorAt (count : ℕ) (all : List α) (j : ℕ) : Option α := (all.take (j * count)).getLast?

/-- **What the window of page `j` holds**: the rows after the cursor, as
far as they are in reach of it. -/
def windowAt (count : ℕ) (reach : Option α → α → Bool) (all : List α) (j : ℕ) : List α :=
  (all.drop (j * count)).takeWhile (reach (cursorAt count all j))

/-- **Page `k` is the last**: the windows before it hold more than a
page, and its own does not. -/
structure LastPage (count : ℕ) (reach : Option α → α → Bool) (all : List α) (k : ℕ) : Prop where
  full : ∀ j < k, count < (windowAt count reach all j).length
  short : (windowAt count reach all k).length ≤ count

/-- What the pages show up to page `k`. -/
def shownUpTo (count : ℕ) (reach : Option α → α → Bool) (all : List α) (k : ℕ) : List α :=
  all.take (k * count + (windowAt count reach all k).length)

/-- **Every window reaches its page and the row after.** -/
def WindowsReach (count : ℕ) (reach : Option α → α → Bool) (all : List α) : Prop :=
  ∀ j, j * count < all.length → ∀ a ∈ (all.drop (j * count)).take (count + 1),
    reach (cursorAt count all j) a = true

variable {count j k : ℕ} {reach : Option α → α → Bool} {all : List α} {a : α}

theorem windowAt_isInitial (count : ℕ) (reach : Option α → α → Bool) (all : List α) (j : ℕ) :
    windowAt count reach all j <+: all.drop (j * count) :=
  List.takeWhile_prefix _

/-- The cursors of the list are those of what is shown. -/
theorem cursorAt_shown (count : ℕ) (reach : Option α → α → Bool) (all : List α) (hj : j ≤ k) :
    cursorAt count (shownUpTo count reach all k) j = cursorAt count all j := by
  have hle : j * count ≤ k * count + (windowAt count reach all k).length :=
    (Nat.mul_le_mul_right count hj).trans (Nat.le_add_right _ _)
  rw [cursorAt, cursorAt, shownUpTo, List.take_take, Nat.min_eq_left hle]

/-- **The last window** is what is shown from there on. -/
theorem drop_shown :
    (shownUpTo count reach all k).drop (k * count) = windowAt count reach all k := by
  have htake := List.prefix_iff_eq_take.mp (windowAt_isInitial count reach all k)
  rw [shownUpTo, List.drop_take, Nat.add_sub_cancel_left, ← htake]

/-- **There is a last page**: at the latest the one that starts past the
end. -/
theorem exists_lastPage (hcount : 1 ≤ count) (reach : Option α → α → Bool) (all : List α) :
    ∃ k, LastPage count reach all k := by
  have hshort : ∃ k, ¬ count < (windowAt count reach all k).length := by
    refine ⟨all.length, ?_⟩
    have hpast : all.length ≤ all.length * count := Nat.le_mul_of_pos_right _ hcount
    rw [windowAt, List.drop_eq_nil_of_le hpast]
    exact Nat.not_lt_zero _
  refine ⟨Nat.find hshort, fun j hj => ?_, Nat.le_of_not_lt (Nat.find_spec hshort)⟩
  exact not_not.mp (Nat.find_min hshort hj)

namespace LastPage

/-- A page before the last leaves more than one row. -/
theorem lt_length (h : LastPage count reach all k) (hj : j < k) :
    j * count + count < all.length := by
  have hfull := h.full j hj
  have hle := (windowAt_isInitial count reach all j).length_le
  rw [List.length_drop] at hle
  omega

/-- The last page starts within the list. -/
theorem start_le (h : LastPage count reach all k) : k * count ≤ all.length := by
  cases k with
  | zero => simp
  | succ k =>
    have hlt := h.lt_length (Nat.lt_succ_self k)
    rw [Nat.succ_mul]
    omega

theorem shown_le (h : LastPage count reach all k) :
    k * count + (windowAt count reach all k).length ≤ all.length := by
  have hle := (windowAt_isInitial count reach all k).length_le
  have hstart := h.start_le
  rw [List.length_drop] at hle
  omega

theorem length_shown (h : LastPage count reach all k) :
    (shownUpTo count reach all k).length = k * count + (windowAt count reach all k).length := by
  rw [shownUpTo, List.length_take, Nat.min_eq_left h.shown_le]

/-- What is shown, and what is not. -/
theorem shown_append (h : LastPage count reach all k) :
    shownUpTo count reach all k ++ all.drop (shownUpTo count reach all k).length = all := by
  rw [h.length_shown, shownUpTo, List.take_append_drop]

/-- **Where a window reaches no further up the list than the next one**,
the last page is not empty but the first. -/
theorem window_ne_nil (h : LastPage count reach all k)
    (hmono : ∀ j a, reach (cursorAt count all j) a = true →
      reach (cursorAt count all (j + 1)) a = true) (hk : 0 < k) :
    windowAt count reach all k ≠ [] := by
  obtain ⟨k, rfl⟩ := Nat.exists_eq_succ_of_ne_zero hk.ne'
  have hfull := h.full k (Nat.lt_succ_self k)
  have hlt := h.lt_length (Nat.lt_succ_self k)
  -- The row after a full page is in its window, and so in the next one.
  have hrow : (windowAt count reach all k)[count] = all[k * count + count] := by
    have hget := (windowAt_isInitial count reach all k).getElem hfull
    rw [hget, List.getElem_drop]
  have hreach : reach (cursorAt count all k) all[k * count + count] = true := by
    rw [← hrow]
    exact List.mem_takeWhile_imp (List.getElem_mem hfull)
  have hdrop : all.drop ((k + 1) * count) =
      all[k * count + count] :: all.drop (k * count + count + 1) := by
    rw [Nat.succ_mul]
    exact List.drop_eq_getElem_cons hlt
  rw [windowAt, hdrop, List.takeWhile_cons_of_pos (hmono k _ hreach)]
  exact List.cons_ne_nil _ _

/-- **A page and the row after it** are the first rows of its window. -/
theorem probe_eq (h : LastPage count reach all k)
    (hmono : ∀ j a, reach (cursorAt count all j) a = true →
      reach (cursorAt count all (j + 1)) a = true) (hj : j ≤ k) :
    (windowAt count reach all j).take (count + 1) =
      ((shownUpTo count reach all k).drop (j * count)).take (count + 1) := by
  rcases Nat.lt_or_ge j k with hlt | hge
  · have hfull := h.full j hlt
    have hnonempty := List.length_pos_iff.mpr (h.window_ne_nil hmono (by omega))
    have hsucc : j * count + count ≤ k * count := by
      rw [← Nat.succ_mul]
      exact Nat.mul_le_mul_right count hlt
    have htake := List.prefix_iff_eq_take.mp (windowAt_isInitial count reach all j)
    rw [htake, List.take_take, Nat.min_eq_left hfull, shownUpTo, List.drop_take,
      List.take_take, Nat.min_eq_left (by omega)]
  · obtain rfl : j = k := by omega
    rw [drop_shown]

/-- The first row that is not shown is out of reach of the last cursor. -/
theorem not_reach (h : LastPage count reach all k)
    (ha : (all.drop (shownUpTo count reach all k).length).head? = some a) :
    reach (cursorAt count all k) a = false := by
  have hdrop : all.drop (shownUpTo count reach all k).length =
      (all.drop (k * count)).dropWhile (reach (cursorAt count all k)) := by
    rw [h.length_shown, ← List.drop_drop]
    conv_lhs => rw [← List.takeWhile_append_dropWhile (p := reach (cursorAt count all k))
      (l := all.drop (k * count))]
    exact List.drop_left
  rw [hdrop] at ha
  have hhead := List.head?_dropWhile_not (reach (cursorAt count all k)) (all.drop (k * count))
  rw [ha] at hhead
  exact hhead

/-- **All rows are shown exactly when every window reaches.** -/
theorem shown_eq_iff (h : LastPage count reach all k) :
    shownUpTo count reach all k = all ↔ WindowsReach count reach all := by
  constructor
  · intro hall j hj a ha
    have hlen := congrArg List.length hall
    rw [h.length_shown] at hlen
    rcases Nat.lt_trichotomy j k with hlt | rfl | hgt
    · have hfull := h.full j hlt
      have htake := List.prefix_iff_eq_take.mp (windowAt_isInitial count reach all j)
      have hmem : a ∈ windowAt count reach all j := by
        rw [htake]
        exact (List.take_subset_take_left _ hfull) ha
      exact List.mem_takeWhile_imp hmem
    · have hmem : a ∈ windowAt count reach all j := by
        rw [← drop_shown, hall]
        exact List.mem_of_mem_take ha
      exact List.mem_takeWhile_imp hmem
    · have hnext : k * count + count ≤ j * count := by
        rw [← Nat.succ_mul]
        exact Nat.mul_le_mul_right count hgt
      have hshort := h.short
      omega
  · intro hreach
    by_contra hne
    have hle := h.shown_le
    have hlt : k * count + (windowAt count reach all k).length < all.length := by
      refine lt_of_le_of_ne hle fun heq => hne ?_
      rw [shownUpTo, heq, List.take_length]
    -- The first row that is not shown is a row of the last probe.
    have hhead : (all.drop (shownUpTo count reach all k).length).head? =
        some all[k * count + (windowAt count reach all k).length] := by
      rw [h.length_shown, List.head?_drop, List.getElem?_eq_getElem hlt]
    have hmem : all[k * count + (windowAt count reach all k).length] ∈
        (all.drop (k * count)).take (count + 1) := by
      have hshort := h.short
      refine List.mem_iff_getElem.mpr ⟨(windowAt count reach all k).length, ?_, ?_⟩
      · rw [List.length_take, List.length_drop]
        omega
      · rw [List.getElem_take, List.getElem_drop]
    have htrue := hreach k (by omega) _ hmem
    rw [h.not_reach hhead] at htrue
    exact Bool.false_ne_true htrue

end LastPage

end AllfeatExplorer
