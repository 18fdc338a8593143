import Mathlib.Data.List.Pairwise
import Mathlib.Order.Lattice
import Mathlib.Order.Defs.LinearOrder

/-!
# The first of each group

`SELECT DISTINCT ON (key) … ORDER BY key, ord`: of the entries of a
sorted list the first of each run of one key is kept. On a list sorted by
key and then strictly by another value these are the entries with the
least such value of their key.
-/

namespace AllfeatExplorer

namespace Distinct

variable {α κ ι : Type*} [LinearOrder κ] [LinearOrder ι] {key : α → κ} {ord : α → ι} {l : List α}
  {a b : α} {k : κ}

/-- What is kept after an entry whose key is `prev`. -/
def after (key : α → κ) : Option κ → List α → List α
  | _, [] => []
  | prev, a :: l =>
    if prev = some (key a) then after key prev l else a :: after key (some (key a)) l

/-- `DISTINCT ON (key)` of a list sorted by it. -/
def distinctOn (key : α → κ) (l : List α) : List α :=
  after key none l

/-- **Sorted by key, and strictly by `ord` within one.** -/
def Ordered (key : α → κ) (ord : α → ι) (l : List α) : Prop :=
  l.Pairwise fun a b => key a < key b ∨ key a = key b ∧ ord a < ord b

theorem mem_after {prev : Option κ} (h : a ∈ after key prev l) : a ∈ l := by
  induction l generalizing prev with
  | nil => exact h
  | cons b l ih =>
    unfold after at h
    split at h
    · exact List.mem_cons_of_mem b (ih h)
    · rcases List.mem_cons.mp h with rfl | hrest
      · exact List.mem_cons_self
      · exact List.mem_cons_of_mem b (ih hrest)

/-- Behind a key only greater keys are kept. -/
theorem lt_of_mem_after (hl : Ordered key ord l) (hk : ∀ b ∈ l, k ≤ key b)
    (h : a ∈ after key (some k) l) : k < key a := by
  induction l with
  | nil => exact absurd h List.not_mem_nil
  | cons b l ih =>
    obtain ⟨hhead, hrest⟩ := List.pairwise_cons.mp hl
    unfold after at h
    split at h
    · exact ih hrest (fun c hc => hk c (List.mem_cons_of_mem b hc)) h
    · rename_i hne
      have hb : k < key b := lt_of_le_of_ne (hk b List.mem_cons_self) fun heq => hne (by rw [heq])
      rcases List.mem_cons.mp h with rfl | hmem
      · exact hb
      · rcases hhead a (mem_after hmem) with hlt | ⟨heq, -⟩
        · exact hb.trans hlt
        · rwa [← heq]

/-- **Each key is kept once**, in ascending order. -/
theorem pairwise_after {prev : Option κ} (hl : Ordered key ord l) :
    (after key prev l).Pairwise fun a b => key a < key b := by
  induction l generalizing prev with
  | nil => exact List.Pairwise.nil
  | cons b l ih =>
    obtain ⟨hhead, hrest⟩ := List.pairwise_cons.mp hl
    unfold after
    split
    · exact ih hrest
    · refine List.pairwise_cons.mpr ⟨fun a ha => ?_, ih hrest⟩
      refine lt_of_mem_after hrest (fun c hc => ?_) ha
      rcases hhead c hc with hlt | ⟨heq, -⟩
      · exact hlt.le
      · exact heq.le

/-- Of a key that is not the one before, the least entry is kept. -/
theorem mem_after_iff {prev : Option κ} (hl : Ordered key ord l)
    (hprev : ∀ k b, prev = some k → b ∈ l → k ≤ key b) :
    a ∈ after key prev l ↔
      a ∈ l ∧ prev ≠ some (key a) ∧ ∀ b ∈ l, key b = key a → ord a ≤ ord b := by
  induction l generalizing prev with
  | nil => simp [after]
  | cons b l ih =>
    obtain ⟨hhead, hrest⟩ := List.pairwise_cons.mp hl
    have hle : ∀ c ∈ l, key b ≤ key c := by
      intro c hc
      rcases hhead c hc with hlt | ⟨heq, -⟩
      · exact hlt.le
      · exact heq.le
    unfold after
    split
    · rename_i hsame
      rw [ih hrest fun k c hk hc => hprev k c hk (List.mem_cons_of_mem b hc)]
      constructor
      · rintro ⟨hmem, hne, hleast⟩
        refine ⟨List.mem_cons_of_mem b hmem, hne, fun c hc hkey => ?_⟩
        rcases List.mem_cons.mp hc with rfl | hc
        · exact absurd (by rw [hsame, hkey]) hne
        · exact hleast c hc hkey
      · rintro ⟨hmem, hne, hleast⟩
        rcases List.mem_cons.mp hmem with rfl | hmem
        · exact absurd hsame hne
        · exact ⟨hmem, hne, fun c hc => hleast c (List.mem_cons_of_mem b hc)⟩
    · rename_i hnew
      have hkeep : ∀ k c, some (key b) = some k → c ∈ l → k ≤ key c := by
        intro k c hk hc
        obtain rfl := Option.some.inj hk
        exact hle c hc
      rw [List.mem_cons, ih hrest hkeep]
      constructor
      · rintro (rfl | ⟨hmem, hne, hleast⟩)
        · refine ⟨List.mem_cons_self, hnew, fun c hc hkey => ?_⟩
          rcases List.mem_cons.mp hc with rfl | hc
          · exact le_rfl
          · rcases hhead c hc with hlt | ⟨-, hlt⟩
            · exact absurd hkey hlt.ne'
            · exact hlt.le
        · have hba : key b ≠ key a := fun heq => hne (by rw [heq])
          refine ⟨List.mem_cons_of_mem b hmem, ?_, fun c hc hkey => ?_⟩
          · intro heq
            -- The key before is at most `b`'s, and `b`'s is below `a`'s.
            have hlt : key b < key a := lt_of_le_of_ne (hle a hmem) hba
            exact absurd (hprev _ b heq List.mem_cons_self) (not_le.mpr hlt)
          · rcases List.mem_cons.mp hc with rfl | hc
            · exact absurd hkey hba
            · exact hleast c hc hkey
      · rintro ⟨hmem, hne, hleast⟩
        rcases List.mem_cons.mp hmem with rfl | hmem
        · exact .inl rfl
        · rcases hhead a hmem with hlt | ⟨heq, hlt⟩
          · exact .inr ⟨hmem, fun h => hlt.ne (Option.some.inj h),
              fun c hc => hleast c (List.mem_cons_of_mem b hc)⟩
          · exact absurd (hleast b List.mem_cons_self heq) (not_le.mpr hlt)

/-- **What is kept** is the least entry of each key. -/
theorem mem_distinctOn_iff (hl : Ordered key ord l) :
    a ∈ distinctOn key l ↔ a ∈ l ∧ ∀ b ∈ l, key b = key a → ord a ≤ ord b := by
  have hfirst : ∀ k b, (none : Option κ) = some k → b ∈ l → k ≤ key b := nofun
  unfold distinctOn
  rw [mem_after_iff hl hfirst]
  exact and_congr_right fun _ => ⟨And.right, fun h => ⟨nofun, h⟩⟩

theorem pairwise_distinctOn (hl : Ordered key ord l) :
    (distinctOn key l).Pairwise fun a b => key a < key b :=
  pairwise_after hl

end Distinct

end AllfeatExplorer
