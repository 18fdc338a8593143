import Mathlib.Order.Lattice
import Mathlib.Data.List.Perm.Basic
import Mathlib.Data.List.Nodup
import Mathlib.Data.List.Pairwise

/-!
# Keyed tables

A relational table with a primary key: its rows in key order, each key
once. The order makes the representation canonical, so two tables with
the same rows are equal (`Table.ext_find`), and it is the order a scan
by primary key returns.

Every write is an `alter`, which sees the row the key has and says what
row it has afterwards; `find_alter` is the one equation the other writes
are read off.
-/

namespace AllfeatExplorer

/-- **A table with a primary key**: the rows, strictly ascending by key. -/
@[ext] structure Table (κ ρ : Type*) [LinearOrder κ] where
  /-- The rows, each with its key. -/
  rows : List (κ × ρ)
  sorted : rows.Pairwise fun a b => a.1 < b.1

namespace Table

variable {κ ρ : Type*} [LinearOrder κ]

/-- The table with no row. -/
def empty : Table κ ρ := ⟨[], List.Pairwise.nil⟩

/-- The row under a key. -/
def find (t : Table κ ρ) (k : κ) : Option ρ :=
  (t.rows.find? fun r => r.1 = k).map Prod.snd

/-- `alter` on the rows: walk to the key's place and put there what `f`
makes of the row found. -/
def alterRows (k : κ) (f : Option ρ → Option ρ) : List (κ × ρ) → List (κ × ρ)
  | [] => ((f none).map fun r => (k, r)).toList
  | (k', r') :: l =>
    if k < k' then ((f none).map fun r => (k, r)).toList ++ (k', r') :: l
    else if k = k' then ((f (some r')).map fun r => (k, r)).toList ++ l
    else (k', r') :: alterRows k f l

theorem mem_alterRows_lt {k : κ} {f : Option ρ → Option ρ} {l : List (κ × ρ)} {b : κ}
    (hk : b < k) (hl : ∀ r ∈ l, b < r.1) : ∀ r ∈ alterRows k f l, b < r.1 := by
  induction l with
  | nil =>
    intro r hr
    simp only [alterRows, Option.mem_toList, Option.map_eq_some_iff] at hr
    obtain ⟨r', -, rfl⟩ := hr
    exact hk
  | cons x l ih =>
    obtain ⟨k', r'⟩ := x
    have htail : ∀ r ∈ l, b < r.1 := fun r hr => hl r (List.mem_cons_of_mem _ hr)
    intro r hr
    simp only [alterRows] at hr
    split at hr
    · rcases List.mem_append.1 hr with h | h
      · simp only [Option.mem_toList, Option.map_eq_some_iff] at h
        obtain ⟨r'', -, rfl⟩ := h
        exact hk
      · exact hl r h
    · split at hr
      · rcases List.mem_append.1 hr with h | h
        · simp only [Option.mem_toList, Option.map_eq_some_iff] at h
          obtain ⟨r'', -, rfl⟩ := h
          exact hk
        · exact htail r h
      · rcases List.mem_cons.1 hr with rfl | h
        · exact hl _ List.mem_cons_self
        · exact ih htail r h

theorem sorted_alterRows {k : κ} {f : Option ρ → Option ρ} {l : List (κ × ρ)}
    (hl : l.Pairwise fun a b => a.1 < b.1) :
    (alterRows k f l).Pairwise fun a b => a.1 < b.1 := by
  induction l with
  | nil => simp only [alterRows]; cases f none <;> simp
  | cons x l ih =>
    obtain ⟨k', r'⟩ := x
    have hcons := List.pairwise_cons.1 hl
    simp only [alterRows]
    split
    · rename_i hlt
      cases f none with
      | none => exact hl
      | some r =>
        refine List.pairwise_cons.2 ⟨fun y hy => ?_, hl⟩
        rcases List.mem_cons.1 hy with rfl | hy
        · exact hlt
        · exact lt_trans hlt (hcons.1 y hy)
    · split
      · rename_i heq
        subst heq
        cases f (some r') with
        | none => exact hcons.2
        | some r => exact List.pairwise_cons.2 ⟨hcons.1, hcons.2⟩
      · rename_i hlt hne
        have hk : k' < k := lt_of_le_of_ne (not_lt.1 hlt) (Ne.symm hne)
        exact List.pairwise_cons.2 ⟨mem_alterRows_lt hk hcons.1, ih hcons.2⟩

/-- **The general write**: the key's row becomes what `f` makes of the
row it had. -/
def alter (t : Table κ ρ) (k : κ) (f : Option ρ → Option ρ) : Table κ ρ :=
  ⟨alterRows k f t.rows, sorted_alterRows t.sorted⟩

/-- `INSERT … ON CONFLICT DO NOTHING`. -/
def insertNew (t : Table κ ρ) (k : κ) (r : ρ) : Table κ ρ :=
  t.alter k fun o => some (o.getD r)

/-- `INSERT … ON CONFLICT DO UPDATE`: a fresh key gets `r`, a taken one
what `merge` makes of its row. -/
def upsert (t : Table κ ρ) (k : κ) (r : ρ) (merge : ρ → ρ) : Table κ ρ :=
  t.alter k fun o => some (o.elim r merge)

/-- `UPDATE … WHERE key = k`. -/
def update (t : Table κ ρ) (k : κ) (f : ρ → ρ) : Table κ ρ :=
  t.alter k (Option.map f)

/-- `DELETE … WHERE key = k`. -/
def erase (t : Table κ ρ) (k : κ) : Table κ ρ :=
  t.alter k fun _ => none

/-- A multi-row `INSERT … ON CONFLICT DO NOTHING`: of two rows with one
key the first stays. -/
def insertAll (t : Table κ ρ) (rows : List (κ × ρ)) : Table κ ρ :=
  rows.foldl (fun t r => t.insertNew r.1 r.2) t

/-- The first of the rows offered for a key. -/
def firstOffered (rows : List (κ × ρ)) (k : κ) : Option ρ := rows.lookup k

/-- `DELETE … WHERE NOT p`. -/
def filter (t : Table κ ρ) (p : κ → ρ → Bool) : Table κ ρ :=
  ⟨t.rows.filter fun r => p r.1 r.2, t.sorted.filter _⟩

/-- Whether the key has a row. -/
def contains (t : Table κ ρ) (k : κ) : Bool := (t.find k).isSome

/-- The keys, ascending. -/
def keys (t : Table κ ρ) : List κ := t.rows.map Prod.fst

/-! ## Reading a write back -/

variable {t t' : Table κ ρ} {k k' : κ} {r : ρ}

theorem nodup_keys (t : Table κ ρ) : t.keys.Nodup :=
  List.pairwise_map.2 (t.sorted.imp fun h => ne_of_lt h)

theorem eq_of_mem_rows {a b : κ × ρ} (ha : a ∈ t.rows) (hb : b ∈ t.rows) (h : a.1 = b.1) :
    a = b :=
  List.inj_on_of_nodup_map t.nodup_keys ha hb h

theorem find_eq_some_iff : t.find k = some r ↔ (k, r) ∈ t.rows := by
  simp only [find, Option.map_eq_some_iff]
  constructor
  · rintro ⟨⟨k', r'⟩, hf, rfl⟩
    have hk : k' = k := by simpa using List.find?_some hf
    exact hk ▸ List.mem_of_find?_eq_some hf
  · intro h
    cases hf : t.rows.find? (fun r => r.1 = k) with
    | none => exact absurd (List.find?_eq_none.1 hf _ h) (by simp)
    | some a =>
      have hk : a.1 = k := by simpa using List.find?_some hf
      exact ⟨a, rfl, by rw [eq_of_mem_rows (List.mem_of_find?_eq_some hf) h hk]⟩

theorem find_eq_none_iff : t.find k = none ↔ ∀ r, (k, r) ∉ t.rows := by
  rw [Option.eq_none_iff_forall_ne_some]
  exact forall_congr' fun r => not_congr find_eq_some_iff

theorem nodup_rows (t : Table κ ρ) : t.rows.Nodup :=
  t.sorted.imp fun h heq => absurd (heq ▸ h) (lt_irrefl _)

/-- **Extensionality.** Tables that answer every lookup alike are equal. -/
theorem ext_find (h : ∀ k, t.find k = t'.find k) : t = t' := by
  refine Table.ext (List.Perm.eq_of_pairwise ?_ t.sorted t'.sorted ?_)
  · exact fun a b _ _ hab hba => absurd (lt_trans hab hba) (lt_irrefl _)
  · refine (List.perm_ext_iff_of_nodup t.nodup_rows t'.nodup_rows).2 fun ⟨k, r⟩ => ?_
    rw [← find_eq_some_iff, ← find_eq_some_iff, h]

@[simp] theorem find_empty : (empty : Table κ ρ).find k = none := rfl

/-- A key below every row is absent. -/
theorem find?_eq_none_of_lt {l : List (κ × ρ)} (h : ∀ r ∈ l, k < r.1) :
    (l.find? fun r => r.1 = k) = none :=
  List.find?_eq_none.2 fun r hr => by simpa using ne_of_gt (h r hr)

theorem find?_alterRows {f : Option ρ → Option ρ} {l : List (κ × ρ)}
    (hl : l.Pairwise fun a b => a.1 < b.1) :
    ((alterRows k f l).find? fun r => r.1 = k').map Prod.snd =
      if k' = k then f ((l.find? fun r => r.1 = k).map Prod.snd)
      else (l.find? fun r => r.1 = k').map Prod.snd := by
  induction l with
  | nil =>
    by_cases hk : k' = k
    · subst hk
      simp only [alterRows]
      cases hf : f none <;> simp [hf]
    · simp only [alterRows]
      cases f none <;> simp [hk, Ne.symm hk]
  | cons x l ih =>
    obtain ⟨k₁, r₁⟩ := x
    have hcons := List.pairwise_cons.1 hl
    simp only [alterRows]
    split
    · rename_i hlt
      have hnone : (((k₁, r₁) :: l).find? fun r => r.1 = k) = none :=
        find?_eq_none_of_lt fun y hy => by
          rcases List.mem_cons.1 hy with rfl | hy
          · exact hlt
          · exact lt_trans hlt (hcons.1 y hy)
      by_cases hk : k' = k
      · subst hk
        rw [if_pos rfl, hnone]
        cases hf : f none with
        | none => simp only [Option.map_none, Option.toList_none, List.nil_append, hnone, hf]
        | some r => simp [hf]
      · rw [if_neg hk]
        cases f none with
        | none => rfl
        | some r =>
          simp only [Option.map_some, Option.toList_some, List.singleton_append]
          rw [List.find?_cons_of_neg (by simpa using Ne.symm hk)]
    · split
      · rename_i heq
        subst heq
        by_cases hk : k' = k
        · subst hk
          cases hf : f (some r₁) with
          | none =>
            simp [hf, find?_eq_none_of_lt hcons.1]
          | some r => simp [hf]
        · cases f (some r₁) <;> simp [hk, Ne.symm hk]
      · rename_i hne
        by_cases hk₁ : k₁ = k'
        · subst hk₁
          simp [Ne.symm hne]
        · rw [List.find?_cons_of_neg (by simpa using hk₁), ih hcons.2,
            List.find?_cons_of_neg (by simpa using Ne.symm hne),
            List.find?_cons_of_neg (by simpa using hk₁)]

/-- **What a write leaves**: the key's row is `f` of the old one, every
other key keeps its row. -/
@[simp] theorem find_alter {f : Option ρ → Option ρ} :
    (t.alter k f).find k' = if k' = k then f (t.find k) else t.find k' :=
  find?_alterRows t.sorted

@[simp] theorem find_insertNew :
    (t.insertNew k r).find k' = if k' = k then some ((t.find k).getD r) else t.find k' :=
  find_alter

@[simp] theorem find_upsert {merge : ρ → ρ} :
    (t.upsert k r merge).find k' =
      if k' = k then some ((t.find k).elim r merge) else t.find k' :=
  find_alter

@[simp] theorem find_update {f : ρ → ρ} :
    (t.update k f).find k' = if k' = k then (t.find k).map f else t.find k' :=
  find_alter

@[simp] theorem find_erase :
    (t.erase k).find k' = if k' = k then none else t.find k' :=
  find_alter

@[simp] theorem find_filter {p : κ → ρ → Bool} :
    (t.filter p).find k = (t.find k).filter (p k) := by
  ext r
  rw [find_eq_some_iff, Option.filter_eq_some_iff, find_eq_some_iff]
  simp [filter]

theorem mem_of_firstOffered {rows : List (κ × ρ)} (h : firstOffered rows k = some r) :
    (k, r) ∈ rows := by
  obtain ⟨l₁, l₂, rfl, -⟩ := List.lookup_eq_some_iff.mp h
  exact List.mem_append_right l₁ List.mem_cons_self

theorem firstOffered_isSome_iff {rows : List (κ × ρ)} :
    (firstOffered rows k).isSome = true ↔ k ∈ rows.map Prod.fst := by
  rw [Option.isSome_iff_ne_none, firstOffered, ne_eq, List.lookup_eq_none_iff, List.mem_map]
  push Not
  constructor
  · rintro ⟨r, hr, hk⟩
    exact ⟨r, hr, (by simpa using hk : k = r.1).symm⟩
  · rintro ⟨r, hr, rfl⟩
    exact ⟨r, hr, by simp⟩

theorem firstOffered_eq_none {rows : List (κ × ρ)} (h : ∀ r ∈ rows, r.1 ≠ k) :
    firstOffered rows k = none := by
  rw [← Option.not_isSome_iff_eq_none, firstOffered_isSome_iff, List.mem_map]
  rintro ⟨r, hr, hk⟩
  exact h r hr hk

theorem firstOffered_append {rows more : List (κ × ρ)} :
    firstOffered (rows ++ more) k = (firstOffered rows k).or (firstOffered more k) :=
  List.lookup_append

/-- Sorted rows are a table, which finds the row offered. -/
theorem find_mk {rows : List (κ × ρ)} (h : rows.Pairwise fun a b => a.1 < b.1) :
    find ⟨rows, h⟩ k = firstOffered rows k := by
  ext r
  rw [find_eq_some_iff]
  constructor
  · intro hmem
    obtain ⟨r', hr'⟩ := Option.isSome_iff_exists.mp
      (firstOffered_isSome_iff.mpr (List.mem_map_of_mem (f := Prod.fst) hmem))
    have hsame : (k, r') = (k, r) :=
      eq_of_mem_rows (t := ⟨rows, h⟩) (mem_of_firstOffered hr') hmem rfl
    rw [hr', (Prod.mk.inj hsame).2]
  · exact mem_of_firstOffered

/-- **A stretch of the rows is known by its lookups**: the sorted rows
offered for the keys in it, and for no other. -/
theorem filter_rows_eq {p : κ → Bool} {rows : List (κ × ρ)}
    (hrows : rows.Pairwise fun a b => a.1 < b.1) (hin : ∀ r ∈ rows, p r.1 = true)
    (hfind : ∀ k, p k = true → t.find k = firstOffered rows k) :
    (t.rows.filter fun r => p r.1) = rows := by
  have htables : t.filter (fun k _ => p k) = ⟨rows, hrows⟩ := by
    refine ext_find fun k => ?_
    rw [find_filter, find_mk hrows]
    cases hk : p k with
    | true =>
      rw [hfind k hk]
      cases firstOffered rows k <;> rfl
    | false =>
      have hnone : firstOffered rows k = none := by
        refine firstOffered_eq_none fun r hr heq => ?_
        rw [← heq, hin r hr] at hk
        cases hk
      rw [hnone]
      cases t.find k <;> rfl
  exact congrArg Table.rows htables

theorem insertAll_append {rows more : List (κ × ρ)} :
    t.insertAll (rows ++ more) = (t.insertAll rows).insertAll more :=
  List.foldl_append

/-- A multi-row insert adds the first row offered for a free key. -/
@[simp] theorem find_insertAll {rows : List (κ × ρ)} :
    (t.insertAll rows).find k = (t.find k).or (firstOffered rows k) := by
  induction rows generalizing t with
  | nil => simp [insertAll, firstOffered]
  | cons r rows ih =>
    have hstep : t.insertAll (r :: rows) = (t.insertNew r.1 r.2).insertAll rows := rfl
    rw [hstep, ih, find_insertNew, firstOffered, firstOffered]
    by_cases hk : k = r.1
    · subst hk
      have hself : (r :: rows).lookup r.1 = some r.2 := List.lookup_cons_self
      rw [if_pos rfl, hself]
      cases t.find r.1 <;> rfl
    · have hne : (k == r.1) = false := by simpa using hk
      rw [if_neg hk, List.lookup_cons, hne]

/-- **Among distinct keys** a row offered is the first for its key. -/
theorem firstOffered_of_mem {rows : List (κ × ρ)} (hnodup : (rows.map Prod.fst).Nodup)
    (hr : (k, r) ∈ rows) : firstOffered rows k = some r := by
  obtain ⟨r', hr'⟩ := Option.isSome_iff_exists.mp
    (firstOffered_isSome_iff.mpr (List.mem_map_of_mem (f := Prod.fst) hr))
  have hsame : (k, r') = (k, r) :=
    List.inj_on_of_nodup_map hnodup (mem_of_firstOffered hr') hr rfl
  rw [hr', (Prod.mk.inj hsame).2]

/-- What is offered first is so in each part of a list put together from
parts. -/
theorem firstOffered_flatMap_congr {α : Type*} {l : List α} {f g : α → List (κ × ρ)}
    (h : ∀ a ∈ l, firstOffered (f a) k = firstOffered (g a) k) :
    firstOffered (l.flatMap f) k = firstOffered (l.flatMap g) k := by
  induction l with
  | nil => rfl
  | cons a l ih =>
    rw [List.flatMap_cons, List.flatMap_cons, firstOffered_append, firstOffered_append,
      h a List.mem_cons_self, ih fun b hb => h b (List.mem_cons_of_mem a hb)]

/-- **Rows under distinct free keys** are inserted as they are, up to
their order. -/
theorem filter_insertAll_perm {p : κ → Bool} {rows : List (κ × ρ)}
    (hnodup : (rows.map Prod.fst).Nodup) (hfree : ∀ k, p k = true → t.find k = none) :
    ((t.insertAll rows).rows.filter fun r => p r.1).Perm (rows.filter fun r => p r.1) := by
  refine (List.perm_ext_iff_of_nodup ((nodup_rows _).filter _)
    ((hnodup.of_map _).filter _)).mpr fun ⟨k, r⟩ => ?_
  rw [List.mem_filter, List.mem_filter, ← find_eq_some_iff, find_insertAll]
  refine and_congr_left fun hk => ?_
  rw [hfree k hk, Option.none_or]
  exact ⟨mem_of_firstOffered, firstOffered_of_mem hnodup⟩

theorem contains_eq_true_iff : t.contains k = true ↔ ∃ r, t.find k = some r :=
  Option.isSome_iff_exists

theorem mem_keys_iff : k ∈ t.keys ↔ t.contains k = true := by
  rw [contains_eq_true_iff, keys, List.mem_map]
  constructor
  · rintro ⟨⟨k', r⟩, h, rfl⟩
    exact ⟨r, find_eq_some_iff.2 h⟩
  · rintro ⟨r, h⟩
    exact ⟨(k, r), find_eq_some_iff.1 h, rfl⟩

/-! ## Which keys a write leaves -/

@[simp] theorem contains_insertNew :
    (t.insertNew k r).contains k' = (decide (k' = k) || t.contains k') := by
  simp only [contains, find_insertNew]
  by_cases h : k' = k <;> simp [h]

@[simp] theorem contains_update {f : ρ → ρ} :
    (t.update k f).contains k' = t.contains k' := by
  simp only [contains, find_update]
  by_cases h : k' = k <;> simp [h]

theorem contains_eq_false_iff : t.contains k = false ↔ t.find k = none := by
  simp [contains]

@[simp] theorem contains_insertAll {rows : List (κ × ρ)} :
    (t.insertAll rows).contains k = (t.contains k || (firstOffered rows k).isSome) := by
  simp only [contains, find_insertAll]
  cases t.find k <;> rfl

end Table

end AllfeatExplorer
