import AllfeatExplorer.Lib.Table

/-!
# A table and the table that references it

Two tables under a foreign key with `ON DELETE CASCADE`: each child row
names a parent, and the parent is there. The constraint is a field, so a
pair that breaks it cannot be built; an insert that would break it is
refused, and deleting a parent takes its children along.
-/

namespace AllfeatExplorer

/-- **Two tables linked by a foreign key.** `ref` reads the parent's key
off the child's. -/
structure Linked {κ κ' : Type*} [LinearOrder κ] [LinearOrder κ'] (ref : κ' → κ)
    (ρ ρ' : Type*) where
  parents : Table κ ρ
  children : Table κ' ρ'
  fk : ∀ k', children.contains k' = true → parents.contains (ref k') = true

namespace Linked

variable {κ κ' ρ ρ' : Type*} [LinearOrder κ] [LinearOrder κ'] {ref : κ' → κ}

/-- Neither table has a row. -/
def empty : Linked ref ρ ρ' where
  parents := .empty
  children := .empty
  fk := by
    intro k' h
    simp [Table.contains] at h

/-- Parents are inserted, `ON CONFLICT DO NOTHING`. -/
def insertParents (t : Linked ref ρ ρ') (rows : List (κ × ρ)) : Linked ref ρ ρ' where
  parents := t.parents.insertAll rows
  children := t.children
  fk := by
    intro k' h
    rw [Table.contains_insertAll, t.fk k' h, Bool.true_or]

/-- **The rows an insert is refused for**: the key is free, so the row
would land, and no parent is there for it. -/
def orphans (t : Linked ref ρ ρ') (rows : List (κ' × ρ')) : List (κ' × ρ') :=
  rows.filter fun r => !t.children.contains r.1 && !t.parents.contains (ref r.1)

theorem parents_of_no_orphan {t : Linked ref ρ ρ'} {rows : List (κ' × ρ')}
    (h : t.orphans rows = []) (k' : κ')
    (hk : (t.children.insertAll rows).contains k' = true) :
    t.parents.contains (ref k') = true := by
  rw [Table.contains_insertAll, Bool.or_eq_true] at hk
  rcases hk with hold | hnew
  · exact t.fk k' hold
  · obtain ⟨r, hr⟩ := Option.isSome_iff_exists.mp hnew
    have hmem : (k', r) ∈ rows := Table.mem_of_firstOffered hr
    have hfree := List.filter_eq_nil_iff.mp h (k', r) hmem
    by_cases hc : t.children.contains k' = true
    · exact t.fk k' hc
    · simpa [hc] using hfree

/-- Children are inserted, `ON CONFLICT DO NOTHING`; one orphan refuses
the whole statement. -/
def insertChildren (t : Linked ref ρ ρ') (rows : List (κ' × ρ')) : Option (Linked ref ρ ρ') :=
  if h : t.orphans rows = [] then
    some { parents := t.parents
           children := t.children.insertAll rows
           fk := parents_of_no_orphan h }
  else none

/-- One parent's columns are rewritten. -/
def updateParent (t : Linked ref ρ ρ') (k : κ) (f : ρ → ρ) : Linked ref ρ ρ' where
  parents := t.parents.update k f
  children := t.children
  fk := by
    intro k' h
    rw [Table.contains_update]
    exact t.fk k' h

/-- **One parent is deleted**, and the children that name it. -/
def deleteParent (t : Linked ref ρ ρ') (k : κ) : Linked ref ρ ρ' where
  parents := t.parents.erase k
  children := t.children.filter fun k' _ => !decide (ref k' = k)
  fk := by
    intro k' h
    obtain ⟨r, hr⟩ := Table.contains_eq_true_iff.mp h
    rw [Table.find_filter, Option.filter_eq_some_iff] at hr
    have hne : ref k' ≠ k := by simpa using hr.2
    have hp := t.fk k' (Table.contains_eq_true_iff.mpr ⟨r, hr.1⟩)
    simpa [Table.contains, hne] using hp

/-! ## Reading back -/

variable {t t' u : Linked ref ρ ρ'} {k k₀ : κ} {k' : κ'}

/-- Pairs that answer every lookup alike are equal. -/
theorem ext_find (hp : ∀ k, t.parents.find k = t'.parents.find k)
    (hc : ∀ k', t.children.find k' = t'.children.find k') : t = t' := by
  obtain ⟨p, c, hfk⟩ := t
  obtain ⟨p', c', hfk'⟩ := t'
  obtain rfl : p = p' := Table.ext_find hp
  obtain rfl : c = c' := Table.ext_find hc
  rfl

/-- **A parent that is absent has no children.** -/
theorem child_none_of_parent_none (h : t.parents.find (ref k') = none) :
    t.children.find k' = none := by
  rw [← Table.contains_eq_false_iff] at h ⊢
  cases hc : t.children.contains k' with
  | false => rfl
  | true => rw [t.fk k' hc] at h; exact h

@[simp] theorem find_parents_insertParents {rows : List (κ × ρ)} :
    (t.insertParents rows).parents.find k = (t.parents.find k).or (Table.firstOffered rows k) :=
  Table.find_insertAll

@[simp] theorem children_insertParents {rows : List (κ × ρ)} :
    (t.insertParents rows).children = t.children := rfl

/-- **When a child insert goes through, and what it leaves.** -/
theorem insertChildren_eq_some {rows : List (κ' × ρ')} :
    t.insertChildren rows = some u ↔ t.orphans rows = [] ∧
      u.parents = t.parents ∧ u.children = t.children.insertAll rows := by
  unfold insertChildren
  constructor
  · intro h
    split at h
    · rename_i hno
      obtain rfl := Option.some.inj h
      exact ⟨hno, rfl, rfl⟩
    · cases h
  · rintro ⟨hno, hp, hc⟩
    rw [dif_pos hno]
    obtain ⟨p, c, hfk⟩ := u
    obtain rfl : p = _ := hp
    obtain rfl : c = _ := hc
    rfl

theorem insertChildren_eq_none {rows : List (κ' × ρ')} :
    t.insertChildren rows = none ↔ t.orphans rows ≠ [] := by
  unfold insertChildren
  split
  · rename_i hno
    simp [hno]
  · rename_i hno
    simp [hno]

@[simp] theorem find_parents_updateParent {f : ρ → ρ} :
    (t.updateParent k₀ f).parents.find k =
      if k = k₀ then (t.parents.find k₀).map f else t.parents.find k :=
  Table.find_update

@[simp] theorem children_updateParent {f : ρ → ρ} :
    (t.updateParent k₀ f).children = t.children := rfl

@[simp] theorem find_parents_deleteParent :
    (t.deleteParent k₀).parents.find k = if k = k₀ then none else t.parents.find k :=
  Table.find_erase

@[simp] theorem find_children_deleteParent :
    (t.deleteParent k₀).children.find k' =
      if ref k' = k₀ then none else t.children.find k' := by
  have h : (t.deleteParent k₀).children.find k' = _ := Table.find_filter
  rw [h]
  by_cases hk : ref k' = k₀ <;> cases t.children.find k' <;> simp [hk]

end Linked

end AllfeatExplorer
