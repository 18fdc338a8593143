import AllfeatExplorer.Lib.Table
import AllfeatExplorer.Lib.LastWrite
import AllfeatExplorer.Common.Machine

/-!
# The network lookup

`NetworkLookup` of `src/indexer/lookups.rs` over the `networks` table of
migration 004: one `INSERT … ON CONFLICT (id) DO NOTHING` for each
network of the compiled list, under an id computed from its position, and
the map the indexer and the queries resolve names with.
-/

namespace AllfeatExplorer

/-- **The `networks` table**: `id` is the primary key and `name` is
unique. -/
structure NetworksTable where
  table : Table ℤ String
  name_unique : ∀ id id' name, table.find id = some name → table.find id' = some name → id = id'

/-- `(idx as i16) + 1`, which wraps in a release build. -/
def smallId (idx : ℕ) : ℤ := Int.bmod (Int.bmod idx 65536 + 1) 65536

namespace NetworksTable

/-- A row with a new name leaves the names unique. -/
theorem name_unique_insertNew (t : NetworksTable) {id : ℤ} {name : String}
    (hname : ¬ ∃ r ∈ t.table.rows, r.2 = name) (a b : ℤ) (stored : String)
    (hfree : t.table.find id = none) (ha : (t.table.insertNew id name).find a = some stored)
    (hb : (t.table.insertNew id name).find b = some stored) : a = b := by
  have hfresh : ∀ other, t.table.find other ≠ some name := fun other hother =>
    hname ⟨(other, name), Table.find_eq_some_iff.1 hother, rfl⟩
  rw [Table.find_insertNew, hfree, Option.getD_none] at ha hb
  by_cases hai : a = id
  · rw [if_pos hai] at ha
    by_cases hbi : b = id
    · rw [hai, hbi]
    · rw [if_neg hbi, ← ha] at hb
      exact absurd hb (hfresh b)
  · rw [if_neg hai] at ha
    by_cases hbi : b = id
    · rw [if_pos hbi, ← ha] at hb
      exact absurd hb.symm (hfresh a)
    · rw [if_neg hbi] at hb
      exact t.name_unique a b stored ha hb

/-- `INSERT INTO networks (id, name) … ON CONFLICT (id) DO NOTHING`. The
conflict clause is about the id alone: a name stored under another id
violates its own index, and the statement fails. -/
def insert (t : NetworksTable) (id : ℤ) (name : String) : Option NetworksTable :=
  if hid : t.table.find id ≠ none then some t
  else if hname : ∃ r ∈ t.table.rows, r.2 = name then none
  else some
    { table := t.table.insertNew id name
      name_unique := fun a b stored =>
        t.name_unique_insertNew hname a b stored (not_not.1 hid) }

end NetworksTable

namespace NetworkLookup

/-- The loop of `load_or_seed` over the enumerated list. A failed
statement leaves what the earlier ones inserted and ends the call with an
error that names the network. -/
def seed : NetworksTable → (String → Option ℤ) → List (String × ℕ) →
    NetworksTable × Except String (String → Option ℤ)
  | t, byName, [] => (t, .ok byName)
  | t, byName, (net, idx) :: rest =>
    let sid := smallId idx
    match t.insert sid net with
    | none => (t, .error net)
    | some t => seed t (Function.update byName net (some sid)) rest

/-- **`NetworkLookup::load_or_seed`** with the compiled list of network
ids. -/
def loadOrSeed (t : NetworksTable) (networks : List String) :
    NetworksTable × Except String (String → Option ℤ) :=
  seed t (fun _ => none) networks.zipIdx

end NetworkLookup

end AllfeatExplorer
