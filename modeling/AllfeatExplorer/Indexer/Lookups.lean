import AllfeatExplorer.Indexer.Model.Lookups

/-!
# The network lookup and its table

The loop is determined by the rows the list offers: the table ends with
the first of them for each id that was free (`seed_ok`), and it fails just
at a row whose id is free and whose name is not (`seed_isOk_iff`). The map
is filled from positions alone. It agrees with the table just if what was
stored under each id is the network at that position.
-/

namespace AllfeatExplorer

open Table

variable {t t' : NetworksTable} {id : ℤ} {name : String} {rows : List (ℤ × String)}
  {networks : List String}

/-- The rows a list of networks offers to the table, in order. -/
def offeredRows (entries : List (String × ℕ)) : List (ℤ × String) :=
  entries.map fun (net, idx) => (smallId idx, net)

theorem offeredRows_cons {net : String} {idx : ℕ} {rest : List (String × ℕ)} :
    offeredRows ((net, idx) :: rest) = (smallId idx, net) :: offeredRows rest := rfl

/-- **Who has an id** once rows are offered to a table: what was stored,
else the first row offered for it. -/
def occupant (t : NetworksTable) (rows : List (ℤ × String)) (id : ℤ) : Option String :=
  (t.table.find id).or (firstOffered rows id)

@[simp] theorem occupant_nil : occupant t [] id = t.table.find id := Option.or_none

/-! ## One insert -/

namespace NetworksTable

/-- **An insert fails** just if the id is free and the name is not. -/
theorem insert_eq_none_iff :
    t.insert id name = none ↔ t.table.find id = none ∧ ∃ id', t.table.find id' = some name := by
  have hstored : (∃ r ∈ t.table.rows, r.2 = name) ↔ ∃ id', t.table.find id' = some name := by
    constructor
    · rintro ⟨⟨id', _⟩, hr, rfl⟩
      exact ⟨id', find_eq_some_iff.2 hr⟩
    · rintro ⟨id', hid'⟩
      exact ⟨(id', name), find_eq_some_iff.1 hid', rfl⟩
  unfold insert
  split
  · next hid => simp [hid]
  · next hid =>
    rw [not_not] at hid
    split
    · next hname => exact ⟨fun _ => ⟨hid, hstored.1 hname⟩, fun _ => rfl⟩
    · next hname => simpa [hid] using fun id' hid' => hname (hstored.2 ⟨id', hid'⟩)

/-- **An insert that does not fail** offers its row. -/
theorem occupant_insert (h : t.insert id name = some t') {other : ℤ} :
    occupant t' rows other = occupant t ((id, name) :: rows) other := by
  have hself : firstOffered ((id, name) :: rows) id = some name := List.lookup_cons_self
  have hne : other ≠ id → firstOffered ((id, name) :: rows) other = firstOffered rows other := by
    intro hother
    rw [firstOffered, List.lookup_cons, beq_eq_false_iff_ne.2 hother, firstOffered]
  unfold insert at h
  unfold occupant
  split at h
  · next hid =>
    obtain rfl := Option.some.inj h
    by_cases hother : other = id
    · obtain ⟨stored, hstored⟩ := Option.ne_none_iff_exists'.1 hid
      rw [hother, hstored, Option.some_or, Option.some_or]
    · rw [hne hother]
  · next hid =>
    rw [not_not] at hid
    split at h
    · exact absurd h (by simp)
    · obtain rfl := Option.some.inj h
      rw [find_insertNew]
      by_cases hother : other = id
      · rw [if_pos hother, hother, hid, hself]
        rfl
      · rw [if_neg hother, hne hother]

end NetworksTable

/-! ## The loop -/

/-- A row that is refused: its id is free and its name is taken, by the
table or by an earlier row. -/
def InsertFails (t : NetworksTable) (rows : List (ℤ × String)) : Prop :=
  ∃ pre id name post, rows = pre ++ (id, name) :: post ∧ occupant t pre id = none ∧
    ∃ id', occupant t pre id' = some name

/-- The table has each network of the map under its id: for a name's last
position, the id computed from it is that name's. -/
def Agrees (t : NetworksTable) (rows : List (ℤ × String)) : Prop :=
  ∀ pre id name post, rows = pre ++ (id, name) :: post → (∀ r ∈ post, r.2 ≠ name) →
    occupant t rows id = some name

namespace NetworkLookup

/-- **What a successful loop leaves**: the offered rows are in the table
and all of them are in the map. -/
theorem seed_ok {byName m : String → Option ℤ} {entries : List (String × ℕ)}
    (h : seed t m entries = (t', .ok byName)) :
    (∀ id, t'.table.find id = occupant t (offeredRows entries) id) ∧
      byName = writeAll m ((offeredRows entries).map Prod.swap) := by
  induction entries generalizing t m with
  | nil =>
    obtain ⟨rfl, hm⟩ := Prod.mk.inj h
    exact ⟨fun id => occupant_nil.symm, (Except.ok.inj hm).symm⟩
  | cons entry rest ih =>
    obtain ⟨net, idx⟩ := entry
    rw [seed] at h
    split at h
    · exact absurd (Prod.mk.inj h).2 (by simp)
    · next t₁ hinsert =>
      obtain ⟨hfind, hmap⟩ := ih h
      refine ⟨fun id => ?_, ?_⟩
      · rw [hfind, offeredRows_cons, NetworksTable.occupant_insert hinsert]
      · rw [hmap, offeredRows_cons, List.map_cons, writeAll_cons, Prod.swap_prod_mk]

theorem insertFails_cons (h : t.insert id name = some t') :
    InsertFails t ((id, name) :: rows) ↔ InsertFails t' rows := by
  constructor
  · rintro ⟨pre, id', name', post, heq, hfree, id'', htaken⟩
    cases pre with
    | nil =>
      obtain ⟨hhead, -⟩ := List.cons.inj heq
      obtain ⟨rfl, rfl⟩ := Prod.mk.inj hhead
      rw [occupant_nil] at hfree htaken
      have hnone := NetworksTable.insert_eq_none_iff.2 ⟨hfree, id'', htaken⟩
      rw [hnone] at h
      exact absurd h (by simp)
    | cons r pre =>
      obtain ⟨rfl, rfl⟩ := List.cons.inj heq
      rw [← NetworksTable.occupant_insert h] at hfree htaken
      exact ⟨pre, id', name', post, rfl, hfree, id'', htaken⟩
  · rintro ⟨pre, id', name', post, rfl, hfree, id'', htaken⟩
    rw [NetworksTable.occupant_insert h] at hfree htaken
    exact ⟨(id, name) :: pre, id', name', post, rfl, hfree, id'', htaken⟩

/-- **When the loop succeeds.** -/
theorem seed_isOk_iff {m : String → Option ℤ} {entries : List (String × ℕ)} :
    (∃ t' byName, seed t m entries = (t', .ok byName)) ↔ ¬ InsertFails t (offeredRows entries) := by
  induction entries generalizing t m with
  | nil =>
    refine ⟨fun _ => ?_, fun _ => ⟨t, m, rfl⟩⟩
    rintro ⟨pre, id, name, post, heq, -⟩
    exact absurd heq (by simp [offeredRows])
  | cons entry rest ih =>
    obtain ⟨net, idx⟩ := entry
    rw [seed]
    rcases hinsert : t.insert (smallId idx) net with - | t₁
    · obtain ⟨hfree, id', htaken⟩ := NetworksTable.insert_eq_none_iff.1 hinsert
      refine ⟨fun ⟨t', byName, h⟩ => absurd (Prod.mk.inj h).2 (by simp), fun hno => ?_⟩
      exact absurd ⟨[], _, _, _, rfl, occupant_nil.trans hfree, id', occupant_nil.trans htaken⟩ hno
    · exact ih.trans (not_congr (insertFails_cons hinsert)).symm

/-- **The lookup is coherent with its table**: where `load_or_seed`
succeeds, each pair of the map is a row. -/
def Coherent (t : NetworksTable) (networks : List String) : Prop :=
  ∀ t' byName, loadOrSeed t networks = (t', .ok byName) →
    ∀ name sid, byName name = some sid → t'.table.find sid = some name

/-- **When it is.** For every table and every list: just if the call fails
or the table, with the free ids filled from the list, has each network
under the id of its position. -/
theorem coherent_iff (t : NetworksTable) (networks : List String) :
    Coherent t networks ↔
      InsertFails t (offeredRows networks.zipIdx) ∨ Agrees t (offeredRows networks.zipIdx) := by
  constructor
  · intro hcoherent
    by_cases hfails : InsertFails t (offeredRows networks.zipIdx)
    · exact .inl hfails
    · refine .inr fun pre id name post heq hlast => ?_
      obtain ⟨t', byName, hok⟩ := seed_isOk_iff.2 hfails
      obtain ⟨hfind, hmap⟩ := seed_ok hok
      rw [← hfind]
      refine hcoherent t' byName hok name id ?_
      rw [hmap]
      refine ofWrites_eq_some_iff.2 ⟨pre.map Prod.swap, post.map Prod.swap, by simp [heq], ?_⟩
      intro r hr
      obtain ⟨row, hrow, rfl⟩ := List.mem_map.1 hr
      exact hlast row hrow
  · intro hcases t' byName hok name sid hsid
    obtain ⟨hfind, hmap⟩ := seed_ok hok
    rcases hcases with hfails | hagrees
    · exact absurd hfails (seed_isOk_iff.1 ⟨t', byName, hok⟩)
    · rw [hmap] at hsid
      obtain ⟨pre, post, heq, hlast⟩ := ofWrites_eq_some_iff.1 hsid
      rw [hfind]
      have hrows : offeredRows networks.zipIdx =
          pre.map Prod.swap ++ (sid, name) :: post.map Prod.swap := by
        have hswap := congrArg (List.map Prod.swap) heq
        simpa using hswap
      refine hagrees _ _ _ _ hrows fun r hr => ?_
      obtain ⟨row, hrow, rfl⟩ := List.mem_map.1 hr
      exact hlast row hrow

/-- **A list put in another order reads another network's rows**: the
table was filled from the list before, both ids are taken, and the map
follows the new positions. -/
theorem not_coherent_reordered :
    ¬ Coherent (loadOrSeed ⟨.empty, fun _ _ _ h => nomatch h⟩ ["melodie", "allfeat"]).1
      ["allfeat", "melodie"] := by
  intro hcoherent
  have hrow := hcoherent _ _ rfl "allfeat" 1 (by decide)
  exact absurd hrow (by decide)

end NetworkLookup

end AllfeatExplorer
