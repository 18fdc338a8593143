import Mathlib.Data.List.Lex
import AllfeatExplorer.Lib.Decimal
import AllfeatExplorer.Lib.Urlencoded

/-!
# The list pages

`usePaginatedList.ts`: the key under which a page's data is kept, and the
request that fetches it, both made from the active network, the cursor of
the route and the filters. The router, the reactive plumbing and the page
that comes back are left out.
-/

namespace AllfeatExplorer

namespace PaginatedList

/-- A string, as its characters. -/
abbrev Text := List Char

/-- **`FilterMap`**: its own keys, in some order. A value is a string or
nullish. -/
structure FilterMap where
  entries : List (Text × Option Text)
  nodup : entries.Pairwise fun a b => a.1 ≠ b.1

/-- `UsePaginatedListOptions`, but for the filters, which change. -/
structure Options where
  keyPrefix : Text
  path : Text
  pageSize : ℕ := 25

/-- **What an instance reads**: the active network, the cursor of the
route where it is a string, and the filters as they are now. -/
structure State where
  activeId : Option Text
  queryCursor : Option Text
  filters : FilterMap

/-! ## `URLSearchParams` -/

/-- **`URLSearchParams.set`**: the first pair of the name takes the value
and the others go, or the pair is added at the end. -/
def set (name value : Text) : List (Text × Text) → List (Text × Text)
  | [] => [(name, value)]
  | p :: ps =>
    if p.1 = name then (name, value) :: ps.filter (fun q => q.1 ≠ name)
    else p :: set name value ps

/-! ## The composable -/

namespace State

variable (s : State)

/-- `cursor`. -/
def cursor : Option Text := s.queryCursor.filter fun q => 0 < q.length

/-- An entry of the filters, kept when its value is a non-empty string. -/
def present : Text × Option Text → Option (Text × Text)
  | (k, some v) => if 0 < v.length then some (k, v) else none
  | (_, none) => none

/-- The comparison of the sort: strings are ordered by their code units. -/
def keyLe (a b : Text × Text) : Bool := decide (Urlencoded.utf16 a.1 ≤ Urlencoded.utf16 b.1)

/-- `filterEntries`. -/
def filterEntries : List (Text × Text) := (s.filters.entries.filterMap present).mergeSort keyLe

/-- A filter in the signature. -/
def signed (kv : Text × Text) : Text := kv.1 ++ '=' :: kv.2

/-- `filterSignature`. -/
def filterSignature : Text := ['&'].intercalate (s.filterEntries.map signed)

/-- The word for no network. -/
def unknown : Text := "unknown".toList

/-- The word for no cursor. -/
def head : Text := "head".toList

/-- The network in the key. -/
def networkText : Text := s.activeId.getD unknown

/-- The cursor in the key. -/
def cursorText : Text := s.cursor.getD head

/-- What the fetch watches. -/
def watched : Option Text × Option Text × Text := (s.activeId, s.cursor, s.filterSignature)

end State

open State

/-- **The key** of `useAsyncData`. -/
def key (o : Options) (s : State) : Text :=
  o.keyPrefix ++ ':' :: (s.networkText ++ ':' :: (s.cursorText ++ ':' :: s.filterSignature))

/-- The name of the page size in a request. -/
def countName : Text := "count".toList

/-- The name of the cursor in a request. -/
def cursorName : Text := "cursor".toList

/-- The parameters before the filters. -/
def pageParams (o : Options) (s : State) : List (Text × Text) :=
  let qs := [(countName, Decimal.showDec o.pageSize)]
  match s.cursor with
  | some c => set cursorName c qs
  | none => qs

/-- **The parameters of the request**: a filter takes the place of a
parameter of its name. -/
def params (o : Options) (s : State) : List (Text × Text) :=
  s.filterEntries.foldl (fun qs kv => set kv.1 kv.2 qs) (pageParams o s)

/-- **The URL that is fetched**: none without an active network. -/
def url (o : Options) (s : State) : Option Text :=
  s.activeId.map fun net =>
    "/networks/".toList ++ net ++ o.path ++ '?' :: Urlencoded.serialize (params o s)

/-! ## The key as an identity -/

/-- The map filters by this name, with this value. -/
def FilterMap.Has (m : FilterMap) (k v : Text) : Prop := (k, some v) ∈ m.entries ∧ v ≠ []

/-- The maps filter alike: they differ at most in the order of their keys
and in empty entries. -/
def FilterMap.Alike (m m' : FilterMap) : Prop := ∀ k v, m.Has k v ↔ m'.Has k v

/-- **The key identifies the request**: the states of the same key, and
those with nothing to refetch for, fetch the same URL, and filters alike
make the same key. -/
structure Identified (o : Options) (s : State) : Prop where
  request (s' : State) : key o s' = key o s → url o s' = url o s
  refetch (s' : State) : s'.watched = s.watched → url o s' = url o s
  normal (m : FilterMap) : m.Alike s.filters → key o { s with filters := m } = key o s

/-! ## The states it identifies -/

/-- **A filter that can be read in one way** after the cursor. -/
structure PlainFilter (cursor k v : Text) : Prop where
  name : ':' ∉ k ∧ '=' ∉ k
  value : '=' ∉ v.dropLast ∧ ∀ x, v ≠ x ++ [':']
  after : ∀ c, cursor = c ++ [':'] → c = []

/-- **A state whose key has one reading.** -/
structure Unambiguous (s : State) : Prop where
  network : ∃ net, s.activeId = some net ∧ net ≠ unknown ∧ ':' ∉ net
  cursor : ':' ∉ s.cursorText.dropLast
  head : s.cursorText = State.head → ∃ v, s.filters.Has cursorName v
  single (k v k' v' : Text) : s.filters.Has k v → s.filters.Has k' v' → k' = k
  filter (k v : Text) : s.filters.Has k v → PlainFilter s.cursorText k v

end PaginatedList

end AllfeatExplorer
