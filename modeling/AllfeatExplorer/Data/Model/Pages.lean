import AllfeatExplorer.Data.Model.Domain

/-!
# Pages and their cursors

The envelope of the list endpoints and the cursors in it, which are plain
texts: what a list writes into one page as `next_cursor` comes back in the
request of the next, and is parsed there. A text that does not parse is a
bad request, never the first page.
-/

namespace AllfeatExplorer

/-- `domain::PageInfo`. -/
structure PageInfo where
  total : Option ℕ
  nextCursor : Option String
  hasMore : Bool
deriving DecidableEq

/-- `domain::Page`. -/
structure Page (α : Type*) where
  items : List α
  pageInfo : PageInfo
deriving DecidableEq

/-- `Page::empty`. -/
def Page.empty {α : Type*} : Page α := ⟨[], ⟨none, none, false⟩⟩

/-- `domain::PageRequest`. -/
structure PageRequest where
  count : ℕ
  cursor : Option String
deriving DecidableEq

/-- `CursorParseError`. -/
structure CursorParseError where
  input : String
  expected : String
deriving DecidableEq

/-- `DataError::BadRequest`: a cursor that does not parse, or a filter that
is no address, with what its text is put together from. -/
inductive BadRequest where
  | cursor (e : CursorParseError)
  | ss58 (field value : String)
deriving DecidableEq

/-! ## The cursors -/

/-- **A cursor type**: `Display` and `FromStr`. -/
structure CursorText (κ : Type*) where
  toText : κ → String
  fromStr : String → Except CursorParseError κ

/-- `parse_cursor`. -/
def parseCursor {κ : Type*} (text : CursorText κ) (req : PageRequest) :
    Except BadRequest (Option κ) :=
  match req.cursor with
  | none => .ok none
  | some raw =>
    match text.fromStr raw with
    | .ok c => .ok (some c)
    | .error e => .error (.cursor e)

/-- `BlockCursor`: `<block>`. -/
def blockCursor : CursorText ℕ where
  toText block := String.ofList (Decimal.showDec block)
  fromStr s :=
    match Decimal.readDec u64Max s.toList with
    | some block => .ok block
    | none => .error ⟨s, "<block_num> (u64)"⟩

/-- `ExtrinsicCursor`: `<block>-<idx>`. -/
def extrinsicCursor : CursorText (ℕ × ℕ) where
  toText c := extrinsicId c.1 c.2
  fromStr s :=
    match Decimal.splitOnce '-' s.toList with
    | none => .error ⟨s, "<block>-<idx>"⟩
    | some (b, i) =>
      match Decimal.readDec u64Max b, Decimal.readDec u32Max i with
      | none, _ => .error ⟨s, "<block>-<idx> (block must be u64)"⟩
      | some _, none => .error ⟨s, "<block>-<idx> (idx must be u32)"⟩
      | some block, some index => .ok (block, index)

/-- `TransferCursor`: `<block>-<event_idx>`. -/
def transferCursor : CursorText (ℕ × ℕ) where
  toText c := extrinsicId c.1 c.2
  fromStr s :=
    match Decimal.splitOnce '-' s.toList with
    | none => .error ⟨s, "<block>-<event_idx>"⟩
    | some (b, i) =>
      match Decimal.readDec u64Max b, Decimal.readDec u32Max i with
      | none, _ => .error ⟨s, "<block>-<event_idx> (block must be u64)"⟩
      | some _, none => .error ⟨s, "<block>-<event_idx> (event_idx must be u32)"⟩
      | some block, some eventIdx => .ok (block, eventIdx)

/-- `AtsCursor`: `<id>`. -/
def atsCursor : CursorText ℕ where
  toText id := String.ofList (Decimal.showDec id)
  fromStr s :=
    match Decimal.readDec u32Max s.toList with
    | some id => .ok id
    | none => .error ⟨s, "<id> (u32)"⟩

/-- `AtsFeedCursor`: `<block_num>-<ats_id>-<version>`. -/
def atsFeedCursor : CursorText (ℕ × ℕ × ℕ) where
  toText c :=
    String.ofList (Decimal.showDec c.1 ++ '-' :: Decimal.showDec c.2.1 ++ '-' ::
      Decimal.showDec c.2.2)
  fromStr s :=
    match Decimal.splitOnce '-' s.toList with
    | none => .error ⟨s, "<block_num>-<ats_id>-<version>"⟩
    | some (b, rest) =>
      match Decimal.splitOnce '-' rest with
      | none => .error ⟨s, "<block_num>-<ats_id>-<version>"⟩
      | some (a, v) =>
        match Decimal.readDec u64Max b, Decimal.readDec u32Max a, Decimal.readDec u32Max v with
        | none, _, _ => .error ⟨s, "<block_num>-<ats_id>-<version> (block_num must be u64)"⟩
        | some _, none, _ => .error ⟨s, "<block_num>-<ats_id>-<version> (ats_id must be u32)"⟩
        | some _, some _, none =>
          .error ⟨s, "<block_num>-<ats_id>-<version> (version must be u32)"⟩
        | some blockNum, some atsId, some version => .ok (blockNum, atsId, version)

/-! ## What is written reads back -/

/-- **A cursor type reads what it writes**, on the cursors that fit. -/
def CursorText.RoundTrips {κ : Type*} (text : CursorText κ) (fits : κ → Prop) : Prop :=
  ∀ c, fits c → text.fromStr (text.toText c) = .ok c

theorem blockCursor_roundTrips : blockCursor.RoundTrips fun b => b ≤ u64Max := by
  intro b hb
  simp only [blockCursor, String.toList_ofList, Decimal.readDec_showDec hb]

theorem atsCursor_roundTrips : atsCursor.RoundTrips fun id => id ≤ u32Max := by
  intro id hid
  simp only [atsCursor, String.toList_ofList, Decimal.readDec_showDec hid]

theorem extrinsicCursor_roundTrips :
    extrinsicCursor.RoundTrips fun c => c.1 ≤ u64Max ∧ c.2 ≤ u32Max := by
  rintro ⟨b, i⟩ ⟨hb, hi⟩
  simp only [extrinsicCursor, splitOnce_extrinsicId, Decimal.readDec_showDec hb,
    Decimal.readDec_showDec hi]

theorem transferCursor_roundTrips :
    transferCursor.RoundTrips fun c => c.1 ≤ u64Max ∧ c.2 ≤ u32Max := by
  rintro ⟨b, i⟩ ⟨hb, hi⟩
  simp only [transferCursor, splitOnce_extrinsicId, Decimal.readDec_showDec hb,
    Decimal.readDec_showDec hi]

theorem atsFeedCursor_roundTrips :
    atsFeedCursor.RoundTrips fun c => c.1 ≤ u64Max ∧ c.2.1 ≤ u32Max ∧ c.2.2 ≤ u32Max := by
  rintro ⟨b, a, v⟩ ⟨hb, ha, hv⟩
  have hdash : ('-' : Char).isDigit = false := by decide
  have houter : Decimal.splitOnce '-' (Decimal.showDec b ++ '-' :: Decimal.showDec a ++ '-' ::
      Decimal.showDec v) = some (Decimal.showDec b, Decimal.showDec a ++ '-' ::
      Decimal.showDec v) := by
    rw [List.append_assoc, List.cons_append]
    exact Decimal.splitOnce_append (Decimal.not_mem_showDec hdash)
  have hinner : Decimal.splitOnce '-' (Decimal.showDec a ++ '-' :: Decimal.showDec v) =
      some (Decimal.showDec a, Decimal.showDec v) :=
    Decimal.splitOnce_append (Decimal.not_mem_showDec hdash)
  simp only [atsFeedCursor, String.toList_ofList, houter, hinner, Decimal.readDec_showDec hb,
    Decimal.readDec_showDec ha, Decimal.readDec_showDec hv]

example : atsFeedCursor.fromStr "100-42-3" = .ok (100, 42, 3) := by decide

/-- A step that succeeds hands its value on. -/
theorem ok_bind {ε α β : Type} (a : α) (f : α → Except ε β) : (Except.ok a >>= f) = f a := rfl

/-- **The next request reads the cursor of the page before.** -/
theorem parseCursor_toText {κ : Type*} {text : CursorText κ} {fits : κ → Prop}
    (h : text.RoundTrips fits) {count : ℕ} {c : Option κ} (hc : ∀ k ∈ c, fits k) :
    parseCursor text ⟨count, c.map text.toText⟩ = .ok c := by
  rcases c with - | k
  · rfl
  · simp only [parseCursor, Option.map_some, h k (hc k rfl)]

/-! ## Walking a list -/

/-- A list endpoint read at a count, as a walk reads it: a page and its
next cursor. -/
def pageRead {σ α ε : Type*} (list : σ → PageRequest → Except ε (Page α)) (count : ℕ) :
    σ → Option String → Option (Page α × Option String) :=
  fun s cursor => ((list s ⟨count, cursor⟩).toOption).map fun p => (p, p.pageInfo.nextCursor)

theorem pageRead_eq_some {σ α ε : Type*} {list : σ → PageRequest → Except ε (Page α)} {count : ℕ}
    {s : σ} {cursor : Option String} {p : Page α} {next : Option String} :
    pageRead list count s cursor = some (p, next) ↔
      list s ⟨count, cursor⟩ = .ok p ∧ next = p.pageInfo.nextCursor := by
  unfold pageRead
  cases hlist : list s ⟨count, cursor⟩ with
  | error e => simp [Except.toOption]
  | ok page =>
    simp only [Except.toOption, Option.map_some, Option.some.injEq, Prod.mk.injEq, Except.ok.injEq]
    constructor
    · rintro ⟨rfl, rfl⟩
      exact ⟨rfl, rfl⟩
    · rintro ⟨rfl, rfl⟩
      exact ⟨rfl, rfl⟩

end AllfeatExplorer
