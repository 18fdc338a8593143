import Mathlib.Data.List.Pairwise
import AllfeatExplorer.Lib.LastWrite
import AllfeatExplorer.Web.Model.PaginatedList

/-!
# What the key of a list page identifies

The key joins the network, the cursor and the filters with separators any
of them may hold, so it has other readings, and another reading is another
request. `identified_iff` is exact: the key identifies the request of a
state when no part of it can be split elsewhere. A page without a cursor
shares its key with the page whose cursor is the word that stands for
none, so the head of a list is never identified.
-/

namespace AllfeatExplorer

namespace PaginatedList

open State Urlencoded

variable {o : Options} {s s' : State} {m m' : FilterMap} {k v net : Text} {kv kv' : Text × Text}

/-! ## The filters -/

/-- What is kept of an entry. -/
theorem present_eq_some {e : Text × Option Text} :
    present e = some kv ↔ e = (kv.1, some kv.2) ∧ kv.2 ≠ [] := by
  obtain ⟨k, w⟩ := e
  cases w with
  | none => simp [present]
  | some v =>
    obtain ⟨k', v'⟩ := kv
    unfold present
    rw [Option.ite_none_right_eq_some, List.length_pos_iff]
    constructor
    · rintro ⟨hne, heq⟩
      cases heq
      exact ⟨rfl, hne⟩
    · rintro ⟨heq, hne⟩
      cases heq
      exact ⟨hne, rfl⟩

/-- The entries are the filters the map has. -/
theorem mem_filterEntries : kv ∈ s.filterEntries ↔ s.filters.Has kv.1 kv.2 := by
  rw [filterEntries, List.mem_mergeSort, List.mem_filterMap]
  constructor
  · rintro ⟨e, he, hpresent⟩
    obtain ⟨rfl, hne⟩ := present_eq_some.1 hpresent
    exact ⟨he, hne⟩
  · rintro ⟨hmem, hne⟩
    exact ⟨_, hmem, present_eq_some.2 ⟨rfl, hne⟩⟩

/-- No two entries have one name. -/
theorem pairwise_filterEntries : s.filterEntries.Pairwise fun a b => a.1 ≠ b.1 := by
  have hkept : (s.filters.entries.filterMap present).Pairwise fun a b => a.1 ≠ b.1 := by
    refine List.pairwise_filterMap.2 (s.filters.nodup.imp ?_)
    intro a b hne x hx y hy
    rw [(present_eq_some.1 hx).1, (present_eq_some.1 hy).1] at hne
    exact hne
  exact hkept.perm (List.mergeSort_perm _ _).symm fun h => h.symm

/-- A name has one value. -/
theorem FilterMap.Has.unique {v' : Text} (h : m.Has k v) (h' : m.Has k v') : v' = v := by
  by_contra hne
  have hpair : ((k, some v) : Text × Option Text) ≠ (k, some v') := by
    intro heq
    exact hne (Option.some.inj (congrArg Prod.snd heq)).symm
  have hsymm : Std.Symm fun a b : Text × Option Text => a.1 ≠ b.1 := ⟨fun _ _ h => Ne.symm h⟩
  exact m.nodup.forall h.1 h'.1 hpair rfl

/-- The entries are sorted. -/
theorem sorted_filterEntries : s.filterEntries.Pairwise fun a b => keyLe a b = true := by
  refine List.pairwise_mergeSort ?_ ?_ _
  · intro a b c hab hbc
    exact decide_eq_true (le_trans (of_decide_eq_true hab) (of_decide_eq_true hbc))
  · intro a b
    rw [Bool.or_eq_true]
    exact (le_total (utf16 a.1) (utf16 b.1)).imp decide_eq_true decide_eq_true

/-- **Maps that filter alike have the same entries in the same order.** -/
theorem filterEntries_alike (h : s'.filters.Alike s.filters) :
    s'.filterEntries = s.filterEntries := by
  have hmem (kv : Text × Text) : kv ∈ s'.filterEntries ↔ kv ∈ s.filterEntries := by
    rw [mem_filterEntries, mem_filterEntries]
    exact h kv.1 kv.2
  have hperm : s'.filterEntries.Perm s.filterEntries := by
    refine (List.perm_ext_iff_of_nodup ?_ ?_).2 hmem
    · exact pairwise_filterEntries.imp fun hne heq => hne (congrArg Prod.fst heq)
    · exact pairwise_filterEntries.imp fun hne heq => hne (congrArg Prod.fst heq)
  refine hperm.eq_of_pairwise ?_ sorted_filterEntries sorted_filterEntries
  intro a b ha hb hab hba
  -- Names of the same code units are the same, and a name has one value.
  have hunits := le_antisymm (of_decide_eq_true hab) (of_decide_eq_true hba)
  have hname : a.1 = b.1 := utf16_inj hunits
  have ha' := mem_filterEntries.1 ((hmem a).1 ha)
  have hb' := mem_filterEntries.1 hb
  rw [hname] at ha'
  exact Prod.ext hname (hb'.unique ha')

/-- A map without filters. -/
def FilterMap.empty : FilterMap := ⟨[], List.Pairwise.nil⟩

/-- A map with one filter. -/
def FilterMap.single (k v : Text) : FilterMap := ⟨[(k, some v)], List.pairwise_singleton _ _⟩

theorem filterEntries_empty (h : s.filters = FilterMap.empty) : s.filterEntries = [] := by
  rw [filterEntries, h]
  simp [FilterMap.empty]

theorem filterEntries_single (h : s.filters = FilterMap.single k v) (hv : v ≠ []) :
    s.filterEntries = [(k, v)] := by
  have hlen : 0 < v.length := List.length_pos_iff.2 hv
  rw [filterEntries, h]
  simp [FilterMap.single, present, hlen]

/-! ## The signature -/

/-- The signature of entries. -/
def signature (es : List (Text × Text)) : Text := ['&'].intercalate (es.map signed)

theorem filterSignature_eq : s.filterSignature = signature s.filterEntries := rfl

@[simp] theorem signature_nil : signature [] = [] := by simp [signature]

@[simp] theorem signature_singleton : signature [(k, v)] = k ++ '=' :: v := by
  simp [signature, signed]

/-- A signature begins with its first filter. -/
theorem signature_cons (kv : Text × Text) (es : List (Text × Text)) :
    ∃ more, signature (kv :: es) = kv.1 ++ '=' :: (kv.2 ++ more) ∧
      (es ≠ [] → more = '&' :: signature es) ∧ (es = [] → more = []) := by
  by_cases hes : es = []
  · subst hes
    exact ⟨[], by simp [signature, signed], fun hne => absurd rfl hne, fun _ => rfl⟩
  · refine ⟨'&' :: signature es, ?_, fun _ => rfl, fun heq => absurd heq hes⟩
    rw [signature, List.map_cons, intercalate_cons (by simpa using hes), signed, signature]
    simp

/-- **A signature is empty, or has an equals sign with something after
it.** -/
theorem signature_splits {es : List (Text × Text)} (hes : ∀ kv ∈ es, kv.2 ≠ []) :
    es = [] ∧ signature es = [] ∨ ∃ x y, signature es = x ++ '=' :: y ∧ y ≠ [] := by
  cases es with
  | nil => exact Or.inl ⟨rfl, signature_nil⟩
  | cons kv es =>
    obtain ⟨more, heq, -⟩ := signature_cons kv es
    refine Or.inr ⟨kv.1, kv.2 ++ more, heq, ?_⟩
    exact List.append_ne_nil_of_left_ne_nil (hes kv List.mem_cons_self) more

/-- No value of the entries is empty. -/
theorem value_ne_nil (h : kv ∈ s.filterEntries) : kv.2 ≠ [] := (mem_filterEntries.1 h).2

/-- The signature of a state: empty, or with an equals sign inside. -/
theorem filterSignature_splits (s : State) : s.filterEntries = [] ∧ s.filterSignature = [] ∨
    ∃ x y, s.filterSignature = x ++ '=' :: y ∧ y ≠ [] :=
  signature_splits fun _ => value_ne_nil

/-- **The signature of one plain filter has one reading.** -/
theorem signature_inj {es : List (Text × Text)} (hes : ∀ kv ∈ es, kv.2 ≠ [])
    (hname : '=' ∉ k) (hvalue : '=' ∉ v.dropLast) (h : signature es = k ++ '=' :: v) :
    es = [(k, v)] := by
  rw [notMem_dropLast_iff] at hvalue
  cases es with
  | nil =>
    rw [signature_nil] at h
    simp at h
  | cons kv es =>
    obtain ⟨more, heq, hmore, hnil⟩ := signature_cons kv es
    rw [heq] at h
    rcases split_first hname h.symm with ⟨hk, hv⟩ | ⟨x, -, hv⟩
    · by_cases hne : es = []
      · rw [hnil hne, List.append_nil] at hv
        rw [hne]
        exact congrArg (· :: []) (Prod.ext hk hv)
      · -- The equals sign of the next filter would stand in the value.
        rcases signature_splits fun kv h => hes kv (List.mem_cons_of_mem _ h) with
          ⟨hempty, -⟩ | ⟨x, y, hxy, hy⟩
        · exact absurd hempty hne
        · rw [hmore hne, hxy] at hv
          exact absurd (hvalue (kv.2 ++ '&' :: x) y (by rw [← hv]; simp)) hy
    · have hrest := hvalue x _ hv
      exact absurd (List.append_eq_nil_iff.1 hrest).1 (hes kv List.mem_cons_self)

/-! ## The request -/

/-- What a list of parameters finds by a name. -/
def find (qs : List (Text × Text)) (name : Text) : Option Text := qs.lookup name

theorem find_cons {qs : List (Text × Text)} {name : Text} :
    find (kv :: qs) name = if name = kv.1 then some kv.2 else find qs name := by
  by_cases hname : name = kv.1
  · rw [if_pos hname, find, hname, List.lookup_cons_self]
  · rw [if_neg hname, find, List.lookup_cons, beq_eq_false_iff_ne.2 hname]
    rfl

/-- Without the pairs of a name, the others are found as before. -/
theorem find_filter_ne {qs : List (Text × Text)} {name other : Text} (hne : other ≠ name) :
    find (qs.filter fun q => q.1 ≠ name) other = find qs other := by
  induction qs with
  | nil => rfl
  | cons q qs ih =>
    by_cases hq : q.1 = name
    · rw [List.filter_cons_of_neg (by simpa using hq), ih, find_cons, if_neg (hq ▸ hne)]
    · rw [List.filter_cons_of_pos (by simpa using hq), find_cons, find_cons, ih]

/-- **`set` is the write of a parameter.** -/
theorem find_set (qs : List (Text × Text)) (name value : Text) :
    find (set name value qs) = Function.update (find qs) name (some value) := by
  funext other
  induction qs with
  | nil =>
    rw [set, find_cons, Function.update_apply]
  | cons q qs ih =>
    unfold set
    split_ifs with hq
    · rw [find_cons, Function.update_apply]
      split_ifs with hother
      · rfl
      · rw [find_filter_ne hother, find_cons, if_neg (hq ▸ hother)]
    · rw [find_cons, ih, Function.update_apply, Function.update_apply, find_cons]
      split_ifs with h1 h2
      · exact absurd (h1.symm.trans h2) hq
      · rfl
      · rfl
      · rfl

/-- A parameter stays when another is set, so no list becomes empty. -/
theorem set_ne_nil {qs : List (Text × Text)} {name value : Text} : set name value qs ≠ [] := by
  cases qs with
  | nil => exact List.cons_ne_nil _ _
  | cons q qs =>
    unfold set
    split_ifs <;> exact List.cons_ne_nil _ _

theorem foldl_set_ne_nil {qs es : List (Text × Text)} (h : qs ≠ []) :
    es.foldl (fun qs kv => set kv.1 kv.2 qs) qs ≠ [] := by
  induction es generalizing qs with
  | nil => exact h
  | cons kv es ih => exact ih set_ne_nil

theorem params_ne_nil : params o s ≠ [] := by
  refine foldl_set_ne_nil ?_
  unfold pageParams
  split
  · exact set_ne_nil
  · exact List.cons_ne_nil _ _

/-- **The filters write over the page's parameters.** -/
theorem find_params : find (params o s) = writeAll (find (pageParams o s)) s.filterEntries := by
  unfold params
  generalize pageParams o s = qs
  induction s.filterEntries generalizing qs with
  | nil => rfl
  | cons kv es ih => rw [List.foldl_cons, ih, find_set, writeAll_cons]

/-- What the page's parameters find: the cursor, and the page size. -/
theorem find_pageParams :
    find (pageParams o s) = fun name =>
      if name = cursorName then s.cursor
      else if name = countName then some (Decimal.showDec o.pageSize) else none := by
  have hcount (name : Text) : find [(countName, Decimal.showDec o.pageSize)] name =
      if name = countName then some (Decimal.showDec o.pageSize) else none := find_cons
  funext name
  unfold pageParams
  cases hcursor : s.cursor with
  | none =>
    rw [hcount]
    split_ifs with hc hn
    · rw [hc] at hn
      exact absurd hn (by decide)
    · rfl
    · rfl
    · rfl
  | some c => rw [find_set, Function.update_apply, hcount]

/-- **The URL tells the network and every parameter.** -/
theorem url_inj {net' : Text} (hnet : s.activeId = some net) (hnet' : s'.activeId = some net')
    (h : url o s' = url o s) : net' = net ∧ params o s' = params o s := by
  rw [url, url, hnet, hnet', Option.map_some, Option.map_some, Option.some.injEq] at h
  obtain ⟨hpath, hquery⟩ := split_last notMem_serialize notMem_serialize h
  constructor
  · exact (List.append_cancel_left (List.append_cancel_right hpath)).symm
  · exact serialize_inj params_ne_nil params_ne_nil hquery.symm

/-! ## Reading the key -/

theorem key_eq_iff : key o s' = key o s ↔
    s'.networkText ++ ':' :: (s'.cursorText ++ ':' :: s'.filterSignature) =
      s.networkText ++ ':' :: (s.cursorText ++ ':' :: s.filterSignature) := by
  unfold key
  rw [List.append_cancel_left_eq, List.cons_inj_right]

/-- A cursor is not empty. -/
theorem cursor_ne_nil {c : Text} (h : s.cursor = some c) : c ≠ [] :=
  List.length_pos_iff.1 (of_decide_eq_true (Option.filter_eq_some_iff.1 h).2)

theorem cursorText_ne_nil : s.cursorText ≠ [] := by
  unfold cursorText
  cases hcursor : s.cursor with
  | none => exact List.cons_ne_nil _ _
  | some c => exact cursor_ne_nil hcursor

/-- The cursor in the key tells the cursor, but for the word for none. -/
theorem cursor_of_cursorText (h : s'.cursorText = s.cursorText) (hhead : s.cursorText ≠ head) :
    s'.cursor = s.cursor := by
  unfold cursorText at h hhead
  cases hs : s.cursor with
  | none =>
    rw [hs] at hhead
    exact absurd rfl hhead
  | some c =>
    rw [hs] at h hhead
    cases hs' : s'.cursor with
    | none =>
      rw [hs'] at h
      exact absurd h.symm hhead
    | some c' =>
      rw [hs'] at h
      exact congrArg some h

/-- **At most one filter, in one order.** -/
theorem filterEntries_of_single
    (h : ∀ k v k' v', s.filters.Has k v → s.filters.Has k' v' → k' = k) :
    s.filterEntries = [] ∨ ∃ k v, s.filterEntries = [(k, v)] ∧ s.filters.Has k v := by
  have hmem (kv : Text × Text) (hkv : kv ∈ s.filterEntries) : s.filters.Has kv.1 kv.2 :=
    mem_filterEntries.1 hkv
  have hpair := pairwise_filterEntries (s := s)
  rcases hes : s.filterEntries with _ | ⟨kv, _ | ⟨kv', es⟩⟩
  · exact Or.inl rfl
  · exact Or.inr ⟨kv.1, kv.2, rfl, hmem kv (by rw [hes]; exact List.mem_cons_self)⟩
  · rw [hes] at hpair hmem
    have hne := List.rel_of_pairwise_cons hpair (List.mem_cons_self (a := kv'))
    have hsame := h _ _ _ _ (hmem kv (by simp)) (hmem kv' (by simp))
    exact absurd hsame.symm hne

/-- **The signature of an unambiguous state has one reading.** -/
theorem Unambiguous.entries_eq (h : Unambiguous s)
    (hsig : s'.filterSignature = s.filterSignature) : s'.filterEntries = s.filterEntries := by
  rw [filterSignature_eq, filterSignature_eq] at hsig
  rcases filterEntries_of_single h.single with hes | ⟨k, v, hes, hhas⟩
  · rw [hes, signature_nil] at hsig
    rw [hes]
    rcases filterSignature_splits s' with ⟨hnil, -⟩ | ⟨x, y, hxy, -⟩
    · exact hnil
    · rw [filterSignature_eq, hsig] at hxy
      simp at hxy
  · have hplain := h.filter k v hhas
    rw [hes, signature_singleton] at hsig
    rw [hes]
    exact signature_inj (fun kv hkv => value_ne_nil hkv) hplain.name.2 hplain.value.1 hsig

/-- No signature is a colon, and none ends a plain filter after one. -/
theorem PlainFilter.not_suffix {C : Text} {x : Text} (h : PlainFilter C k v) (hv : v ≠ []) :
    v ≠ x ++ ':' :: s'.filterSignature := by
  rintro rfl
  rcases filterSignature_splits s' with ⟨-, hnil⟩ | ⟨y, z, hyz, hz⟩
  · rw [hnil] at h
    exact h.value.2 x rfl
  · have hlast := notMem_dropLast_iff.1 h.value.1
    rw [hyz] at hlast
    exact hz (hlast (x ++ ':' :: y) z (by simp))

/-- **After the network, the key of an unambiguous state splits in one
way.** -/
theorem Unambiguous.cursor_eq (h : Unambiguous s) {A : Text} (hA : A ≠ [])
    (heq : s.cursorText ++ ':' :: s.filterSignature = A ++ ':' :: s'.filterSignature) :
    A = s.cursorText ∧ s'.filterSignature = s.filterSignature := by
  rcases split_compare heq with hsame | ⟨x, -, hx⟩ | ⟨x, hC, hx⟩
  · exact hsame
  · -- The cursor would go on into the filters.
    rcases filterEntries_of_single h.single with hes | ⟨k, v, hes, hhas⟩
    · rw [filterSignature_eq (s := s), hes, signature_nil] at hx
      simp at hx
    · have hplain := h.filter k v hhas
      rw [filterSignature_eq (s := s), hes, signature_singleton] at hx
      rcases List.append_eq_append_iff.1 hx with ⟨y, -, hy⟩ | ⟨y, hk, hy⟩
      · rcases List.cons_eq_append_iff.1 hy with ⟨-, hcolon⟩ | ⟨y', -, hy'⟩
        · cases (List.cons.inj hcolon).1
        · exact absurd hy' (hplain.not_suffix hhas.2)
      · rcases List.cons_eq_append_iff.1 hy with ⟨-, hcolon⟩ | ⟨y', hy', -⟩
        · cases (List.cons.inj hcolon).1
        · exact absurd (by rw [hk, hy']; simp) hplain.name.1
  · -- The cursor would end earlier, at its last character.
    have hnil := notMem_dropLast_iff.1 h.cursor A x hC
    rw [hnil] at hC hx
    rcases filterEntries_of_single h.single with hes | ⟨k, v, hes, hhas⟩
    · rw [filterSignature_eq (s := s), hes, signature_nil, List.nil_append] at hx
      rcases filterSignature_splits s' with ⟨-, hempty⟩ | ⟨y, z, hyz, hz⟩
      · rw [hempty] at hx
        cases hx
      · rw [hyz] at hx
        rcases List.append_eq_singleton_iff.1 hx with ⟨-, hsign⟩ | ⟨-, hsign⟩
        · cases (List.cons.inj hsign).1
        · cases hsign
    · exact absurd ((h.filter k v hhas).after A hC) hA

/-- **The key of an unambiguous state tells its network, its cursor as it
stands in the key, and its filters.** -/
theorem Unambiguous.of_key (h : Unambiguous s) (hkey : key o s' = key o s) :
    s'.activeId = s.activeId ∧ s'.cursorText = s.cursorText ∧
      s'.filterEntries = s.filterEntries := by
  obtain ⟨net, hnet, hunknown, hcolon⟩ := h.network
  have htext : s.networkText = net := by rw [networkText, hnet]; rfl
  rw [key_eq_iff, htext] at hkey
  rcases split_first hcolon hkey.symm with ⟨hnet', hrest⟩ | ⟨x, -, hrest⟩
  · obtain ⟨hcursor, hsig⟩ := h.cursor_eq cursorText_ne_nil hrest.symm
    refine ⟨?_, hcursor, h.entries_eq hsig⟩
    unfold networkText at hnet'
    cases hid : s'.activeId with
    | none =>
      rw [hid] at hnet'
      exact absurd hnet'.symm hunknown
    | some net' =>
      rw [hid] at hnet'
      rw [hnet]
      exact congrArg some hnet'
  · -- A longer network would leave a shorter cursor.
    have hA : x ++ ':' :: s'.cursorText ≠ [] := by simp
    have hsplit : s.cursorText ++ ':' :: s.filterSignature =
        (x ++ ':' :: s'.cursorText) ++ ':' :: s'.filterSignature := by
      rw [hrest, List.append_assoc, List.cons_append]
    have hC := (h.cursor_eq hA hsplit).1.symm
    exact absurd (notMem_dropLast_iff.1 h.cursor x _ hC) cursorText_ne_nil

/-- Set over the page's parameters, the cursor is what is set. -/
theorem set_cursor_pageParams :
    set cursorName v (pageParams o s) =
      [(countName, Decimal.showDec o.pageSize), (cursorName, v)] := by
  have hne : countName ≠ cursorName := by decide
  have hadd (d w : Text) :
      set cursorName w [(countName, d)] = [(countName, d), (cursorName, w)] := by
    rw [set, if_neg hne, set]
  unfold pageParams
  cases s.cursor with
  | none => exact hadd _ v
  | some c =>
    dsimp only
    rw [hadd, set, if_neg hne, set, if_pos rfl, List.filter_nil]

/-- The parameters depend on the cursor and the entries, and a filter that
names the cursor hides it. -/
theorem params_congr (hes : s'.filterEntries = s.filterEntries)
    (h : s'.cursor = s.cursor ∨ ∃ v, s.filterEntries = [(cursorName, v)]) :
    params o s' = params o s := by
  rcases h with hcursor | ⟨v, hv⟩
  · unfold params pageParams
    rw [hes, hcursor]
  · unfold params
    rw [hes, hv, List.foldl_cons, List.foldl_cons, List.foldl_nil, List.foldl_nil,
      set_cursor_pageParams, set_cursor_pageParams]

/-- **The key of an unambiguous state identifies its request.** -/
theorem Unambiguous.request (h : Unambiguous s) (hkey : key o s' = key o s) :
    url o s' = url o s := by
  obtain ⟨hnet, htext, hes⟩ := h.of_key hkey
  have hparams : params o s' = params o s := by
    refine params_congr hes ?_
    by_cases hhead : s.cursorText = State.head
    · obtain ⟨v, hv⟩ := h.head hhead
      rcases filterEntries_of_single h.single with hnil | ⟨k, w, hkw, hhas⟩
      · have hmem : (cursorName, v) ∈ s.filterEntries := mem_filterEntries.2 hv
        rw [hnil] at hmem
        cases hmem
      · rw [h.single _ _ _ _ hv hhas] at hkw
        exact Or.inr ⟨w, hkw⟩
    · exact Or.inl (cursor_of_cursorText htext hhead)
  unfold url
  rw [hnet, hparams]

/-- **What the fetch watches is in the key.** -/
theorem key_of_watched (h : s'.watched = s.watched) : key o s' = key o s := by
  unfold watched at h
  obtain ⟨hnet, hrest⟩ := Prod.mk.inj h
  obtain ⟨hcursor, hsig⟩ := Prod.mk.inj hrest
  unfold key networkText cursorText
  rw [hnet, hcursor, hsig]

/-- **Filters alike make the same key.** -/
theorem key_alike (h : m.Alike s.filters) : key o { s with filters := m } = key o s := by
  have hes : ({ s with filters := m } : State).filterEntries = s.filterEntries :=
    filterEntries_alike h
  unfold key filterSignature
  rw [hes]
  rfl

/-! ## What a request finds -/

/-- **A filter of the request is found by its name.** -/
theorem find_params_of_has (h : s.filters.Has k v) : find (params o s) k = some v := by
  have hmem : (k, v) ∈ s.filterEntries := mem_filterEntries.2 h
  have hpair := pairwise_filterEntries (s := s)
  obtain ⟨pre, post, heq⟩ := List.append_of_mem hmem
  rw [heq, List.pairwise_append] at hpair
  have hwrite : ofWrites s.filterEntries k = some v := by
    refine ofWrites_eq_some_iff.2 ⟨pre, post, heq, fun kv hkv => ?_⟩
    exact Ne.symm (List.rel_of_pairwise_cons hpair.2.1 hkv)
  rw [find_params, writeAll_eq_or, hwrite, Option.some_or]

/-- Where no filter has the name, the page's parameters are found. -/
theorem find_params_of_not (h : ∀ v, ¬s.filters.Has k v) :
    find (params o s) k =
      if k = cursorName then s.cursor
      else if k = countName then some (Decimal.showDec o.pageSize) else none := by
  have hnone : ofWrites s.filterEntries k = none := by
    rw [← Option.not_isSome_iff_eq_none, ofWrites_isSome_iff]
    rintro ⟨kv, hkv, rfl⟩
    exact h kv.2 (mem_filterEntries.1 hkv)
  rw [find_params, writeAll_eq_or, hnone, Option.none_or, find_pageParams]

/-- A name with a separator is neither parameter of the page. -/
theorem find_params_of_separator {sep : Char} (hsep : sep = ':' ∨ sep = '=') (hk : sep ∈ k)
    (h : ∀ v, ¬s.filters.Has k v) : find (params o s) k = none := by
  have hcursor : k ≠ cursorName := by
    rintro rfl
    rcases hsep with rfl | rfl <;> exact absurd hk (by decide)
  have hcount : k ≠ countName := by
    rintro rfl
    rcases hsep with rfl | rfl <;> exact absurd hk (by decide)
  rw [find_params_of_not h, if_neg hcursor, if_neg hcount]

theorem FilterMap.has_single {k' v' : Text} :
    (FilterMap.single k v).Has k' v' ↔ k' = k ∧ v' = v ∧ v ≠ [] := by
  unfold FilterMap.Has FilterMap.single
  constructor
  · rintro ⟨hmem, hne⟩
    cases List.mem_singleton.1 hmem
    exact ⟨rfl, rfl, hne⟩
  · rintro ⟨rfl, rfl, hne⟩
    exact ⟨List.mem_singleton_self _, hne⟩

theorem FilterMap.not_has_empty : ¬FilterMap.empty.Has k v := fun h => by cases h.1

/-! ## Other readings of a key -/

/-- The state with another cursor and other filters. -/
def State.reread (s : State) (c : Text) (m : FilterMap) : State :=
  { s with queryCursor := some c, filters := m }

theorem cursor_of_query {c : Text} (h : s.queryCursor = some c) (hc : c ≠ []) :
    s.cursor = some c := by
  unfold cursor
  rw [h, Option.filter_some, if_pos (decide_eq_true (List.length_pos_iff.2 hc))]

theorem cursorText_of_query {c : Text} (h : s.queryCursor = some c) (hc : c ≠ []) :
    s.cursorText = c := by
  unfold cursorText
  rw [cursor_of_query h hc]
  rfl

/-- In the same network, the rest of the key decides. -/
theorem key_eq_of_rest (hnet : s'.activeId = s.activeId)
    (h : s'.cursorText ++ ':' :: s'.filterSignature = s.cursorText ++ ':' :: s.filterSignature) :
    key o s' = key o s := by
  rw [key_eq_iff, h]
  unfold networkText
  rw [hnet]

/-- **States of one key are one request, whatever is asked of it.** -/
theorem Identified.find_eq (h : Identified o s) (hnet : s.activeId = some net)
    (hkey : key o s' = key o s) (hnet' : s'.activeId = s.activeId) (name : Text) :
    find (params o s') name = find (params o s) name := by
  rw [(url_inj hnet (hnet'.trans hnet) (h.request s' hkey)).2]

/-- The networks that the key writes alike are all or none active. -/
theorem Identified.activeId_isSome (h : Identified o s) {a : Option Text}
    (ha : a.getD unknown = s.networkText) : a.isSome = s.activeId.isSome := by
  have hkey : key o { s with activeId := a } = key o s := by
    rw [key_eq_iff, ← ha]
    rfl
  have hurl := congrArg Option.isSome (h.request _ hkey)
  unfold url at hurl
  rwa [Option.isSome_map, Option.isSome_map] at hurl

/-- The word for no network is the name of one. -/
theorem Identified.exists_network (h : Identified o s) :
    ∃ net, s.activeId = some net ∧ net ≠ unknown := by
  cases hnet : s.activeId with
  | none =>
    have hsome := h.activeId_isSome (a := some unknown) (by rw [networkText, hnet]; rfl)
    rw [hnet] at hsome
    cases hsome
  | some net =>
    refine ⟨net, rfl, ?_⟩
    rintro rfl
    have hsome := h.activeId_isSome (a := none) (by rw [networkText, hnet]; rfl)
    rw [hnet] at hsome
    cases hsome

/-- **What follows a colon of the network reads as the cursor.** -/
theorem Identified.colon_notMem_network (h : Identified o s) (hnet : s.activeId = some net) :
    ':' ∉ net := by
  intro hmem
  obtain ⟨a, b, rfl⟩ := List.append_of_mem hmem
  let other : State := ⟨some a, some (b ++ ':' :: s.cursorText), s.filters⟩
  have hcursor : other.cursorText = b ++ ':' :: s.cursorText :=
    cursorText_of_query rfl (by simp)
  have hkey : key o other = key o s := by
    rw [key_eq_iff, hcursor]
    unfold networkText
    rw [hnet]
    simp [other, filterSignature, filterEntries]
  have hsame := (url_inj hnet rfl (h.request other hkey)).1
  simp at hsame

/-- **What precedes a colon of the cursor reads as the network.** -/
theorem Identified.colon_notMem_cursor (h : Identified o s) (hnet : s.activeId = some net) :
    ':' ∉ s.cursorText.dropLast := by
  rw [notMem_dropLast_iff]
  intro x y hC
  by_contra hy
  let other : State := ⟨some (net ++ ':' :: x), some y, s.filters⟩
  have hcursor : other.cursorText = y := cursorText_of_query rfl hy
  have hkey : key o other = key o s := by
    rw [key_eq_iff, hcursor, hC]
    unfold networkText
    rw [hnet]
    simp [other, filterSignature, filterEntries]
  have hsame := (url_inj hnet rfl (h.request other hkey)).1
  simp at hsame

/-- **The word for no cursor is a cursor.** -/
theorem Identified.head_hidden (h : Identified o s) (hnet : s.activeId = some net)
    (hhead : s.cursorText = State.head) : ∃ v, s.filters.Has cursorName v := by
  by_contra hnone
  have hnot (q : Option Text) (v : Text) :
      ¬({ s with queryCursor := q } : State).filters.Has cursorName v := fun hv => hnone ⟨v, hv⟩
  have hkey (q : Option Text) (hq : ({ s with queryCursor := q } : State).cursorText = head) :
      key o { s with queryCursor := q } = key o s := by
    refine key_eq_of_rest rfl ?_
    rw [hq, hhead]
    rfl
  have hwithout := h.find_eq hnet (hkey none rfl) rfl cursorName
  have hwith := h.find_eq hnet (hkey (some head) rfl) rfl cursorName
  rw [← hwith, find_params_of_not (hnot none), find_params_of_not (hnot (some head)), if_pos rfl,
    if_pos rfl] at hwithout
  cases hwithout

/-- **A second filter reads as the value of the first.** -/
theorem Identified.single (h : Identified o s) (hnet : s.activeId = some net) {v' k' : Text}
    (hk : s.filters.Has k v) (hk' : s.filters.Has k' v') : k' = k := by
  have hmem : (k, v) ∈ s.filterEntries := mem_filterEntries.2 hk
  have hmem' : (k', v') ∈ s.filterEntries := mem_filterEntries.2 hk'
  rcases hes : s.filterEntries with _ | ⟨kv, _ | ⟨kv', es⟩⟩
  · rw [hes] at hmem
    cases hmem
  · rw [hes, List.mem_singleton] at hmem hmem'
    exact congrArg Prod.fst (hmem'.trans hmem.symm)
  · obtain ⟨more, hsig, hmore, -⟩ := signature_cons kv (kv' :: es)
    have hfirst : s.filters.Has kv.1 kv.2 := mem_filterEntries.1 (hes ▸ List.mem_cons_self)
    have hvalue : kv.2 ++ more ≠ [] := List.append_ne_nil_of_left_ne_nil hfirst.2 more
    let other : State := { s with filters := FilterMap.single kv.1 (kv.2 ++ more) }
    have hkey : key o other = key o s := by
      refine key_eq_of_rest rfl ?_
      rw [filterSignature_eq, filterSignature_eq, hes, hsig, filterEntries_single rfl hvalue,
        signature_singleton]
      rfl
    have hfind := h.find_eq hnet hkey rfl kv.1
    rw [find_params_of_has hfirst,
      find_params_of_has (FilterMap.has_single.2 ⟨rfl, rfl, hvalue⟩), hmore (by simp)] at hfind
    simp at hfind

/-- The only filter. -/
theorem Identified.filterEntries_eq (h : Identified o s) (hnet : s.activeId = some net)
    (hhas : s.filters.Has k v) : s.filterEntries = [(k, v)] := by
  rcases filterEntries_of_single fun _ _ _ _ => h.single hnet with hnil | ⟨k', v', hes, hhas'⟩
  · have hmem : (k, v) ∈ s.filterEntries := mem_filterEntries.2 hhas
    rw [hnil] at hmem
    cases hmem
  · obtain rfl := h.single hnet hhas hhas'
    rw [hes, hhas.unique hhas']

/-- **No other reading of the key as a cursor and a filter**, when one of
the two names has a separator and so is no parameter of the page. -/
theorem Identified.not_read_filter (h : Identified o s) (hnet : s.activeId = some net)
    (hhas : s.filters.Has k v) (c k' v' : Text) (hc : c ≠ []) (hv' : v' ≠ []) (hne : k' ≠ k)
    {sep : Char} (hsep : sep = ':' ∨ sep = '=') (hmem : sep ∈ k ∨ sep ∈ k') :
    c ++ ':' :: (k' ++ '=' :: v') ≠ s.cursorText ++ ':' :: (k ++ '=' :: v) := by
  intro hread
  have hkey : key o (s.reread c (FilterMap.single k' v')) = key o s := by
    refine key_eq_of_rest rfl ?_
    rw [filterSignature_eq, filterSignature_eq, h.filterEntries_eq hnet hhas,
      filterEntries_single rfl hv', signature_singleton, signature_singleton,
      cursorText_of_query rfl hc, hread]
  have hother : (s.reread c (FilterMap.single k' v')).filters.Has k' v' :=
    FilterMap.has_single.2 ⟨rfl, rfl, hv'⟩
  rcases hmem with hmem | hmem
  · have hfind := h.find_eq hnet hkey rfl k
    have hnot (w : Text) : ¬(s.reread c (FilterMap.single k' v')).filters.Has k w :=
      fun hw => hne (FilterMap.has_single.1 hw).1.symm
    rw [find_params_of_has hhas, find_params_of_separator hsep hmem hnot] at hfind
    cases hfind
  · have hfind := h.find_eq hnet hkey rfl k'
    have hnot (w : Text) : ¬s.filters.Has k' w := fun hw => hne (h.single hnet hhas hw)
    rw [find_params_of_has hother, find_params_of_separator hsep hmem hnot] at hfind
    cases hfind

/-- **No other reading of the key as a longer cursor alone.** -/
theorem Identified.not_read_cursor (h : Identified o s) (hnet : s.activeId = some net)
    (hhas : s.filters.Has k v) (x : Text) : v ≠ x ++ [':'] := by
  intro hv
  have hc : s.cursorText ++ ':' :: (k ++ '=' :: x) ≠ [] := by simp
  have hkey : key o (s.reread (s.cursorText ++ ':' :: (k ++ '=' :: x)) FilterMap.empty) =
      key o s := by
    refine key_eq_of_rest rfl ?_
    rw [filterSignature_eq, filterSignature_eq, h.filterEntries_eq hnet hhas,
      filterEntries_empty rfl, signature_singleton, signature_nil, cursorText_of_query rfl hc, hv]
    simp
  have hfind := h.find_eq hnet hkey rfl cursorName
  rw [find_params_of_not (fun _ => FilterMap.not_has_empty), if_pos rfl,
    cursor_of_query rfl hc] at hfind
  -- What the name of the cursor finds here is shorter than the other cursor.
  by_cases hname : k = cursorName
  · rw [← hname, find_params_of_has hhas, hv] at hfind
    have hlen := congrArg List.length (Option.some.inj hfind)
    simp only [List.length_append, List.length_cons, List.length_nil] at hlen
    omega
  · have hnot (w : Text) : ¬s.filters.Has cursorName w :=
      fun hw => hname (h.single hnet hw hhas)
    rw [find_params_of_not hnot, if_pos rfl] at hfind
    unfold cursorText at hfind
    rw [← hfind] at hfind
    have hlen := congrArg List.length (Option.some.inj hfind)
    simp only [Option.getD_some, List.length_append, List.length_cons] at hlen
    omega

/-- **The filter of an identified state can be read in one way.** -/
theorem Identified.plainFilter (h : Identified o s) (hnet : s.activeId = some net)
    (hhas : s.filters.Has k v) : PlainFilter s.cursorText k v := by
  have hC := cursorText_ne_nil (s := s)
  have hno := h.not_read_filter hnet hhas
  refine ⟨⟨fun hmem => ?_, fun hmem => ?_⟩, ⟨?_, h.not_read_cursor hnet hhas⟩, fun c hc => ?_⟩
  · -- What precedes a colon of the name reads as the cursor's.
    obtain ⟨a, b, rfl⟩ := List.append_of_mem hmem
    refine hno (s.cursorText ++ ':' :: a) b v (by simp) hhas.2 ?_ (Or.inl rfl) (Or.inl hmem)
      (by simp)
    intro heq
    have hlen := congrArg List.length heq
    simp only [List.length_append, List.length_cons] at hlen
    omega
  · -- What follows an equals sign of the name reads as the value's.
    obtain ⟨a, b, rfl⟩ := List.append_of_mem hmem
    exact hno s.cursorText a (b ++ '=' :: v) hC (by simp) (by simp) (Or.inr rfl) (Or.inl hmem)
      (by simp)
  · -- What precedes an equals sign of the value reads as the name's.
    rw [notMem_dropLast_iff]
    rintro x y rfl
    by_contra hy
    exact hno s.cursorText (k ++ '=' :: x) y hC hy (by simp) (Or.inr rfl) (Or.inr (by simp))
      (by simp)
  · -- The last colon of the cursor reads as the name's first.
    by_contra hne
    refine hno c (':' :: k) v hne hhas.2 (List.cons_ne_self ':' k) (Or.inl rfl)
      (Or.inr (by simp)) ?_
    rw [hc]
    simp

/-! ## The condition -/

/-- **An identified state has one reading.** -/
theorem Identified.unambiguous (h : Identified o s) : Unambiguous s := by
  obtain ⟨net, hnet, hunknown⟩ := h.exists_network
  exact
    { network := ⟨net, hnet, hunknown, h.colon_notMem_network hnet⟩
      cursor := h.colon_notMem_cursor hnet
      head := h.head_hidden hnet
      single := fun _ _ _ _ => h.single hnet
      filter := fun _ _ => h.plainFilter hnet }

/-- **The key identifies the request of the states that have one reading,
and of no others.** -/
theorem identified_iff (o : Options) (s : State) : Identified o s ↔ Unambiguous s := by
  constructor
  · exact Identified.unambiguous
  · intro h
    exact
      { request := fun _ => h.request
        refetch := fun _ hwatched => h.request (key_of_watched hwatched)
        normal := fun _ => key_alike }

/-- The list of blocks. -/
def blocksList : Options := ⟨"blocks-list".toList, "/blocks".toList, 25⟩

/-- The list in a network, at a cursor. -/
def State.listed (net : String) (cursor : Option String) : State :=
  ⟨some net.toList, cursor.map String.toList, FilterMap.empty⟩

/-- **The first page shares its key with the page after a cursor.** -/
theorem head_collides :
    key blocksList (State.listed "melodie" none) =
        key blocksList (State.listed "melodie" (some "head")) ∧
      url blocksList (State.listed "melodie" none) ≠
        url blocksList (State.listed "melodie" (some "head")) := by
  have hes (cursor : Option String) : (State.listed "melodie" cursor).filterEntries = [] :=
    filterEntries_empty rfl
  constructor
  · unfold key
    rw [filterSignature_eq, filterSignature_eq, hes, hes]
    rfl
  · unfold url params
    rw [hes, hes]
    decide

end PaginatedList

end AllfeatExplorer
