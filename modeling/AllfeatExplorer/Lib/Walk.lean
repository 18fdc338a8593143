import Mathlib.Data.List.Nodup
import Mathlib.Data.List.Pairwise

/-!
# Walks over a paged list

A paged list is read a page at a time: each page comes with the cursor
of the next one, and the last page with none. What is read may change
between two pages, so a walk records the state each page was read in.

`Refines` says that a read answers what a specification over other
cursors does; a walk of the one is then a walk of the other.
-/

namespace AllfeatExplorer

variable {σ κ κ' π β : Type*}

/-- **A walk from a cursor**: the pages, each with the state it was read
in, until one that has no next cursor. -/
inductive Walk (read : σ → Option κ → Option (π × Option κ)) : Option κ → List (σ × π) → Prop
  | last {s : σ} {c : Option κ} {p : π} (h : read s c = some (p, none)) : Walk read c [(s, p)]
  | next {s : σ} {c : Option κ} {p : π} {k : κ} {w : List (σ × π)}
      (h : read s c = some (p, some k)) (hw : Walk read (some k) w) : Walk read c ((s, p) :: w)

variable {read : σ → Option κ → Option (π × Option κ)} {spec : σ → Option κ' → List β × Option κ'}
  {text : κ' → κ} {content : π → List β} {okS : σ → Prop} {okC : κ' → Prop}
  {c : Option κ} {s : σ} {w w' : List (σ × π)} {ps ps' : List π}

theorem Walk.ne_nil (h : Walk read c w) : w ≠ [] := by
  cases h <;> exact List.cons_ne_nil _ _

/-- Every page of a walk was read in its state, at some cursor. -/
theorem Walk.mem (h : Walk read c w) {x : σ × π} (hx : x ∈ w) :
    ∃ c' n, read x.1 c' = some (x.2, n) := by
  induction h with
  | last h =>
    obtain rfl := List.mem_singleton.mp hx
    exact ⟨_, _, h⟩
  | next h _ ih =>
    rcases List.mem_cons.mp hx with rfl | hx
    · exact ⟨_, _, h⟩
    · exact ih hx

/-- **At each page** of a walk the read has a next cursor, from which the
walk goes on, or none, and the walk ends. -/
theorem Walk.split {pre post : List (σ × π)} {x : σ × π} (h : Walk read c (pre ++ x :: post)) :
    ∃ c' n, read x.1 c' = some (x.2, n) ∧
      (n = none ∧ post = [] ∨ ∃ k, n = some k ∧ Walk read (some k) post) := by
  induction pre generalizing c with
  | nil =>
    cases h with
    | last h => exact ⟨_, _, h, .inl ⟨rfl, rfl⟩⟩
    | next h hw => exact ⟨_, _, h, .inr ⟨_, rfl, hw⟩⟩
  | cons y pre ih =>
    rw [List.cons_append] at h
    generalize hrest : pre ++ x :: post = rest at h
    cases h with
    | last h => simp at hrest
    | next h hw =>
      subst hrest
      exact ih hw

/-- **In a fixed state there is one walk.** -/
theorem Walk.unique (h : Walk read c w) (h' : Walk read c w') (hw : ∀ x ∈ w, x.1 = s)
    (hw' : ∀ x ∈ w', x.1 = s) : w = w' := by
  induction h generalizing w' with
  | last h =>
    obtain rfl := hw _ List.mem_cons_self
    cases h' with
    | last h₁ =>
      obtain rfl := hw' _ List.mem_cons_self
      rw [h] at h₁
      cases h₁
      rfl
    | next h₁ _ =>
      obtain rfl := hw' _ List.mem_cons_self
      rw [h] at h₁
      cases h₁
  | next h _ ih =>
    obtain rfl := hw _ List.mem_cons_self
    cases h' with
    | last h₁ =>
      obtain rfl := hw' _ List.mem_cons_self
      rw [h] at h₁
      cases h₁
    | next h₁ hrest =>
      obtain rfl := hw' _ List.mem_cons_self
      rw [h] at h₁
      cases h₁
      rw [ih hrest (fun x hx => hw x (List.mem_cons_of_mem _ hx))
        fun x hx => hw' x (List.mem_cons_of_mem _ hx)]

/-! ## Refinement -/

/-- A specification, as a read that always answers. -/
def answering (spec : σ → Option κ' → List β × Option κ') :
    σ → Option κ' → Option (List β × Option κ') :=
  fun s c => some (spec s c)

/-- **A read refines a specification**: in the states and at the cursors
that count it answers, with the specified content and next cursor. -/
structure Refines (read : σ → Option κ → Option (π × Option κ))
    (spec : σ → Option κ' → List β × Option κ') (text : κ' → κ) (content : π → List β)
    (okS : σ → Prop) (okC : κ' → Prop) : Prop where
  answers : ∀ s c, okS s → (∀ k ∈ c, okC k) →
    ∃ p, read s (c.map text) = some (p, (spec s c).2.map text) ∧ content p = (spec s c).1
  next_ok : ∀ s c k, okS s → (spec s c).2 = some k → okC k

/-- **A walk of the read is one of the specification.** -/
theorem Refines.walk (h : Refines read spec text content okS okC) {c' : Option κ'}
    (hc : c = c'.map text) (hok : ∀ k ∈ c', okC k) (hw : Walk read c w)
    (hs : ∀ x ∈ w, okS x.1) :
    Walk (answering spec) c' (w.map fun x => (x.1, content x.2)) := by
  induction hw generalizing c' with
  | @last s c p hread =>
    obtain ⟨p', hp, hcontent⟩ := h.answers s c' (hs _ List.mem_cons_self) hok
    rw [← hc, hread] at hp
    obtain ⟨rfl, hnext⟩ := Prod.mk.inj (Option.some.inj hp)
    have hnone : (spec s c').2 = none := Option.map_eq_none_iff.mp hnext.symm
    exact .last (congrArg some (Prod.ext hcontent.symm hnone))
  | @next s c p k w hread hrest ih =>
    have hsok : okS s := hs _ List.mem_cons_self
    obtain ⟨p', hp, hcontent⟩ := h.answers s c' hsok hok
    rw [← hc, hread] at hp
    obtain ⟨rfl, hnext⟩ := Prod.mk.inj (Option.some.inj hp)
    obtain ⟨k', hk', hkk⟩ := Option.map_eq_some_iff.mp hnext.symm
    refine .next (k := k') (congrArg some (Prod.ext hcontent.symm hk')) (ih ?_ ?_ ?_)
    · rw [← hkk]
      rfl
    · rintro k₁ hk₁
      obtain rfl := Option.some.inj (Option.mem_def.mp hk₁)
      exact h.next_ok s c' k' hsok hk'
    · exact fun x hx => hs x (List.mem_cons_of_mem _ hx)

/-- **And a walk of the specification is one of the read.** -/
theorem Refines.exists_walk (h : Refines read spec text content okS okC) {c' : Option κ'}
    {w' : List (σ × List β)} (hok : ∀ k ∈ c', okC k) (hw : Walk (answering spec) c' w')
    (hs : ∀ x ∈ w', okS x.1) :
    ∃ w, Walk read (c'.map text) w ∧ (w.map fun x => (x.1, content x.2)) = w' := by
  induction hw with
  | @last s c' p hread =>
    have hsok : okS s := hs _ List.mem_cons_self
    obtain ⟨p', hp, hcontent⟩ := h.answers s c' hsok hok
    have hspec : spec s c' = (p, none) := Option.some.inj hread
    rw [hspec] at hp hcontent
    refine ⟨[(s, p')], .last hp, ?_⟩
    rw [List.map_singleton, hcontent]
  | @next s c' p k' w' hread hrest ih =>
    have hsok : okS s := hs _ List.mem_cons_self
    obtain ⟨p', hp, hcontent⟩ := h.answers s c' hsok hok
    have hspec : spec s c' = (p, some k') := Option.some.inj hread
    have hkok : ∀ k ∈ some k', okC k := by
      rintro k hk
      obtain rfl := Option.some.inj (Option.mem_def.mp hk)
      exact h.next_ok s c' k' hsok (congrArg Prod.snd hspec)
    obtain ⟨w, hwalk, hmap⟩ := ih hkok fun x hx => hs x (List.mem_cons_of_mem _ hx)
    rw [hspec] at hp hcontent
    refine ⟨(s, p') :: w, .next hp hwalk, ?_⟩
    rw [List.map_cons, hmap, hcontent]

/-- **In a fixed state** the two have walks over the same lists. -/
theorem Refines.fixed_walk_iff (h : Refines read spec text content okS okC) (hs : okS s)
    {l : List β} :
    (∃ w, Walk read none w ∧ (∀ x ∈ w, x.1 = s) ∧ (w.flatMap fun x => content x.2) = l) ↔
      ∃ w, Walk (answering spec) none w ∧ (∀ x ∈ w, x.1 = s) ∧ w.flatMap Prod.snd = l := by
  have hno : ∀ k ∈ (none : Option κ'), okC k := fun _ hk => absurd hk (Option.not_mem_none _)
  have hflat : ∀ w : List (σ × π), (w.map fun x => (x.1, content x.2)).flatMap Prod.snd =
      w.flatMap fun x => content x.2 := fun w => List.flatMap_map _ _ _
  constructor
  · rintro ⟨w, hw, hfixed, hcontent⟩
    refine ⟨_, h.walk (Option.map_none (f := text)).symm hno hw fun x hx => ?_, ?_, ?_⟩
    · exact (hfixed x hx).symm ▸ hs
    · intro y hy
      obtain ⟨x, hx, rfl⟩ := List.mem_map.mp hy
      exact hfixed x hx
    · rw [hflat, hcontent]
  · rintro ⟨w', hw', hfixed, hcontent⟩
    obtain ⟨w, hw, hmap⟩ := h.exists_walk hno hw' fun x hx => (hfixed x hx).symm ▸ hs
    refine ⟨w, hw, fun x hx => ?_, ?_⟩
    · exact hfixed _ (hmap ▸ List.mem_map_of_mem hx)
    · rw [← hflat, hmap, hcontent]

/-- **Each page of a walk** is the specified one of some cursor that counts;
where that has no next cursor the walk ends. -/
theorem Refines.split (h : Refines read spec text content okS okC) {c' : Option κ'}
    (hc : c = c'.map text) (hok : ∀ k ∈ c', okC k) {pre post : List (σ × π)} {x : σ × π}
    (hw : Walk read c (pre ++ x :: post)) (hs : ∀ y ∈ pre ++ x :: post, okS y.1) :
    ∃ c₁ : Option κ', (∀ k ∈ c₁, okC k) ∧
      read x.1 (c₁.map text) = some (x.2, (spec x.1 c₁).2.map text) ∧
      content x.2 = (spec x.1 c₁).1 ∧ ((spec x.1 c₁).2 = none → post = []) := by
  induction pre generalizing c c' with
  | nil =>
    have hsok : okS x.1 := hs x List.mem_cons_self
    obtain ⟨p, hp, hcontent⟩ := h.answers x.1 c' hsok hok
    rw [← hc] at hp
    refine ⟨c', hok, ?_⟩
    rw [← hc]
    cases hw with
    | last hread =>
      rw [hread] at hp
      obtain ⟨rfl, hnext⟩ := Prod.mk.inj (Option.some.inj hp)
      exact ⟨by rw [hread, hnext], hcontent, fun _ => rfl⟩
    | next hread hrest =>
      rw [hread] at hp
      obtain ⟨rfl, hnext⟩ := Prod.mk.inj (Option.some.inj hp)
      refine ⟨by rw [hread, hnext], hcontent, fun hnone => ?_⟩
      rw [hnone] at hnext
      cases hnext
  | cons y pre ih =>
    rw [List.cons_append] at hw hs
    generalize hrest : pre ++ x :: post = rest at hw hs
    have hsok : okS y.1 := hs y List.mem_cons_self
    obtain ⟨p, hp, -⟩ := h.answers y.1 c' hsok hok
    cases hw with
    | last hread => simp at hrest
    | @next _ _ _ k _ hread hw =>
      subst hrest
      rw [← hc, hread] at hp
      obtain ⟨-, hnext⟩ := Prod.mk.inj (Option.some.inj hp)
      obtain ⟨k', hk', hkk⟩ := Option.map_eq_some_iff.mp hnext.symm
      have hcursor : some k = (some k').map text := by rw [Option.map_some, hkk]
      refine ih hcursor ?_ hw fun z hz => hs z (List.mem_cons_of_mem _ hz)
      intro k₁ hk₁
      obtain rfl := Option.some.inj (Option.mem_def.mp hk₁)
      exact h.next_ok _ c' k' hsok hk'

end AllfeatExplorer
