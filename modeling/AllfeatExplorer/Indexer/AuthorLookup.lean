import AllfeatExplorer.Lib.Run
import AllfeatExplorer.Indexer.Model.AuthorLookup
import AllfeatExplorer.Indexer.Helpers.Authors

/-!
# One id for an author

However the calls of all processes interleave, whatever upserts are lost
or lose their answer, and whenever a process starts again with an empty
cache: an id that was ever returned is the author's row, and no other's
(`resolve_run`). What the table holds of one network is what a single
caller would have left there that resolved one author after the other,
under ids that only leave values of the sequence out
(`resolve_refines`), which is how the indexer's database takes it.
-/

namespace AllfeatExplorer

open Interned

variable {s s' : AuthorsSys} {as : List AuthorsAction} {i proc id : ℕ} {key : AuthorKey}
  {sid : ℤ} {bytes : AccountId}

/-! ## The table -/

/-- What an upsert that goes through leaves, and what it returns. -/
structure AuthorsTable.Upserted (t : AuthorsTable) (key : AuthorKey) (t' : AuthorsTable) (id : ℕ) :
    Prop where
  left : t.nextval ≤ i32Max
  ids : t'.ids = t.ids.insertNew key t.nextval
  nextval : t'.nextval = t.nextval + 1
  found : t'.ids.find key = some id

theorem AuthorsTable.upsert_some {t t' : AuthorsTable} (h : t.upsert key = some (t', id)) :
    t.Upserted key t' id := by
  unfold AuthorsTable.upsert at h
  split at h
  · rename_i hleft
    obtain ⟨rfl, rfl⟩ := Prod.mk.inj (Option.some.inj h)
    exact ⟨hleft, rfl, rfl, by rw [Table.find_insertNew, if_pos rfl]⟩
  · cases h

theorem AuthorsTable.upsert_none {t : AuthorsTable} (h : t.upsert key = none) :
    i32Max < t.nextval := by
  unfold AuthorsTable.upsert at h
  split at h
  · cases h
  · rename_i hleft
    omega

theorem AuthorsTable.Upserted.extends {t t' : AuthorsTable} (h : t.Upserted key t' id) :
    Extends t.ids t'.ids := by
  rw [h.ids]
  exact extends_insertNew

theorem AuthorsTable.draw_some {t t' : AuthorsTable} (h : t.draw = some t') :
    t.nextval ≤ i32Max ∧ t'.ids = t.ids ∧ t'.nextval = t.nextval + 1 := by
  unfold AuthorsTable.draw at h
  split at h
  · rename_i hleft
    obtain rfl := Option.some.inj h
    exact ⟨hleft, rfl, rfl⟩
  · cases h

namespace AuthorLookup

/-! ## What a step can do -/

/-- **The steps**, each with what its guard saw. -/
inductive Step (s : AuthorsSys) : AuthorsAction → AuthorsSys → Prop where
  | call {i proc : ℕ} {key : AuthorKey} (hfree : s.calls i = none) :
      Step s (.call i proc key) (setStage s i ⟨proc, key, .reading⟩ .reading)
  | hit {i id : ℕ} {c : ResolveCall} (hcall : s.calls i = some c)
      (hid : s.cache c.proc c.key = some id) :
      Step s (.read i) (setStage s i c (.returned (.ok id)))
  | miss {i : ℕ} {c : ResolveCall} (hcall : s.calls i = some c) :
      Step s (.read i) (setStage s i c .upserting)
  | failed {i : ℕ} {c : ResolveCall} {outcome : Outcome} {err : ResolveError}
      (hcall : s.calls i = some c) (hnot : outcome = .lost ∨ i32Max < s.authors.nextval) :
      Step s (.upsert i outcome) (setStage s i c (.returned (.error err)))
  | upserted {i id : ℕ} {c : ResolveCall} {outcome : Outcome} {authors : AuthorsTable}
      {stage : ResolveStage} (hcall : s.calls i = some c) (hlands : outcome ≠ .lost)
      (hup : s.authors.Upserted c.key authors id)
      (hstage : stage = .writing id ∨ ∃ err, stage = .returned (.error err)) :
      Step s (.upsert i outcome) (setStage { s with authors } i c stage)
  | written {i id : ℕ} {c : ResolveCall} (hcall : s.calls i = some c)
      (hid : c.stage = .writing id) :
      Step s (.write i) (setStage (writeCache s c.proc c.key id) i c (.returned (.ok id)))
  | drawn {authors : AuthorsTable} (hdraw : s.authors.draw = some authors) :
      Step s .draw { s with authors }
  | cancelled {i : ℕ} {c : ResolveCall} (hcall : s.calls i = some c) :
      Step s (.cancel i) (setStage s i c .cancelled)
  | restarted {proc : ℕ} : Step s (.restart proc) (restart s proc)

theorem upsert_cases {c : ResolveCall} {outcome : Outcome} (hcall : s.calls i = some c) :
    Step s (.upsert i outcome) (upsert s i c outcome) := by
  unfold upsert
  rcases outcome with - | - | -
  · rcases hup : s.authors.upsert c.key with - | ⟨authors, id⟩
    · exact .failed hcall (.inr (AuthorsTable.upsert_none hup))
    · exact .upserted hcall nofun (AuthorsTable.upsert_some hup) (.inl rfl)
  · exact .failed hcall (.inl rfl)
  · rcases hup : s.authors.upsert c.key with - | ⟨authors, id⟩
    · exact .failed hcall (.inr (AuthorsTable.upsert_none hup))
    · exact .upserted hcall nofun (AuthorsTable.upsert_some hup) (.inr ⟨_, rfl⟩)

theorem step_cases {a : AuthorsAction} (h : step s a = some s') : Step s a s' := by
  cases a with
  | call i proc key =>
    simp only [step] at h
    split at h
    · rename_i hfree
      obtain rfl := Option.some.inj h
      exact .call hfree
    · cases h
  | read i =>
    simp only [step] at h
    split at h
    · rename_i proc key hcall
      split at h
      · rename_i id hid
        obtain rfl := Option.some.inj h
        exact .hit hcall hid
      · obtain rfl := Option.some.inj h
        exact .miss hcall
    · cases h
  | upsert i outcome =>
    simp only [step] at h
    split at h
    · rename_i proc key hcall
      obtain rfl := Option.some.inj h
      exact upsert_cases hcall
    · cases h
  | write i =>
    simp only [step] at h
    split at h
    · rename_i proc key id hcall
      obtain rfl := Option.some.inj h
      exact .written hcall rfl
    · cases h
  | draw =>
    obtain ⟨authors, hdraw, rfl⟩ := Option.map_eq_some_iff.mp h
    exact .drawn hdraw
  | cancel i =>
    simp only [step] at h
    split at h
    · rename_i c hcall
      split at h
      · cases h
      · obtain rfl := Option.some.inj h
        exact .cancelled hcall
    · cases h
  | restart proc =>
    obtain rfl := Option.some.inj h
    exact .restarted

/-! ## Ids returned -/

/-- The id a call has. -/
def known : ResolveStage → Option ℕ
  | .writing id | .returned (.ok id) => some id
  | _ => none

/-- **What every run keeps**: the caches hold rows, and so do the calls
that have an id. -/
structure Inv (s : AuthorsSys) : Prop where
  cached : ∀ proc, Cached s.authors.ids (s.cache proc)
  calls : ∀ i c id, s.calls i = some c → known c.stage = some id →
    s.authors.ids.find c.key = some id
  range : s.authors.nextval ≤ i32Max + 1

theorem calls_setStage {c d : ResolveCall} {stage : ResolveStage} {j : ℕ}
    (h : (setStage s i c stage).calls j = some d) :
    d = { c with stage } ∨ s.calls j = some d := by
  simp only [setStage, Function.update_apply] at h
  split at h
  · exact .inl (Option.some.inj h).symm
  · exact .inr h

theorem Inv.setStage {c : ResolveCall} {stage : ResolveStage} (h : Inv s)
    (hid : ∀ id, known stage = some id → s.authors.ids.find c.key = some id) :
    Inv (setStage s i c stage) where
  cached := h.cached
  calls := by
    intro j d id hd hknown
    rcases calls_setStage hd with rfl | hold
    · exact hid id hknown
    · exact h.calls j d id hold hknown
  range := h.range

/-- The table may grow under the caches and the calls. -/
theorem Inv.setAuthors {authors : AuthorsTable} (h : Inv s)
    (hext : Extends s.authors.ids authors.ids) (hrange : authors.nextval ≤ i32Max + 1) :
    Inv { s with authors } where
  cached := fun proc => (h.cached proc).mono hext
  calls := fun i c id hc hknown => hext c.key id (h.calls i c id hc hknown)
  range := hrange

theorem Inv.writeCache (h : Inv s) (hid : s.authors.ids.find key = some id) :
    Inv (writeCache s proc key id) where
  cached := by
    intro p
    simp only [AuthorLookup.writeCache, Function.update_apply]
    split
    · exact (h.cached proc).update hid
    · exact h.cached p
  calls := h.calls
  range := h.range

theorem Inv.restart (h : Inv s) : Inv (restart s proc) where
  cached := by
    intro p
    simp only [AuthorLookup.restart, Function.update_apply]
    split
    · exact Cached.empty
    · exact h.cached p
  calls := by
    intro i c id hc hknown
    obtain ⟨d, hd, rfl⟩ := Option.map_eq_some_iff.mp hc
    split at hknown
    · cases hknown
    · rename_i hstays
      rw [if_neg hstays]
      exact h.calls i d id hd hknown
  range := h.range

theorem Inv.of_step {a : AuthorsAction} (h : Inv s) (hstep : step s a = some s') : Inv s' := by
  cases step_cases hstep with
  | call | miss | failed | cancelled => exact h.setStage nofun
  | @hit i id c hcall hid =>
    refine h.setStage fun id' hknown => ?_
    obtain rfl := Option.some.inj hknown
    exact h.cached c.proc c.key id hid
  | @upserted i id c outcome authors stage hcall hlands hup hstage =>
    have hrange := hup.nextval
    have hleft := hup.left
    refine (h.setAuthors hup.extends (by omega)).setStage fun id' hknown => ?_
    rcases hstage with rfl | ⟨err, rfl⟩
    · obtain rfl := Option.some.inj hknown
      exact hup.found
    · cases hknown
  | @written i id c hcall hid =>
    have hfind := h.calls i c id hcall (by rw [hid]; rfl)
    refine (h.writeCache hfind).setStage fun id' hknown => ?_
    obtain rfl := Option.some.inj hknown
    exact hfind
  | drawn hdraw =>
    obtain ⟨hleft, hids, hnext⟩ := AuthorsTable.draw_some hdraw
    refine h.setAuthors ?_ (by omega)
    rw [hids]
    exact Extends.refl _
  | restarted => exact h.restart

theorem inv_start : Inv start where
  cached := fun _ => Cached.empty
  calls := nofun
  range := by decide

/-- A step takes no author's id away. -/
theorem extends_of_step {a : AuthorsAction} (h : step s a = some s') :
    Extends s.authors.ids s'.authors.ids := by
  cases step_cases h with
  | upserted hcall hlands hup hstage => exact hup.extends
  | drawn hdraw =>
    obtain ⟨-, hids, -⟩ := AuthorsTable.draw_some hdraw
    rw [hids]
    exact Extends.refl _
  | call | hit | miss | failed | written | cancelled | restarted => exact Extends.refl _

theorem extends_run {bs : List AuthorsAction} {t : AuthorsSys} (h : run step s bs = some t) :
    Extends s.authors.ids t.authors.ids := by
  refine inv_run (I := fun u => Extends s.authors.ids u.authors.ids) ?_ (Extends.refl _) h
  exact fun u a v hu hstep => hu.trans (extends_of_step hstep)

/-- **An id that was returned is the author's for good**, and so is one
that is cached: whoever asked, it is the id of the author's row then and
later, it fits the column, and two authors never share one. -/
theorem resolve_run (bs : List AuthorsAction) {t : AuthorsSys}
    (h : run step start as = some s) (hlater : run step s bs = some t) :
    (∀ i c id, s.calls i = some c → c.stage = .returned (.ok id) →
      id ≤ i32Max ∧ t.authors.ids.find c.key = some id) ∧
    (∀ proc key id, get s proc key = some id →
      id ≤ i32Max ∧ t.authors.ids.find key = some id) ∧
    ∀ i j c d id id', s.calls i = some c → c.stage = .returned (.ok id) →
      t.calls j = some d → d.stage = .returned (.ok id') → (c.key = d.key ↔ id = id') := by
  have hinv : Inv s := inv_run (fun _ _ _ hu hstep => hu.of_step hstep) inv_start h
  have hinv' : Inv t := inv_run (fun _ _ _ hu hstep => hu.of_step hstep) hinv hlater
  have hext : Extends s.authors.ids t.authors.ids := extends_run hlater
  have hrow : ∀ i c id, s.calls i = some c → c.stage = .returned (.ok id) →
      s.authors.ids.find c.key = some id := fun i c id hc hstage =>
    hinv.calls i c id hc (by rw [hstage]; rfl)
  have hfits : ∀ key id, s.authors.ids.find key = some id → id ≤ i32Max := by
    intro key id hfind
    have hlt := s.authors.numbered.lt_next key id hfind
    have hrange := hinv.range
    omega
  refine ⟨fun i c id hc hstage => ?_, fun proc key id hid => ?_, ?_⟩
  · have hfind := hrow i c id hc hstage
    exact ⟨hfits c.key id hfind, hext c.key id hfind⟩
  · have hfind := hinv.cached proc key id hid
    exact ⟨hfits key id hfind, hext key id hfind⟩
  · intro i j c d id id' hc hstage hd hstage'
    exact t.authors.numbered.eq_iff hext (hrow i c id hc hstage)
      (hinv'.calls j d id' hd (by rw [hstage']; rfl))

/-- Two processes miss the same author of network 1 together; one starts
again, and resolves another author of network 2. -/
def sampleCalls : List AuthorsAction :=
  let one : AuthorKey := toLex (1, Bytes32.fill 1)
  let two : AuthorKey := toLex (2, Bytes32.fill 2)
  [.call 0 0 one, .call 1 1 one, .read 0, .read 1, .upsert 0 .acked, .upsert 1 .acked, .write 0,
    .write 1, .restart 0, .call 2 0 one, .read 2, .upsert 2 .unacked, .call 3 0 two, .read 3,
    .upsert 3 .acked, .write 3]

/-- Both misses end with the one row; the other author is a row of its
own, and three values were drawn in between. -/
theorem resolve_run_sample :
    ∃ s, run step start sampleCalls = some s ∧
      s.calls 0 = some ⟨0, toLex (1, Bytes32.fill 1), .returned (.ok 1)⟩ ∧
      s.calls 1 = some ⟨1, toLex (1, Bytes32.fill 1), .returned (.ok 1)⟩ ∧
      s.calls 3 = some ⟨0, toLex (2, Bytes32.fill 2), .returned (.ok 4)⟩ ∧
      s.authors.ids.find (toLex (1, Bytes32.fill 1)) = some 1 ∧
      s.authors.ids.find (toLex (2, Bytes32.fill 2)) = some 4 := by
  obtain ⟨s, hs⟩ : ∃ s, run step start sampleCalls = some s := ⟨_, rfl⟩
  have hcalls : ∀ i, (run step start sampleCalls).bind (fun s => s.calls i) = s.calls i := by
    intro i
    rw [hs, Option.bind_some]
  have hzero : s.calls 0 = some ⟨0, toLex (1, Bytes32.fill 1), .returned (.ok 1)⟩ :=
    (hcalls 0).symm.trans (by decide +kernel)
  have hone : s.calls 1 = some ⟨1, toLex (1, Bytes32.fill 1), .returned (.ok 1)⟩ :=
    (hcalls 1).symm.trans (by decide +kernel)
  have hthree : s.calls 3 = some ⟨0, toLex (2, Bytes32.fill 2), .returned (.ok 4)⟩ :=
    (hcalls 3).symm.trans (by decide +kernel)
  have hrun := resolve_run [] hs rfl
  exact ⟨s, hs, hzero, hone, hthree, (hrun.1 0 _ 1 hzero rfl).2, (hrun.1 3 _ 4 hthree rfl).2⟩

/-! ## One caller after the other -/

/-- The author of network `sid` whose upsert takes effect in a step. -/
def landed (sid : ℤ) (s : AuthorsSys) : AuthorsAction → List AccountId
  | .upsert i outcome =>
    match s.calls i with
    | some c =>
      if outcome ≠ .lost ∧ s.authors.nextval ≤ i32Max ∧ (ofLex c.key).1 = sid then
        [(ofLex c.key).2]
      else []
    | none => []
  | _ => []

/-- The authors of network `sid` in the order their upserts took effect. -/
def landings (sid : ℤ) (s : AuthorsSys) : List AuthorsAction → List AccountId
  | [] => []
  | a :: as =>
    match step s a with
    | none => []
    | some s' => landed sid s a ++ landings sid s' as

/-- Authors resolved one after the other. -/
def resolveAll (db : Db) (authors : List AccountId) : Db :=
  authors.foldl (fun db bytes => (db.resolveAuthor bytes).1) db

/-- **Network `sid`'s part of the table** is the authors of `db`, under
ids that leave values of the sequence out. -/
structure Mirrors (s : AuthorsSys) (sid : ℤ) (db : Db) (ρ : ℕ → ℕ) : Prop where
  numbered : db.AuthorsNumbered
  renumbers : Renumbers s.authors.ids s.authors.nextval (fun bytes => toLex (sid, bytes))
    db.authors db.nextAuthorId ρ

theorem Mirrors.of_same {db : Db} {ρ : ℕ → ℕ} (h : Mirrors s sid db ρ)
    (hsame : s'.authors = s.authors) : Mirrors s' sid db ρ where
  numbered := h.numbered
  renumbers := by
    rw [hsame]
    exact h.renumbers

/-- An upsert of another network's author. -/
theorem Mirrors.of_other {db : Db} {ρ : ℕ → ℕ} {authors : AuthorsTable} (h : Mirrors s sid db ρ)
    (hup : s.authors.Upserted key authors id) (hother : (ofLex key).1 ≠ sid)
    (hsame : s'.authors = authors) : Mirrors s' sid db ρ where
  numbered := h.numbered
  renumbers := by
    rw [hsame, hup.ids, hup.nextval]
    refine (h.renumbers.skip (Nat.le_succ _)).other fun bytes heq => hother ?_
    rw [← heq]
    rfl

/-- **An upsert of the network's author** is a resolve. -/
theorem Mirrors.of_own {db : Db} {ρ : ℕ → ℕ} {authors : AuthorsTable} (h : Mirrors s sid db ρ)
    (hup : s.authors.Upserted (toLex (sid, bytes)) authors id) (hsame : s'.authors = authors) :
    ∃ ρ', Mirrors s' sid (db.resolveAuthor bytes).1 ρ' := by
  have hinj : Function.Injective fun bytes : AccountId => (toLex (sid, bytes) : AuthorKey) := by
    intro b b' heq
    exact (Prod.mk.inj (toLex.injective heq)).2
  rcases hfind : db.authors.find bytes with - | old
  · refine ⟨Function.update ρ db.nextAuthorId s.authors.nextval, ⟨h.numbered.resolveAuthor, ?_⟩⟩
    rw [hsame, hup.ids, hup.nextval, Db.resolveAuthor_of_free hfind]
    exact h.renumbers.insertNew h.numbered hinj hfind
  · -- The row is there: the upsert only draws a value.
    refine ⟨ρ, ⟨h.numbered.resolveAuthor, ?_⟩⟩
    have hrow : s.authors.ids.find (toLex (sid, bytes)) = some (ρ old) := by
      rw [h.renumbers.find bytes, hfind]
      rfl
    rw [hsame, hup.ids, hup.nextval, Db.resolveAuthor_of_find hfind,
      insertNew_of_find hrow]
    exact h.renumbers.skip (Nat.le_succ _)

theorem Mirrors.of_step {a : AuthorsAction} {db : Db} {ρ : ℕ → ℕ} (h : Mirrors s sid db ρ)
    (hstep : step s a = some s') : ∃ ρ', Mirrors s' sid (resolveAll db (landed sid s a)) ρ' := by
  cases step_cases hstep with
  | call | hit | miss | written | cancelled | restarted => exact ⟨ρ, h.of_same rfl⟩
  | @drawn authors hdraw =>
    obtain ⟨-, hids, hnext⟩ := AuthorsTable.draw_some hdraw
    refine ⟨ρ, h.numbered, ?_⟩
    simp only [hids, hnext]
    exact h.renumbers.skip (Nat.le_succ _)
  | @failed i c outcome err hcall hnot =>
    have hnone : landed sid s (.upsert i outcome) = [] := by
      simp only [landed, hcall]
      refine if_neg fun hlands => ?_
      rcases hnot with hlost | hleft
      · exact hlands.1 hlost
      · exact absurd hlands.2.1 (by omega)
    rw [hnone]
    exact ⟨ρ, h.of_same rfl⟩
  | @upserted i id c outcome authors stage hcall hlands hup hstage =>
    by_cases hsid : (ofLex c.key).1 = sid
    · have hone : landed sid s (.upsert i outcome) = [(ofLex c.key).2] := by
        simp only [landed, hcall]
        exact if_pos ⟨hlands, hup.left, hsid⟩
      rw [hone]
      have hown : s.authors.Upserted (toLex (sid, (ofLex c.key).2)) authors id := by
        rw [← hsid]
        exact hup
      exact h.of_own hown rfl
    · have hnone : landed sid s (.upsert i outcome) = [] := by
        simp only [landed, hcall]
        exact if_neg fun hlands => hsid hlands.2.2
      rw [hnone]
      exact ⟨ρ, h.of_other hup hsid rfl⟩

theorem Mirrors.of_run {db : Db} {ρ : ℕ → ℕ} {t : AuthorsSys} (h : Mirrors s sid db ρ)
    (hrun : run step s as = some t) :
    ∃ ρ', Mirrors t sid (resolveAll db (landings sid s as)) ρ' := by
  induction as generalizing s db ρ with
  | nil =>
    obtain rfl := Option.some.inj hrun
    exact ⟨ρ, h⟩
  | cons a as ih =>
    obtain ⟨s', hstep, hrest⟩ := run_cons_eq_some.mp hrun
    obtain ⟨ρ', h'⟩ := h.of_step hstep
    have hsplit : landings sid s (a :: as) = landed sid s a ++ landings sid s' as := by
      simp only [landings, hstep]
    have happend : resolveAll db (landings sid s (a :: as)) =
        resolveAll (resolveAll db (landed sid s a)) (landings sid s' as) := by
      rw [hsplit]
      exact List.foldl_append
    rw [happend]
    exact ih h' hrest

/-- **The lookup refines one caller.** Of each network the table holds
what one caller leaves in an empty database that resolves the authors in
the order their upserts took effect, and a call returns the id it would
have got there, but for a strictly increasing renaming of the ids. -/
theorem resolve_refines (h : run step start as = some s) (sid : ℤ) :
    ∃ ρ, Mirrors s sid (resolveAll Db.empty (landings sid start as)) ρ ∧
      ∀ i proc bytes id, s.calls i = some ⟨proc, toLex (sid, bytes), .returned (.ok id)⟩ →
        ∃ own, (resolveAll Db.empty (landings sid start as)).authors.find bytes = some own ∧
          id = ρ own := by
  have hstart : Mirrors start sid Db.empty fun i => i := by
    refine ⟨Numbered.empty, ?_⟩
    exact Renumbers.empty (le_refl 1)
  obtain ⟨ρ, hmirrors⟩ := hstart.of_run h
  have hinv : Inv s := inv_run (fun _ _ _ hu hstep => hu.of_step hstep) inv_start h
  refine ⟨ρ, hmirrors, fun i proc bytes id hc => ?_⟩
  have hfind := hinv.calls i _ id hc rfl
  rw [hmirrors.renumbers.find bytes] at hfind
  obtain ⟨own, hown, hid⟩ := Option.map_eq_some_iff.mp hfind
  exact ⟨own, hown, hid.symm⟩

/-- Of network 2 the table holds the one author, under an id it shares
with no one. -/
theorem resolve_refines_sample :
    ∃ s ρ, run step start sampleCalls = some s ∧ landings 2 start sampleCalls = [Bytes32.fill 2] ∧
      Mirrors s 2 (resolveAll Db.empty (landings 2 start sampleCalls)) ρ ∧ ρ 1 = 4 := by
  obtain ⟨s, hs⟩ : ∃ s, run step start sampleCalls = some s := ⟨_, rfl⟩
  obtain ⟨ρ, hmirrors, hids⟩ := resolve_refines hs 2
  have hcalls : (run step start sampleCalls).bind (fun s => s.calls 3) = s.calls 3 := by
    rw [hs, Option.bind_some]
  have hcall : s.calls 3 = some ⟨0, toLex (2, Bytes32.fill 2), .returned (.ok 4)⟩ :=
    hcalls.symm.trans (by decide +kernel)
  obtain ⟨own, hown, hid⟩ := hids 3 0 (Bytes32.fill 2) 4 hcall
  have hfirst : (resolveAll Db.empty (landings 2 start sampleCalls)).authors.find (Bytes32.fill 2) =
      some 1 := rfl
  obtain rfl : own = 1 := Option.some.inj (hown.symm.trans hfirst)
  exact ⟨s, ρ, hs, rfl, hmirrors, hid.symm⟩

end AuthorLookup

end AllfeatExplorer
