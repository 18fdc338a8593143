import AllfeatExplorer.Lib.Run
import AllfeatExplorer.Indexer.Model.Projections
import Mathlib.Data.List.Basic

/-!
# ATS histories

What the pallet guarantees of a chain's ATS events: an id is created
once, its updates carry the versions 1, 2, … in order, and nothing
happens to it once it is revoked. The guarantee is an automaton an id
runs through (`Life`), and what the indexer relies on is read off it for
pairs of events (`AtsHistory.Precedes`): of two events of one id the
later is no creation, the earlier no revocation, and the versions go up.
-/

namespace AllfeatExplorer

open Projections

/-! ## The life of an id -/

/-- **Where an id is in its life**; a live one knows the version its next
update carries. -/
inductive Life where
  | unborn
  | live (next : ℕ)
  | dead
deriving DecidableEq

/-- One event of the id. -/
def Life.step : Life → DecodedAtsEvent → Option Life
  | .unborn, .created .. => some (.live 1)
  | .live next, .updated _ version .. =>
    if version.toNat = next then some (.live (next + 1)) else none
  | .live _, .revoked _ => some .dead
  | _, _ => none

namespace Projections.DecodedAtsEvent

/-- The event creates its id. -/
def creates : DecodedAtsEvent → Bool
  | created .. => true
  | _ => false

/-- The event updates its id. -/
def updates : DecodedAtsEvent → Bool
  | updated .. => true
  | _ => false

/-- The event revokes its id. -/
def revokes : DecodedAtsEvent → Bool
  | revoked _ => true
  | _ => false

/-- The version the event adds; a creation adds version 0. -/
def version : DecodedAtsEvent → Option UInt32
  | created .. => some 0
  | updated _ version .. => some version
  | revoked _ => none

/-- **What the earlier and the later of two events of one id are.** -/
structure Precedes (e e' : DecodedAtsEvent) : Prop where
  later : e'.creates = false
  earlier : e.revokes = false
  versions : ∀ v v', e.version = some v → e'.version = some v' → v.toNat < v'.toNat

end Projections.DecodedAtsEvent

open DecodedAtsEvent

variable {es : List DecodedAtsEvent} {l l' : Life} {next : ℕ}

/-- The steps of a life. -/
theorem Life.step_cases {e : DecodedAtsEvent} (h : l.step e = some l') :
    (l = .unborn ∧ creates e = true ∧ version e = some 0 ∧ l' = .live 1) ∨
    (∃ next v, l = .live next ∧ version e = some v ∧ v.toNat = next ∧ creates e = false ∧
      revokes e = false ∧ l' = .live (next + 1)) ∨
    (∃ next, l = .live next ∧ revokes e = true ∧ creates e = false ∧ version e = none ∧
      l' = .dead) := by
  unfold Life.step at h
  split at h
  · exact .inl ⟨rfl, rfl, rfl, (Option.some.inj h).symm⟩
  · split at h
    · rename_i hv
      exact .inr (.inl ⟨_, _, rfl, rfl, hv, rfl, rfl, (Option.some.inj h).symm⟩)
    · cases h
  · exact .inr (.inr ⟨_, rfl, rfl, rfl, rfl, (Option.some.inj h).symm⟩)
  · cases h

/-- Nothing happens to a dead id. -/
theorem Life.run_dead (h : run Life.step .dead es = some l) : es = [] := by
  cases es with
  | nil => rfl
  | cons e es =>
    obtain ⟨l₁, hl₁, -⟩ := run_cons_eq_some.mp h
    rcases Life.step_cases hl₁ with ⟨hl, -⟩ | ⟨_, _, hl, -⟩ | ⟨_, hl, -⟩ <;> cases hl

/-- **The events of a live id**: no creation, and versions from the next
one on, in order. -/
theorem Life.run_live (h : run Life.step (.live next) es = some l) :
    es.Pairwise Precedes ∧
      ∀ e ∈ es, creates e = false ∧ ∀ v, version e = some v → next ≤ v.toNat := by
  induction es generalizing next with
  | nil => exact ⟨List.Pairwise.nil, nofun⟩
  | cons e es ih =>
    obtain ⟨l₁, hl₁, hrest⟩ := run_cons_eq_some.mp h
    rcases Life.step_cases hl₁ with ⟨hl, -⟩ | ⟨_, v, hl, hv, hnext, hc, hr, rfl⟩ |
      ⟨_, hl, -, hc, hv, rfl⟩
    · cases hl
    -- An update: what comes after carries a later version.
    · obtain rfl := Life.live.inj hl
      obtain ⟨hpairwise, hall⟩ := ih hrest
      refine ⟨List.pairwise_cons.mpr ⟨fun e' he' => ⟨(hall e' he').1, hr, ?_⟩, hpairwise⟩, ?_⟩
      · intro v₁ v₂ hv₁ hv₂
        obtain rfl := Option.some.inj (hv.symm.trans hv₁)
        have hle := (hall e' he').2 v₂ hv₂
        omega
      · intro e' he'
        rcases List.mem_cons.mp he' with rfl | he'
        · refine ⟨hc, fun v₁ hv₁ => ?_⟩
          obtain rfl := Option.some.inj (hv.symm.trans hv₁)
          exact hnext.ge
        · refine ⟨(hall e' he').1, fun v₁ hv₁ => ?_⟩
          have hle := (hall e' he').2 v₁ hv₁
          omega
    -- A revocation: nothing comes after.
    · obtain rfl := Life.run_dead hrest
      refine ⟨List.pairwise_singleton _ _, ?_⟩
      intro e' he'
      rw [List.mem_singleton.mp he', hv]
      exact ⟨hc, nofun⟩

/-- **The events of an id** from the start: in order, and a creation
first. -/
theorem Life.run_unborn (h : run Life.step .unborn es = some l) :
    es.Pairwise Precedes ∧ (es ≠ [] → ∃ e ∈ es, creates e = true) := by
  cases es with
  | nil => exact ⟨List.Pairwise.nil, fun hne => absurd rfl hne⟩
  | cons e es =>
    obtain ⟨l₁, hl₁, hrest⟩ := run_cons_eq_some.mp h
    rcases Life.step_cases hl₁ with ⟨-, hc, hv, rfl⟩ | ⟨_, _, hl, -⟩ | ⟨_, hl, -⟩
    · obtain ⟨hpairwise, hall⟩ := Life.run_live hrest
      refine ⟨List.pairwise_cons.mpr ⟨fun e' he' => ⟨(hall e' he').1, ?_, ?_⟩, hpairwise⟩,
        fun _ => ⟨e, List.mem_cons_self, hc⟩⟩
      · cases e with
        | revoked id => cases hc
        | _ => rfl
      · intro v v' hv₁ hv₂
        obtain rfl := Option.some.inj (hv.symm.trans hv₁)
        exact (hall e' he').2 v' hv₂
    · cases hl
    · cases hl

/-! ## Histories -/

/-- **A chain's ATS events**, a list for each block, an event with the
index of its extrinsic. -/
abbrev AtsHistory := List (List (ℕ × DecodedAtsEvent))

namespace AtsHistory

/-- The events of block `b`. -/
def block (h : AtsHistory) (b : ℕ) : List (ℕ × DecodedAtsEvent) := h[b]?.getD []

/-- All events in chain order, each with its block. -/
def timeline (h : AtsHistory) : List (ℕ × ℕ × DecodedAtsEvent) :=
  h.zipIdx.flatMap fun (evs, b) => evs.map fun p => (b, p)

/-- The events of one id, in chain order. -/
def eventsOf (h : AtsHistory) (x : UInt64) : List DecodedAtsEvent :=
  (h.timeline.map fun p => p.2.2).filter fun e => e.atsId = x

/-- **A valid history**: every id runs through a life. -/
def Valid (h : AtsHistory) : Prop := ∀ x, ∃ l, run Life.step .unborn (h.eventsOf x) = some l

/-- Block `b` creates id `x`. -/
def Creates (h : AtsHistory) (b : ℕ) (x : UInt64) : Prop :=
  ∃ p ∈ h.block b, p.2.atsId = x ∧ p.2.creates = true

/-- Block `b` updates id `x`. -/
def Updates (h : AtsHistory) (b : ℕ) (x : UInt64) : Prop :=
  ∃ p ∈ h.block b, p.2.atsId = x ∧ p.2.updates = true

/-- Block `b` revokes id `x`. -/
def Revokes (h : AtsHistory) (b : ℕ) (x : UInt64) : Prop :=
  ∃ p ∈ h.block b, p.2.atsId = x ∧ p.2.revokes = true

instance (h : AtsHistory) (b : ℕ) (x : UInt64) : Decidable (h.Creates b x) :=
  inferInstanceAs (Decidable (∃ p ∈ h.block b, _))

instance (h : AtsHistory) (b : ℕ) (x : UInt64) : Decidable (h.Updates b x) :=
  inferInstanceAs (Decidable (∃ p ∈ h.block b, _))

instance (h : AtsHistory) (b : ℕ) (x : UInt64) : Decidable (h.Revokes b x) :=
  inferInstanceAs (Decidable (∃ p ∈ h.block b, _))

variable {h : AtsHistory} {b c r : ℕ} {x : UInt64} {p q : ℕ × DecodedAtsEvent}

theorem mem_timeline : (b, p) ∈ h.timeline ↔ p ∈ h.block b := by
  unfold timeline block
  rw [List.mem_flatMap]
  constructor
  · rintro ⟨⟨evs, i⟩, hevs, hmap⟩
    have hget : h[i]? = some evs := List.mem_zipIdx_iff_getElem?.mp hevs
    obtain ⟨p', hp', heq⟩ := List.mem_map.mp hmap
    obtain ⟨rfl, rfl⟩ := Prod.mk.inj heq
    rwa [hget]
  · intro hp
    cases hget : h[b]? with
    | none =>
      rw [hget] at hp
      cases hp
    | some evs =>
      rw [hget] at hp
      exact ⟨(evs, b), List.mem_zipIdx_iff_getElem?.mpr hget, List.mem_map_of_mem hp⟩

theorem lt_length_of_mem (hp : p ∈ h.block b) : b < h.length := by
  by_contra hge
  rw [block, List.getElem?_eq_none (not_lt.mp hge)] at hp
  cases hp

/-- Chain order is block order. -/
theorem pairwise_timeline : h.timeline.Pairwise fun p q => p.1 ≤ q.1 := by
  unfold timeline
  refine List.pairwise_flatMap.mpr ⟨?_, ?_⟩
  · rintro ⟨evs, b⟩ -
    exact List.pairwise_map.mpr (List.pairwise_of_forall fun _ _ => le_rfl)
  · have hidx : h.zipIdx.Pairwise fun a b => a.2 < b.2 := by
      rw [← List.pairwise_map (f := Prod.snd), List.zipIdx_map_snd]
      exact List.pairwise_lt_range'
    refine hidx.imp ?_
    rintro ⟨evs, i⟩ ⟨evs', j⟩ hij p hp q hq
    obtain ⟨_, -, rfl⟩ := List.mem_map.mp hp
    obtain ⟨_, -, rfl⟩ := List.mem_map.mp hq
    exact hij.le

/-- **The events of one id come in order.** -/
theorem Valid.pairwise_precedes (hv : h.Valid) : h.timeline.Pairwise fun p q =>
    p.2.2.atsId = q.2.2.atsId → Precedes p.2.2 q.2.2 := by
  refine List.pairwise_iff_forall_sublist.mpr ?_
  intro p q hsub hid
  obtain ⟨l, hl⟩ := hv p.2.2.atsId
  have hpre := (Life.run_unborn hl).1
  -- The two in their order are two of the id's own events in their order.
  refine List.pairwise_iff_forall_sublist.mp hpre ?_
  have hkept := (hsub.map fun p => p.2.2).filter fun e => e.atsId = p.2.2.atsId
  simpa [eventsOf, hid] using hkept

/-- **Two events of one id** are one and the same, or one precedes the
other. -/
theorem Valid.trichotomy (hv : h.Valid) (hp : p ∈ h.block b) (hq : q ∈ h.block c)
    (hid : p.2.atsId = q.2.atsId) :
    (b = c ∧ p = q) ∨ (b ≤ c ∧ Precedes p.2 q.2) ∨ (c ≤ b ∧ Precedes q.2 p.2) := by
  have hpairs : h.timeline.Pairwise fun p q =>
      p.2.2.atsId = q.2.2.atsId → p.1 ≤ q.1 ∧ Precedes p.2.2 q.2.2 :=
    pairwise_timeline.imp₂ (fun _ _ hle hpre hid => ⟨hle, hpre hid⟩) hv.pairwise_precedes
  have hsymm : h.timeline.Pairwise fun p q => p.2.2.atsId = q.2.2.atsId →
      (p.1 ≤ q.1 ∧ Precedes p.2.2 q.2.2) ∨ (q.1 ≤ p.1 ∧ Precedes q.2.2 p.2.2) :=
    hpairs.imp fun himp heq => .inl (himp heq)
  have : Std.Symm fun p q : ℕ × ℕ × DecodedAtsEvent => p.2.2.atsId = q.2.2.atsId →
      (p.1 ≤ q.1 ∧ Precedes p.2.2 q.2.2) ∨ (q.1 ≤ p.1 ∧ Precedes q.2.2 p.2.2) :=
    ⟨fun p q himp heq => (himp heq.symm).symm⟩
  by_cases heq : (b, p) = (c, q)
  · exact .inl (Prod.mk.inj heq)
  · exact .inr (hsymm.forall (mem_timeline.mpr hp) (mem_timeline.mpr hq) heq hid)

/-- **Whatever happens to an id, it was created.** -/
theorem Valid.exists_creates (hv : h.Valid) (hp : p ∈ h.block b) :
    ∃ c, h.Creates c p.2.atsId := by
  obtain ⟨l, hl⟩ := hv p.2.atsId
  have hmem : p.2 ∈ h.eventsOf p.2.atsId :=
    List.mem_filter.mpr ⟨List.mem_map_of_mem (f := fun p => p.2.2) (mem_timeline.mpr hp), by simp⟩
  obtain ⟨e, he, hc⟩ := (Life.run_unborn hl).2 (List.ne_nil_of_mem hmem)
  obtain ⟨hmap, hid⟩ := List.mem_filter.mp he
  obtain ⟨⟨c, q⟩, hq, rfl⟩ := List.mem_map.mp hmap
  exact ⟨c, q, mem_timeline.mp hq, by simpa using hid, hc⟩

/-- **The creation comes first.** -/
theorem Valid.creates_le (hv : h.Valid) (hc : h.Creates c x) (hp : p ∈ h.block b)
    (hid : p.2.atsId = x) : c ≤ b := by
  obtain ⟨q, hq, rfl, hcreates⟩ := hc
  rcases hv.trichotomy hq hp hid.symm with ⟨rfl, -⟩ | ⟨hle, -⟩ | ⟨-, hpre⟩
  · exact le_rfl
  · exact hle
  · rw [hpre.later] at hcreates
    cases hcreates

/-- **The revocation comes last.** -/
theorem Valid.le_revokes (hv : h.Valid) (hr : h.Revokes r x) (hp : p ∈ h.block b)
    (hid : p.2.atsId = x) : b ≤ r := by
  obtain ⟨q, hq, rfl, hrevokes⟩ := hr
  rcases hv.trichotomy hq hp hid.symm with ⟨rfl, -⟩ | ⟨-, hpre⟩ | ⟨hle, -⟩
  · exact le_rfl
  · rw [hpre.earlier] at hrevokes
    cases hrevokes
  · exact hle

theorem Valid.creates_unique (hv : h.Valid) (hb : h.Creates b x) (hc : h.Creates c x) : b = c := by
  have hle : ∀ {b c}, h.Creates b x → h.Creates c x → b ≤ c := by
    rintro b c hb ⟨q, hq, hid, -⟩
    exact hv.creates_le hb hq hid
  exact le_antisymm (hle hb hc) (hle hc hb)

theorem Valid.revokes_unique (hv : h.Valid) (hb : h.Revokes b x) (hc : h.Revokes c x) : b = c := by
  have hle : ∀ {b c}, h.Revokes b x → h.Revokes c x → b ≤ c := by
    rintro b c ⟨p, hp, hid, -⟩ hc
    exact hv.le_revokes hc hp hid
  exact le_antisymm (hle hb hc) (hle hc hb)

theorem Valid.creates_iff (hv : h.Valid) (hc : h.Creates c x) : h.Creates b x ↔ b = c :=
  ⟨fun hb => hv.creates_unique hb hc, fun hb => hb ▸ hc⟩

theorem Valid.revokes_iff (hv : h.Valid) (hr : h.Revokes r x) : h.Revokes b x ↔ b = r :=
  ⟨fun hb => hv.revokes_unique hb hr, fun hb => hb ▸ hr⟩

/-- **A version of an id is added by one event.** -/
theorem Valid.version_unique (hv : h.Valid) (hp : p ∈ h.block b) (hq : q ∈ h.block c)
    (hid : p.2.atsId = q.2.atsId) {v : UInt32} (hpv : p.2.version = some v)
    (hqv : q.2.version = some v) : b = c ∧ p = q := by
  rcases hv.trichotomy hp hq hid with hsame | ⟨-, hpre⟩ | ⟨-, hpre⟩
  · exact hsame
  · exact absurd (hpre.versions v v hpv hqv) (lt_irrefl _)
  · exact absurd (hpre.versions v v hqv hpv) (lt_irrefl _)

/-- Only the ids the history names can break it. -/
theorem valid_of_named
    (hv : ∀ p ∈ h.timeline, (run Life.step .unborn (h.eventsOf p.2.2.atsId)).isSome = true) :
    h.Valid := by
  intro x
  by_cases hx : h.eventsOf x = []
  · rw [hx]
    exact ⟨.unborn, rfl⟩
  · obtain ⟨e, he⟩ := List.exists_mem_of_ne_nil _ hx
    obtain ⟨hmap, hid⟩ := List.mem_filter.mp he
    obtain ⟨p, hp, rfl⟩ := List.mem_map.mp hmap
    have hsome := hv p hp
    rw [of_decide_eq_true hid] at hsome
    exact Option.isSome_iff_exists.mp hsome

end AtsHistory

end AllfeatExplorer
