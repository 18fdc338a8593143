import Mathlib.Data.List.Induction

/-!
# Runs of a guarded step function

A system is a step function `σ → α → Option σ`: the state an action
leads to, or `none` where its guard fails. A run executes a list of
actions. The rules here are the inductions over runs, each made once:
an invariant of every step is one of the run (`inv_run`), also when the
steps are only known to meet a side condition (`inv_run_of_every`) or
when it speaks of the actions so far (`inv_run_history`).
-/

namespace AllfeatExplorer

variable {σ α : Type*} (step : σ → α → Option σ)

/-- The state the actions lead to, in order, if every guard holds. -/
def run (s : σ) (as : List α) : Option σ := as.foldlM step s

/-- **Every step of the run meets `ok`**, up to the first failing guard. -/
def EveryStep (ok : σ → α → Prop) : σ → List α → Prop
  | _, [] => True
  | s, a :: as => ok s a ∧
    match step s a with
    | none => True
    | some s' => EveryStep ok s' as

instance decidableEveryStep (ok : σ → α → Prop) [∀ s a, Decidable (ok s a)] :
    ∀ (s : σ) (as : List α), Decidable (EveryStep step ok s as)
  | _, [] => isTrue trivial
  | s, a :: as => by
    unfold EveryStep
    cases step s a with
    | none => exact inferInstance
    | some s' => exact @instDecidableAnd _ _ _ (decidableEveryStep ok s' as)

variable {step} {ok ok' : σ → α → Prop} {s t u : σ} {a : α} {as bs : List α}

theorem run_cons : run step s (a :: as) = (step s a).bind fun s' => run step s' as := rfl

theorem run_cons_eq_some :
    run step s (a :: as) = some t ↔ ∃ s', step s a = some s' ∧ run step s' as = some t := by
  rw [run_cons, Option.bind_eq_some_iff]

theorem run_append : run step s (as ++ bs) = (run step s as).bind fun u => run step u bs :=
  List.foldlM_append

theorem run_append_eq_some :
    run step s (as ++ bs) = some t ↔ ∃ u, run step s as = some u ∧ run step u bs = some t := by
  rw [run_append, Option.bind_eq_some_iff]

@[simp] theorem run_singleton : run step s [a] = step s a := by
  rw [run_cons]
  cases step s a <;> rfl

/-- Where no step has a guard, a run is a fold. -/
theorem run_some {f : σ → α → σ} : run (fun s a => some (f s a)) s as = some (as.foldl f s) := by
  induction as generalizing s with
  | nil => rfl
  | cons a as ih =>
    rw [run_cons, Option.bind_some, ih]
    rfl

theorem everyStep_cons (h : step s a = some u) :
    EveryStep step ok s (a :: as) ↔ ok s a ∧ EveryStep step ok u as := by
  simp only [EveryStep, h]

theorem everyStep_append (h : run step s as = some u) :
    EveryStep step ok s (as ++ bs) ↔ EveryStep step ok s as ∧ EveryStep step ok u bs := by
  induction as generalizing s with
  | nil => simp [EveryStep, Option.some.inj h]
  | cons a as ih =>
    obtain ⟨s', hs, hr⟩ := run_cons_eq_some.1 h
    rw [List.cons_append, everyStep_cons hs, everyStep_cons hs, ih hr, and_assoc]

theorem EveryStep.imp (h : ∀ s a, ok s a → ok' s a) (hs : EveryStep step ok s as) :
    EveryStep step ok' s as := by
  induction as generalizing s with
  | nil => trivial
  | cons a as ih =>
    refine ⟨h _ _ hs.1, ?_⟩
    have hs2 := hs.2
    cases hstep : step s a with
    | none => trivial
    | some s' =>
      rw [hstep] at hs2
      exact ih hs2

theorem EveryStep.and (hs : EveryStep step ok s as) (hs' : EveryStep step ok' s as) :
    EveryStep step (fun u a => ok u a ∧ ok' u a) s as := by
  induction as generalizing s with
  | nil => trivial
  | cons a as ih =>
    obtain ⟨hok, hrest⟩ := hs
    obtain ⟨hok', hrest'⟩ := hs'
    refine ⟨⟨hok, hok'⟩, ?_⟩
    cases hstep : step s a with
    | none => trivial
    | some s' =>
      rw [hstep] at hrest hrest'
      exact ih hrest hrest'

/-- A condition on the steps is one on the prefixes: it is asked of each
action at the state the actions before it lead to. -/
theorem everyStep_iff (h : run step s as = some t) :
    EveryStep step ok s as ↔
      ∀ pre a post u, as = pre ++ a :: post → run step s pre = some u → ok u a := by
  constructor
  · rintro hs pre a post u rfl hu
    exact ((everyStep_append hu).1 hs).2.1
  · intro hall
    induction as generalizing s with
    | nil => trivial
    | cons a as ih =>
      obtain ⟨s', hs, hr⟩ := run_cons_eq_some.1 h
      refine (everyStep_cons hs).2 ⟨hall [] a as s rfl rfl, ih hr ?_⟩
      rintro pre b post u rfl hu
      exact hall (a :: pre) b post u rfl (run_cons_eq_some.2 ⟨s', hs, hu⟩)

/-- **The first bad step.** To show that every step meets `ok`, a step
may be looked at with all steps before it known to. -/
theorem everyStep_of_earlier (h : run step s as = some t)
    (hok : ∀ pre a u, pre ++ [a] <+: as → run step s pre = some u →
      EveryStep step ok s pre → ok u a) : EveryStep step ok s as := by
  have hpre : ∀ pre, pre <+: as → EveryStep step ok s pre := by
    intro pre
    induction pre using List.reverseRecOn with
    | nil => exact fun _ => trivial
    | append_singleton pre a ih =>
      intro hinit
      have hshort : pre <+: as := (List.prefix_append pre [a]).trans hinit
      obtain ⟨post, rfl⟩ := hshort
      obtain ⟨u, hu, -⟩ := run_append_eq_some.1 h
      refine (everyStep_append hu).2 ⟨ih (List.prefix_append pre post), ?_, ?_⟩
      · exact hok pre a u hinit hu (ih (List.prefix_append pre post))
      · cases step u a <;> trivial
  exact hpre as List.prefix_rfl

/-- A run has a state at each of its prefixes. -/
theorem run_earlier {pre : List α} (h : run step s as = some t) (hpre : pre <+: as) :
    ∃ u, run step s pre = some u := by
  obtain ⟨post, rfl⟩ := hpre
  obtain ⟨u, hu, -⟩ := run_append_eq_some.1 h
  exact ⟨u, hu⟩

theorem EveryStep.earlier {pre : List α} (h : run step s as = some t)
    (hs : EveryStep step ok s as) (hpre : pre <+: as) : EveryStep step ok s pre := by
  obtain ⟨post, rfl⟩ := hpre
  obtain ⟨u, hu, -⟩ := run_append_eq_some.1 h
  exact ((everyStep_append hu).1 hs).1

/-- **The invariant rule, under a side condition on the steps.** -/
theorem inv_run_of_every {I : σ → Prop}
    (hstep : ∀ u a v, I u → ok u a → step u a = some v → I v)
    (hs : I s) (hok : EveryStep step ok s as) (h : run step s as = some t) : I t := by
  induction as generalizing s with
  | nil => exact Option.some.inj h ▸ hs
  | cons a as ih =>
    obtain ⟨s', hsa, hr⟩ := run_cons_eq_some.1 h
    obtain ⟨hoka, hoks⟩ := (everyStep_cons hsa).1 hok
    exact ih (hstep _ _ _ hs hoka hsa) hoks hr

/-- **Where the condition is exact.** It keeps an invariant that gives `P`,
and a step that does not meet it leads out of `P`: then `P` holds in all
of the run just if every step meets it. -/
theorem holds_iff_everyStep {I P : σ → Prop}
    (hstep : ∀ u a v, I u → ok u a → step u a = some v → I v) (hP : ∀ u, I u → P u)
    (hexact : ∀ u a v, I u → step u a = some v → P v → ok u a)
    (hs : I s) (h : run step s as = some t) :
    (∀ pre u, pre <+: as → run step s pre = some u → P u) ↔ EveryStep step ok s as := by
  constructor
  · intro hall
    refine everyStep_of_earlier h fun pre a u hpre hu hearlier => ?_
    obtain ⟨v, hv⟩ := run_earlier h hpre
    obtain ⟨u', hu', hlast⟩ := run_append_eq_some.1 hv
    obtain rfl := Option.some.inj (hu'.symm.trans hu)
    rw [run_singleton] at hlast
    exact hexact u' a v (inv_run_of_every hstep hs hearlier hu) hlast (hall _ v hpre hv)
  · intro hevery pre u hpre hu
    exact hP u (inv_run_of_every hstep hs (hevery.earlier h hpre) hu)

theorem everyStep_true : EveryStep step (fun _ _ => True) s as := by
  induction as generalizing s with
  | nil => trivial
  | cons a as ih =>
    refine ⟨trivial, ?_⟩
    cases step s a with
    | none => trivial
    | some s' => exact ih

/-- **The invariant rule.** -/
theorem inv_run {I : σ → Prop} (hstep : ∀ u a v, I u → step u a = some v → I v)
    (hs : I s) (h : run step s as = some t) : I t := by
  have hok : EveryStep step (fun _ _ => True) s as := everyStep_true
  exact inv_run_of_every (fun u a v hu _ => hstep u a v hu) hs hok h

/-- **The invariant rule with history**: the invariant may speak of the
actions that led to the state. -/
theorem inv_run_history {P : List α → σ → Prop} (hs : P [] s)
    (hstep : ∀ pre u a v, run step s pre = some u → P pre u → step u a = some v →
      P (pre ++ [a]) v)
    (h : run step s as = some t) : P as t := by
  induction as using List.reverseRecOn generalizing t with
  | nil => exact Option.some.inj h ▸ hs
  | append_singleton pre a ih =>
    obtain ⟨u, hu, hua⟩ := run_append_eq_some.1 h
    rw [run_singleton] at hua
    exact hstep pre u a t hu (ih hu) hua

end AllfeatExplorer
