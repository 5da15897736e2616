import OlsDapp.Lib.Machine

/-!
# Machines that come to rest

Some of the labels are the machine's own steps, the others what is done to it. Where every own step
lowers a weight there are no more of them in a row than the machine weighs. Where it can go on
unless it is at rest, each of its runs can be continued to rest, and one that cannot be continued
has come to rest.
-/

namespace OlsDapp.Lib.Machine

universe u v

variable {σ : Type u} {ι : Type v} {step : σ → ι → Option σ} {inv rest : σ → Prop}
  {own goes : ι → Prop} {weight : σ → Nat} {s t : σ} {as : List ι}

/-- From the states of an invariant, every own step lowers the weight. -/
structure Winds (step : σ → ι → Option σ) (inv : σ → Prop) (own : ι → Prop) (weight : σ → Nat) :
    Prop where
  kept : ∀ s a t, inv s → own a → step s a = some t → inv t
  falls : ∀ s a t, inv s → own a → step s a = some t → weight t < weight s

/-- Unless it is at rest, the machine can take a step it goes on by. -/
def Goes (step : σ → ι → Option σ) (inv : σ → Prop) (goes : ι → Prop) (rest : σ → Prop) : Prop :=
  ∀ s, inv s → ¬ rest s → ∃ a, goes a ∧ (step s a).isSome

theorem Winds.inv_run (h : Winds step inv own weight) (hs : inv s) (hown : ∀ a ∈ as, own a)
    (hrun : run step s as = some t) : inv t := by
  induction as generalizing s with
  | nil =>
    cases hrun
    exact hs
  | cons a as ih =>
    obtain ⟨ha, hrest⟩ := List.forall_mem_cons.mp hown
    obtain ⟨s', hstep, hrun'⟩ := run_cons_eq_some.mp hrun
    exact ih (h.kept s a s' hs ha hstep) hrest hrun'

/-- A run of own steps uses up at least one unit of the weight with each. -/
theorem Winds.length_add_le (h : Winds step inv own weight) (hs : inv s)
    (hown : ∀ a ∈ as, own a) (hrun : run step s as = some t) :
    as.length + weight t ≤ weight s := by
  induction as generalizing s with
  | nil =>
    cases hrun
    exact Nat.le_of_eq (Nat.zero_add _)
  | cons a as ih =>
    obtain ⟨ha, hrest⟩ := List.forall_mem_cons.mp hown
    obtain ⟨s', hstep, hrun'⟩ := run_cons_eq_some.mp hrun
    have hfalls := h.falls s a s' hs ha hstep
    have hle := ih (h.kept s a s' hs ha hstep) hrest hrun'
    rw [List.length_cons]
    omega

/-- A run that cannot go on is at rest. -/
theorem Goes.rest_of_stuck (h : Goes step inv goes rest) (hs : inv s)
    (hstuck : ∀ a, goes a → step s a = none) : rest s := by
  by_contra hrest
  obtain ⟨a, ha, hsome⟩ := h s hs hrest
  rw [hstuck a ha] at hsome
  exact Bool.false_ne_true hsome

/-- From every state of the invariant the machine can go on until it is at rest. -/
theorem Winds.leadsTo_rest (h : Winds step inv own weight) (hgoes : Goes step inv goes rest)
    (hsub : ∀ a, goes a → own a) (hs : inv s) : ∃ t, rest t ∧ LeadsTo step goes s t := by
  induction hweight : weight s using Nat.strongRecOn generalizing s with
  | ind n ih =>
    by_cases hrest : rest s
    · exact ⟨s, hrest, LeadsTo.refl⟩
    · obtain ⟨a, ha, hsome⟩ := hgoes s hs hrest
      obtain ⟨s', hstep⟩ := Option.isSome_iff_exists.mp hsome
      have hlt := h.falls s a s' hs (hsub a ha) hstep
      have hs' := h.kept s a s' hs (hsub a ha) hstep
      obtain ⟨t, ht, hleads⟩ := ih (weight s') (hweight ▸ hlt) hs' rfl
      exact ⟨t, ht, hleads.head ha hstep⟩

end OlsDapp.Lib.Machine
