import Mathlib.Tactic.Common
import Mathlib.Tactic.Cases

/-!
# Machines with labelled steps

A machine is a partial step function: `none` says that the label is not enabled in the
state. Everything that happens on its own schedule (a scheduler's choice, an answer from
outside) is in the label, so a run is a list of labels. `Along` states a condition on each
step of a run, in the state the step is taken from.
-/

namespace OlsDapp.Lib.Machine

universe u v

variable {σ : Type u} {ι : Type v} (step : σ → ι → Option σ) {G : σ → ι → Prop}

def run : σ → List ι → Option σ
  | s, [] => some s
  | s, a :: as => (step s a).bind fun s' => run s' as

/-- Each step of the run meets `G` in the state before it. -/
def Along (G : σ → ι → Prop) : σ → List ι → Prop
  | _, [] => True
  | s, a :: as => G s a ∧ ∀ s', step s a = some s' → Along G s' as

instance instDecidableAlong [∀ s a, Decidable (G s a)] :
    (s : σ) → (as : List ι) → Decidable (Along step G s as)
  | _, [] => isTrue trivial
  | s, a :: as =>
    have : Decidable (∀ s', step s a = some s' → Along step G s' as) :=
      match step s a with
      | none => isTrue nofun
      | some t =>
        match instDecidableAlong t as with
        | isTrue ht => isTrue fun _ hs' => Option.some.inj hs' ▸ ht
        | isFalse hf => isFalse fun hall => hf (hall t rfl)
    inferInstanceAs (Decidable (_ ∧ _))

variable {step}

theorem run_cons_eq_some {s s' : σ} {a : ι} {as : List ι} :
    run step s (a :: as) = some s' ↔ ∃ t, step s a = some t ∧ run step t as = some s' := by
  rw [run, Option.bind_eq_some_iff]

theorem run_append (s : σ) (as bs : List ι) :
    run step s (as ++ bs) = (run step s as).bind fun t => run step t bs := by
  induction as generalizing s with
  | nil => rfl
  | cons a as ih =>
    simp only [List.cons_append, run]
    cases step s a with
    | none => rfl
    | some t => exact ih t

theorem run_append_eq_some {s s' : σ} {as bs : List ι} :
    run step s (as ++ bs) = some s' ↔ ∃ t, run step s as = some t ∧ run step t bs = some s' := by
  rw [run_append, Option.bind_eq_some_iff]

/-- A machine that makes fewer steps makes fewer runs. -/
theorem run_of_step {step' : σ → ι → Option σ} {s t : σ} {as : List ι}
    (hstep : ∀ s a t, step' s a = some t → step s a = some t) (h : run step' s as = some t) :
    run step s as = some t := by
  induction as generalizing s with
  | nil => exact h
  | cons a as ih =>
    obtain ⟨s', hs', hrest⟩ := run_cons_eq_some.mp h
    exact run_cons_eq_some.mpr ⟨s', hstep s a s' hs', ih hrest⟩

theorem along_trivial (s : σ) (as : List ι) : Along step (fun _ _ => True) s as := by
  induction as generalizing s with
  | nil => trivial
  | cons a as ih => exact ⟨trivial, fun t _ => ih t⟩

theorem along_mono {G' : σ → ι → Prop} {s : σ} {as : List ι} (hmono : ∀ s a, G s a → G' s a)
    (h : Along step G s as) : Along step G' s as := by
  induction as generalizing s with
  | nil => trivial
  | cons a as ih =>
    obtain ⟨hg, htail⟩ := h
    exact ⟨hmono s a hg, fun t ht => ih (htail t ht)⟩

/-- A condition on the labels alone holds along the run. -/
theorem along_and_mem {Q : ι → Prop} {s : σ} {as : List ι} (hq : ∀ a ∈ as, Q a)
    (h : Along step G s as) : Along step (fun s a => Q a ∧ G s a) s as := by
  induction as generalizing s with
  | nil => trivial
  | cons a as ih =>
    obtain ⟨hg, htail⟩ := h
    refine ⟨⟨hq a List.mem_cons_self, hg⟩, fun t ht => ?_⟩
    exact ih (fun b hb => hq b (List.mem_cons_of_mem _ hb)) (htail t ht)

theorem along_append {s : σ} {as bs : List ι} (h : Along step G s as)
    (hnext : ∀ t, run step s as = some t → Along step G t bs) : Along step G s (as ++ bs) := by
  induction as generalizing s with
  | nil => exact hnext s rfl
  | cons a as ih =>
    obtain ⟨hg, htail⟩ := h
    refine ⟨hg, fun t ht => ih (htail t ht) fun u hu => ?_⟩
    exact hnext u (run_cons_eq_some.mpr ⟨t, ht, hu⟩)

/-- What every step that meets `G` preserves holds after a run whose steps all do. -/
theorem run_induction {P : σ → Prop}
    (hstep : ∀ s a s', P s → G s a → step s a = some s' → P s')
    {s s' : σ} {as : List ι} (hp : P s) (hg : Along step G s as)
    (hrun : run step s as = some s') : P s' := by
  induction as generalizing s with
  | nil =>
    cases hrun
    exact hp
  | cons a as ih =>
    obtain ⟨t, ht, hrest⟩ := run_cons_eq_some.mp hrun
    exact ih (hstep s a t hp hg.1 ht) (hg.2 t ht) hrest

/-- What every step whose label is of `Q` preserves holds after a run of such labels. -/
theorem run_induction_mem {P : σ → Prop} {Q : ι → Prop}
    (hstep : ∀ s a s', P s → Q a → step s a = some s' → P s')
    {s s' : σ} {as : List ι} (hp : P s) (hq : ∀ a ∈ as, Q a)
    (hrun : run step s as = some s') : P s' :=
  run_induction (fun s a s' hs hg => hstep s a s' hs hg.1) hp
    (along_and_mem hq (along_trivial s as)) hrun

/-- What every step preserves holds after every run. -/
theorem run_invariant {P : σ → Prop} (hstep : ∀ s a s', P s → step s a = some s' → P s')
    {s s' : σ} {as : List ι} (hp : P s) (hrun : run step s as = some s') : P s' := by
  induction as generalizing s with
  | nil =>
    cases hrun
    exact hp
  | cons a as ih =>
    obtain ⟨t, ht, hrest⟩ := run_cons_eq_some.mp hrun
    exact ih (hstep s a t hp ht) hrest

section LeadsTo

variable {Q : ι → Prop} {s t u : σ} {a : ι}

variable (step) in
/-- A run whose labels are all of `Q` leads from the one state to the other. -/
def LeadsTo (Q : ι → Prop) (s t : σ) : Prop :=
  ∃ as, (∀ a ∈ as, Q a) ∧ run step s as = some t

theorem LeadsTo.refl : LeadsTo step Q s s := ⟨[], List.forall_mem_nil _, rfl⟩

theorem LeadsTo.head (ha : Q a) (hstep : step s a = some t) (h : LeadsTo step Q t u) :
    LeadsTo step Q s u := by
  obtain ⟨as, hlabels, hrun⟩ := h
  exact ⟨a :: as, List.forall_mem_cons.mpr ⟨ha, hlabels⟩,
    run_cons_eq_some.mpr ⟨t, hstep, hrun⟩⟩

theorem LeadsTo.trans (h : LeadsTo step Q s t) (h' : LeadsTo step Q t u) :
    LeadsTo step Q s u := by
  obtain ⟨as, hlabels, hrun⟩ := h
  obtain ⟨bs, hlabels', hrun'⟩ := h'
  refine ⟨as ++ bs, fun a ha => ?_, run_append_eq_some.mpr ⟨t, hrun, hrun'⟩⟩
  rcases List.mem_append.mp ha with ha | ha
  · exact hlabels a ha
  · exact hlabels' a ha

theorem LeadsTo.invariant {P : σ → Prop} (hstep : ∀ s a s', P s → step s a = some s' → P s')
    (h : LeadsTo step Q s t) (hp : P s) : P t := by
  obtain ⟨as, _, hrun⟩ := h
  exact run_invariant hstep hp hrun

end LeadsTo

end OlsDapp.Lib.Machine
