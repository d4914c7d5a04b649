import Mathlib.Data.List.Basic

/-!
# Runs of a partial step function

A system is given by a step function `σ → α → Option σ`: a label either takes a
state to its successor or is not enabled there. A run follows a list of labels.
Since every prefix of a run is a run, a property of the last state of all runs
is a property of every state reached.

Two predicates speak about the inside of one run: `EachStep` about every pair of
a state and the label taken there, `EveryState` about every state visited.
-/

namespace SystemDev.Library

variable {σ α : Type*}

/-- Follow the labels from a state; `none` when some label is not enabled. -/
def run (step : σ → α → Option σ) : σ → List α → Option σ
  | s, [] => some s
  | s, a :: as => (step s a).bind fun t => run step t as

/-- Every label of the run meets `cond` in the state in which it is taken. -/
def EachStep (step : σ → α → Option σ) (cond : σ → α → Prop) : σ → List α → Prop
  | _, [] => True
  | s, a :: as => cond s a ∧ (step s a).elim True fun t => EachStep step cond t as

/-- Every state the run visits, the first one included, satisfies `P`. -/
def EveryState (step : σ → α → Option σ) (P : σ → Prop) : σ → List α → Prop
  | s, [] => P s
  | s, a :: as => P s ∧ (step s a).elim True fun t => EveryState step P t as

/-- Conditions on the steps of a concrete run can be evaluated. -/
def EachStep.decide (step : σ → α → Option σ) (cond : σ → α → Prop)
    [∀ s a, Decidable (cond s a)] : (s : σ) → (as : List α) → Decidable (EachStep step cond s as)
  | _, [] => .isTrue trivial
  | s, a :: as =>
    have : Decidable ((step s a).elim True fun t => EachStep step cond t as) :=
      match step s a with
      | none => .isTrue trivial
      | some t => EachStep.decide step cond t as
    inferInstanceAs (Decidable (cond s a ∧ _))

instance (step : σ → α → Option σ) (cond : σ → α → Prop) [∀ s a, Decidable (cond s a)]
    (s : σ) (as : List α) : Decidable (EachStep step cond s as) :=
  EachStep.decide step cond s as

section Rules

variable {step : σ → α → Option σ} {cond cond' : σ → α → Prop} {P Inv : σ → Prop}
  {s t : σ} {a : α} {as bs : List α}

@[simp] theorem run_cons : run step s (a :: as) = (step s a).bind fun t => run step t as := rfl

@[simp] theorem eachStep_nil : EachStep step cond s [] := trivial

theorem eachStep_cons_of_step (ht : step s a = some t) :
    EachStep step cond s (a :: as) ↔ cond s a ∧ EachStep step cond t as := by
  simp [EachStep, ht]

theorem everyState_cons_of_step (ht : step s a = some t) :
    EveryState step P s (a :: as) ↔ P s ∧ EveryState step P t as := by
  simp [EveryState, ht]

/-- The first step of a run that ends. -/
theorem exists_step_of_run_cons (h : run step s (a :: as) = some t) :
    ∃ u, step s a = some u ∧ run step u as = some t := by
  simpa [Option.bind_eq_some_iff] using h

/-- The invariant rule: what the initial state satisfies and every admitted step
keeps holds at the end of every run of admitted steps. -/
theorem run_invariant
    (keep : ∀ s a t, Inv s → cond s a → step s a = some t → Inv t)
    (init : Inv s) (each : EachStep step cond s as) (h : run step s as = some t) : Inv t := by
  induction as generalizing s with
  | nil =>
    obtain rfl := Option.some_inj.mp h
    exact init
  | cons a as ih =>
    obtain ⟨u, hu, hrest⟩ := exists_step_of_run_cons h
    obtain ⟨hcond, hrestEach⟩ := (eachStep_cons_of_step hu).mp each
    exact ih (keep s a u init hcond hu) hrestEach hrest

/-- A condition that every step meets. -/
theorem eachStep_of_forall (h : ∀ s a, cond s a) : EachStep step cond s as := by
  induction as generalizing s with
  | nil => trivial
  | cons a as ih =>
    refine ⟨h s a, ?_⟩
    cases step s a with
    | none => trivial
    | some u => exact ih

/-- A condition on the labels alone. -/
theorem eachStep_of_mem {admitted : α → Prop} (h : ∀ a ∈ as, admitted a) :
    EachStep step (fun _ a => admitted a) s as := by
  induction as generalizing s with
  | nil => trivial
  | cons a as ih =>
    refine ⟨h a List.mem_cons_self, ?_⟩
    cases step s a with
    | none => trivial
    | some u => exact ih fun b hb => h b (List.mem_cons_of_mem a hb)

/-- The invariant rule without a condition on the steps. -/
theorem run_keeps (keep : ∀ s a t, Inv s → step s a = some t → Inv t) (init : Inv s)
    (h : run step s as = some t) : Inv t := by
  have each : EachStep step (fun _ _ => True) s as := eachStep_of_forall fun _ _ => trivial
  exact run_invariant (fun s a t hs _ hstep => keep s a t hs hstep) init each h

/-- A run of admitted labels that each lower a measure is no longer than the measure. -/
theorem run_length_add_le {admitted : α → Prop} {μ : σ → ℕ}
    (lower : ∀ s a t, admitted a → step s a = some t → μ t < μ s)
    (each : ∀ a ∈ as, admitted a) (h : run step s as = some t) : as.length + μ t ≤ μ s := by
  induction as generalizing s with
  | nil =>
    obtain rfl := Option.some_inj.mp h
    simp
  | cons a as ih =>
    obtain ⟨u, hu, hrest⟩ := exists_step_of_run_cons h
    have hfirst := lower s a u (each a List.mem_cons_self) hu
    have hlater := ih (fun b hb => each b (List.mem_cons_of_mem a hb)) hrest
    rw [List.length_cons]
    omega

/-- An invariant that also knows whether every step so far met `cond'`. -/
theorem run_history {J : σ → Prop → Prop}
    (keep : ∀ s a t Q, J s Q → cond s a → step s a = some t → J t (Q ∧ cond' s a))
    {Q : Prop} (init : J s Q) (each : EachStep step cond s as) (h : run step s as = some t) :
    J t (Q ∧ EachStep step cond' s as) := by
  induction as generalizing s Q with
  | nil =>
    obtain rfl := Option.some_inj.mp h
    rwa [and_iff_left eachStep_nil]
  | cons a as ih =>
    obtain ⟨u, hu, hrest⟩ := exists_step_of_run_cons h
    obtain ⟨hcond, hrestEach⟩ := (eachStep_cons_of_step hu).mp each
    rw [eachStep_cons_of_step hu, ← and_assoc]
    exact ih (keep s a u Q init hcond hu) hrestEach hrest

/-- Two conditions that an invariant makes equivalent at every admitted step. -/
theorem eachStep_iff {cond₁ cond₂ : σ → α → Prop}
    (keep : ∀ s a t, Inv s → cond s a → step s a = some t → Inv t)
    (heq : ∀ s a, Inv s → cond s a → (cond₁ s a ↔ cond₂ s a))
    (init : Inv s) (each : EachStep step cond s as) :
    EachStep step cond₁ s as ↔ EachStep step cond₂ s as := by
  induction as generalizing s with
  | nil => exact Iff.rfl
  | cons a as ih =>
    refine and_congr (heq s a init each.1) ?_
    cases hstep : step s a with
    | none => exact Iff.rfl
    | some u =>
      exact ih (keep s a u init each.1 hstep) ((eachStep_cons_of_step hstep).mp each).2

/-- Where a step is enabled exactly if it meets `cond`, a run goes through exactly if all its
steps meet it. -/
theorem isSome_run_iff (keep : ∀ s a t, Inv s → step s a = some t → Inv t)
    (enabled : ∀ s a, Inv s → ((step s a).isSome ↔ cond s a)) (init : Inv s) :
    (run step s as).isSome ↔ EachStep step cond s as := by
  induction as generalizing s with
  | nil => exact iff_of_true rfl trivial
  | cons a as ih =>
    rw [run_cons, EachStep, ← enabled s a init]
    cases hstep : step s a with
    | none => simp
    | some u => simpa using ih (keep s a u init hstep)

/-- The invariant rule for every state visited. -/
theorem everyState_of_eachStep
    (keep : ∀ s a t, Inv s → cond s a → cond' s a → step s a = some t → Inv t)
    (good : ∀ s, Inv s → P s) (init : Inv s) (each : EachStep step cond s as)
    (each' : EachStep step cond' s as) : EveryState step P s as := by
  induction as generalizing s with
  | nil => exact good s init
  | cons a as ih =>
    refine ⟨good s init, ?_⟩
    cases hstep : step s a with
    | none => trivial
    | some u =>
      obtain ⟨hcond, hrest⟩ := (eachStep_cons_of_step hstep).mp each
      obtain ⟨hcond', hrest'⟩ := (eachStep_cons_of_step hstep).mp each'
      exact ih (keep s a u init hcond hcond' hstep) hrest hrest'

/-- The invariant rule for every step taken. -/
theorem eachStep_of_invariant {good : σ → α → Prop}
    (keep : ∀ s a t, Inv s → cond s a → cond' s a → step s a = some t → Inv t)
    (holds : ∀ s a, Inv s → cond s a → cond' s a → good s a) (init : Inv s)
    (each : EachStep step cond s as) (each' : EachStep step cond' s as) :
    EachStep step good s as := by
  induction as generalizing s with
  | nil => trivial
  | cons a as ih =>
    refine ⟨holds s a init each.1 each'.1, ?_⟩
    cases hstep : step s a with
    | none => trivial
    | some u =>
      obtain ⟨hcond, hrest⟩ := (eachStep_cons_of_step hstep).mp each
      obtain ⟨hcond', hrest'⟩ := (eachStep_cons_of_step hstep).mp each'
      exact ih (keep s a u init hcond hcond' hstep) hrest hrest'

/-- When an admitted step from a good state leads to a good state exactly if it
meets `cond'`, the runs that stay good are exactly those whose steps all meet
`cond'`. `Inv` carries what the two directions need besides goodness. -/
theorem everyState_iff_eachStep
    (keep : ∀ s a t, Inv s → cond s a → cond' s a → step s a = some t → Inv t)
    (good : ∀ s, Inv s → P s)
    (exact : ∀ s a t, Inv s → cond s a → step s a = some t → P t → cond' s a)
    (init : Inv s) (each : EachStep step cond s as) (h : run step s as = some t) :
    EveryState step P s as ↔ EachStep step cond' s as := by
  induction as generalizing s with
  | nil => exact iff_of_true (good s init) trivial
  | cons a as ih =>
    obtain ⟨u, hu, hrest⟩ := exists_step_of_run_cons h
    obtain ⟨hcond, hrestEach⟩ := (eachStep_cons_of_step hu).mp each
    rw [everyState_cons_of_step hu, eachStep_cons_of_step hu]
    constructor
    · rintro ⟨-, hstates⟩
      -- the successor is good because the rest of the run starts there
      have hu' : P u := by
        cases as with
        | nil => exact hstates
        | cons => exact hstates.1
      have hcond' := exact s a u init hcond hu hu'
      exact ⟨hcond', (ih (keep s a u init hcond hcond' hu) hrestEach hrest).mp hstates⟩
    · rintro ⟨hcond', hsteps⟩
      exact ⟨good s init,
        (ih (keep s a u init hcond hcond' hu) hrestEach hrest).mpr hsteps⟩

/-- One run after another. -/
theorem run_append : run step s (as ++ bs) = (run step s as).bind fun t => run step t bs := by
  induction as generalizing s with
  | nil => rfl
  | cons a as ih =>
    rw [List.cons_append, run_cons, run_cons]
    cases step s a with
    | none => rfl
    | some u => exact ih

end Rules

/-- The rule for refinements: where each step from related states can be followed by some steps of
the other system that show the same, each run is followed by a run that shows the same. -/
theorem run_simulates {τ β γ : Type*} {step : σ → α → Option σ} {step' : τ → β → Option τ}
    {shown : α → Option γ} {shown' : β → Option γ} {R : σ → τ → Prop}
    (sim : ∀ s a u t, R s t → step s a = some u →
      ∃ bs v, run step' t bs = some v ∧ bs.filterMap shown' = [a].filterMap shown ∧ R u v)
    {as : List α} {s u : σ} {t : τ} (hR : R s t) (h : run step s as = some u) :
    ∃ bs v, run step' t bs = some v ∧ bs.filterMap shown' = as.filterMap shown ∧ R u v := by
  induction as generalizing s t with
  | nil =>
    obtain rfl := Option.some_inj.mp h
    exact ⟨[], t, rfl, rfl, hR⟩
  | cons a as ih =>
    obtain ⟨w, hw, hrest⟩ := exists_step_of_run_cons h
    obtain ⟨bs, v, hv, hshown, hRv⟩ := sim s a w t hR hw
    obtain ⟨bs', v', hv', hshown', hRv'⟩ := ih hRv hrest
    refine ⟨bs ++ bs', v', by rw [run_append, hv, Option.bind_some, hv'], ?_, hRv'⟩
    rw [List.filterMap_append, hshown, hshown', ← List.filterMap_append, List.singleton_append]

end SystemDev.Library
