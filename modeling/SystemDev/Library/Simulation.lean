import Mathlib.Data.List.Basic

/-!
# Machines that answer

A machine takes a call to a new state and an answer, or does not take it. One machine simulates
another if it gives the same answers to every sequence of calls the other takes. The relation
between the states may speak about the calls still to come, for a bound on their number.
-/

namespace SystemDev.Library

variable {σ τ α β : Type*}

/-- Make the calls in order and collect the answers. -/
def runAnswers (step : σ → α → Option (σ × β)) : σ → List α → Option (σ × List β)
  | s, [] => some (s, [])
  | s, a :: as => (step s a).bind fun r =>
      (runAnswers step r.1 as).map fun r' => (r'.1, r.2 :: r'.2)

/-- The rule for simulations: each call taken by the specification is taken with the same
answer. -/
theorem runAnswers_simulates {spec : τ → α → Option (τ × β)} {step : σ → α → Option (σ × β)}
    {R : List α → σ → τ → Prop}
    (sim : ∀ a as s t t' b, R (a :: as) s t → spec t a = some (t', b) →
      ∃ s', step s a = some (s', b) ∧ R as s' t')
    {as : List α} {s : σ} {t t' : τ} {bs : List β} (h : R as s t)
    (hrun : runAnswers spec t as = some (t', bs)) :
    ∃ s', runAnswers step s as = some (s', bs) ∧ R [] s' t' := by
  induction as generalizing s t bs with
  | nil =>
    cases hrun
    exact ⟨s, rfl, h⟩
  | cons a as ih =>
    obtain ⟨⟨u, b⟩, hstep, hrest⟩ := Option.bind_eq_some_iff.mp hrun
    obtain ⟨⟨v, bs'⟩, hlater, heq⟩ := Option.map_eq_some_iff.mp hrest
    cases heq
    obtain ⟨s', hs', hR⟩ := sim a as s t u b h hstep
    obtain ⟨s'', hs'', hend⟩ := ih hR hlater
    refine ⟨s'', ?_, hend⟩
    rw [runAnswers, hs', Option.bind_some, hs'']
    rfl

/-- A machine that takes every call answers every sequence of them. -/
theorem runAnswers_total (step : σ → α → σ × β) (s : σ) (as : List α) :
    ∃ r, runAnswers (fun s a => some (step s a)) s as = some r := by
  induction as generalizing s with
  | nil => exact ⟨_, rfl⟩
  | cons a as ih =>
    obtain ⟨r, hr⟩ := ih (step s a).1
    exact ⟨(r.1, (step s a).2 :: r.2), by rw [runAnswers, Option.bind_some, hr]; rfl⟩

end SystemDev.Library
