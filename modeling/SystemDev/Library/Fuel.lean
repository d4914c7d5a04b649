import Mathlib.Data.List.Basic

/-!
# Computations that settle

A loop that is not known to end takes its turns from a fuel. It settles when every fuel above some
bound gives one and the same result, so that the bound is no part of the result.
-/

namespace SystemDev.Library

variable {σ τ α : Type*} {k n : ℕ} {f : ℕ → Option σ} {P Q : σ → Prop} {s : σ}

/-- Every fuel above `k` gives the same result, and `P` holds of it. -/
def Settles (k : ℕ) (f : ℕ → Option σ) (P : σ → Prop) : Prop :=
  ∃ s, (∀ fuel, k < fuel → f fuel = some s) ∧ P s

theorem Settles.pure (h : P s) : Settles k (fun _ => some s) P :=
  ⟨s, fun _ _ => rfl, h⟩

theorem Settles.mono (h : Settles k f P) (hPQ : ∀ s, P s → Q s) : Settles k f Q := by
  obtain ⟨s, hs, hP⟩ := h
  exact ⟨s, hs, hPQ s hP⟩

theorem Settles.of_le {j : ℕ} (h : Settles j f P) (hjk : j ≤ k) : Settles k f P := by
  obtain ⟨s, hs, hP⟩ := h
  exact ⟨s, fun fuel hfuel => hs fuel (Nat.lt_of_le_of_lt hjk hfuel), hP⟩

theorem Settles.congr {g : ℕ → Option σ} (h : Settles k g P)
    (heq : ∀ fuel, k < fuel → f fuel = g fuel) : Settles k f P := by
  obtain ⟨s, hs, hP⟩ := h
  refine ⟨s, fun fuel hfuel => ?_, hP⟩
  rw [heq fuel hfuel, hs fuel hfuel]

theorem Settles.bind {g : ℕ → σ → Option τ} {R : τ → Prop} (h : Settles k f P)
    (hg : ∀ s, P s → Settles k (fun fuel => g fuel s) R) :
    Settles k (fun fuel => (f fuel).bind (g fuel)) R := by
  obtain ⟨s, hs, hP⟩ := h
  obtain ⟨t, ht, hR⟩ := hg s hP
  refine ⟨t, fun fuel hfuel => ?_, hR⟩
  dsimp only
  rw [hs fuel hfuel, Option.bind_some]
  exact ht fuel hfuel

/-- The rule for counting loops that need no fuel. -/
theorem foldl_range {f : σ → ℕ → σ} {P : ℕ → σ → Prop} (h : P 0 s)
    (step : ∀ i < n, ∀ s, P i s → P (i + 1) (f s i)) : P n ((List.range n).foldl f s) := by
  induction n with
  | zero => exact h
  | succ n ih =>
    rw [List.range_succ, List.foldl_append]
    apply step n (Nat.lt_succ_self n)
    exact ih fun i hi => step i (Nat.lt_succ_of_lt hi)

section Loop

variable {f : ℕ → σ → α → Option σ} {P : List α → σ → Prop} {l : List α}

/-- The rule for loops over a list. The invariant speaks about the elements already visited. -/
theorem Settles.foldlM (h : P [] s)
    (step : ∀ done a rest s, l = done ++ a :: rest → P done s →
      Settles k (fun fuel => f fuel s a) (P (done ++ [a]))) :
    Settles k (fun fuel => l.foldlM (f fuel) s) (P l) := by
  suffices hfrom : ∀ rest done s, l = done ++ rest → P done s →
      Settles k (fun fuel => rest.foldlM (f fuel) s) (P l) from hfrom l [] s rfl h
  intro rest
  induction rest with
  | nil =>
    intro done s hl hP
    rw [hl, List.append_nil]
    exact Settles.pure hP
  | cons a rest ih =>
    intro done s hl hP
    refine Settles.bind (step done a rest s hl hP) fun s' hs' => ih (done ++ [a]) s' ?_ hs'
    rw [hl, List.append_assoc]
    rfl

/-- The rule for counting loops. -/
theorem Settles.foldlM_range {f : ℕ → σ → ℕ → Option σ} {P : ℕ → σ → Prop} (h : P 0 s)
    (step : ∀ i < n, ∀ s, P i s → Settles k (fun fuel => f fuel s i) (P (i + 1))) :
    Settles k (fun fuel => (List.range n).foldlM (f fuel) s) (P n) := by
  have hloop : Settles k (fun fuel => (List.range n).foldlM (f fuel) s)
      fun s => P (List.range n).length s := by
    refine Settles.foldlM (P := fun done s => P done.length s) h fun done i rest s hl hP => ?_
    -- the element visited after `done` is its length
    have hi : (List.range n)[done.length]? = some i := by
      rw [hl, List.getElem?_append_right Nat.le.refl, Nat.sub_self]
      rfl
    obtain ⟨hlt, hi⟩ := List.getElem?_eq_some_iff.mp hi
    rw [List.getElem_range] at hi
    rw [List.length_range] at hlt
    subst hi
    rw [List.length_append]
    exact step _ hlt s hP
  rwa [List.length_range] at hloop

end Loop

end SystemDev.Library
