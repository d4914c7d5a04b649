import Mathlib.Data.Nat.Notation
import Mathlib.Logic.Relation
import Mathlib.Order.Basic

/-!
# Paths of bounded length

A linear transitive closure is computed in rounds, each of which puts one more edge in front of the
paths known so far. After `n` rounds it has the pairs with a path of one to `n + 1` edges; a round
that adds nothing ends it, since no later round can add anything either.
-/

namespace SystemDev.Library

open Relation

variable {α : Type*} {r : α → α → Prop} {n m : ℕ} {x z : α}

/-- Some path of at least one and at most `n + 1` edges leads from `x` to `z`. -/
def Within (r : α → α → Prop) : ℕ → α → α → Prop
  | 0, x, z => r x z
  | n + 1, x, z => Within r n x z ∨ ∃ y, r x y ∧ Within r n y z

theorem Within.transGen (h : Within r n x z) : TransGen r x z := by
  induction n generalizing x with
  | zero => exact .single h
  | succ n ih =>
    rcases h with h | ⟨y, hxy, hyz⟩
    · exact ih h
    · exact .head hxy (ih hyz)

theorem Within.mono (h : Within r n x z) (hnm : n ≤ m) : Within r m x z := by
  induction hnm with
  | refl => exact h
  | step _ ih => exact Or.inl ih

/-- A round that adds nothing has found every pair with a path. -/
theorem within_of_stable (hstable : ∀ x z, Within r (n + 1) x z → Within r n x z)
    (h : TransGen r x z) : Within r n x z := by
  induction h using TransGen.head_induction_on with
  | single h => exact Within.mono (n := 0) h (Nat.zero_le n)
  | head hxy _ ih => exact hstable _ _ (Or.inr ⟨_, hxy, ih⟩)

end SystemDev.Library
