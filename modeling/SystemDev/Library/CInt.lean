import Mathlib.Algebra.Group.Int.Defs
import Mathlib.Algebra.Group.Nat.Defs
import Mathlib.Data.Int.Basic

/-!
# The values of a C `int`

A counter of type `int` is kept as an integer. `wrapInt` is what 32-bit arithmetic
leaves of an exact result, and `IsInt` says that the exact result is what it leaves.
-/

namespace SystemDev.Library

/-- The range of a 32-bit `int`. -/
def IsInt (x : ℤ) : Prop :=
  -2 ^ 31 ≤ x ∧ x < 2 ^ 31

instance (x : ℤ) : Decidable (IsInt x) :=
  inferInstanceAs (Decidable (_ ∧ _))

/-- The 32-bit result of a computation whose exact result is `x`. -/
def wrapInt (x : ℤ) : ℤ :=
  x.bmod (2 ^ 32)

theorem isInt_wrapInt (x : ℤ) : IsInt (wrapInt x) :=
  ⟨Int.le_bmod (by decide), Int.bmod_lt (by decide)⟩

theorem wrapInt_of_isInt {x : ℤ} (h : IsInt x) : wrapInt x = x :=
  Int.bmod_eq_of_le h.1 h.2

@[simp] theorem wrapInt_eq_self_iff {x : ℤ} : wrapInt x = x ↔ IsInt x := by
  constructor
  · intro h
    rw [← h]
    exact isInt_wrapInt x
  · exact wrapInt_of_isInt

/-- Only the last of several additions has to be reduced. -/
@[simp] theorem wrapInt_wrapInt_add (x y : ℤ) : wrapInt (wrapInt x + y) = wrapInt (x + y) :=
  Int.bmod_add_bmod

/-- A result that is off by less than `2 ^ 32` was not reduced. -/
theorem eq_of_wrapInt_eq {x y : ℤ} (h : wrapInt x = y) (hlow : -2 ^ 32 < x - y)
    (hhigh : x - y < 2 ^ 32) : x = y := by
  have hmod := Int.bmod_eq_self_sub_mul_bdiv x (2 ^ 32)
  rw [wrapInt] at h
  omega

end SystemDev.Library
