import Mathlib.Data.BitVec
import Mathlib.Order.Bounds.Basic

/-!
# Integer logarithms of words

Two ways to find the highest set bit of a word: count how often it can be halved, or test
its bits from the top. Both give `Nat.log2`.
-/

namespace SystemDev.Library

variable {w : ℕ}

/-- Halve `num` until it is zero and count in `power`, at most `fuel` times round. -/
def shiftCount : ℕ → BitVec w → BitVec w → Option (BitVec w)
  | 0, _, _ => none
  | fuel + 1, num, power =>
    if num >>> 1 ≠ 0 then shiftCount fuel (num >>> 1) (power + 1) else some power

theorem toNat_ushiftRight_one (num : BitVec w) : (num >>> 1).toNat = num.toNat / 2 := by
  rw [BitVec.toNat_ushiftRight, Nat.shiftRight_eq_div_pow, pow_one]

/-- The loop ends with the logarithm added to the counter. -/
theorem shiftCount_eq (fuel : ℕ) (num power : BitVec w) (hfuel : num.toNat.log2 < fuel) :
    shiftCount fuel num power = some (power + BitVec.ofNat w num.toNat.log2) := by
  induction fuel generalizing num power with
  | zero => exact absurd hfuel (Nat.not_lt_zero _)
  | succ fuel ih =>
    rw [shiftCount]
    have hhalf := toNat_ushiftRight_one num
    by_cases hzero : num >>> 1 = 0
    · have hsmall : num.toNat.log2 = 0 := by
        have hnil : (num >>> 1).toNat = 0 := by simp [hzero]
        rw [Nat.log2_def, if_neg (by omega)]
      rw [if_neg (not_not.mpr hzero), hsmall]
      simp
    · have hlog : num.toNat.log2 = (num >>> 1).toNat.log2 + 1 := by
        have hpos : (num >>> 1).toNat ≠ 0 := fun h =>
          hzero (BitVec.eq_of_toNat_eq (by simpa using h))
        rw [Nat.log2_def, if_pos (by omega), hhalf]
      rw [if_pos hzero, ih _ _ (by omega), hlog, BitVec.ofNat_add, BitVec.add_assoc,
        BitVec.add_comm 1]
      rfl

/-- Bits tested from the top: the first set one in a descending list that has the logarithm. -/
theorem find?_testBit_eq_log2 {n : ℕ} (hn : n ≠ 0) {bits : List ℕ}
    (hdesc : bits.Pairwise (· > ·)) (hmem : n.log2 ∈ bits) :
    bits.find? (n.testBit ·) = some n.log2 := by
  induction bits with
  | nil => cases hmem
  | cons i bits ih =>
    obtain ⟨habove, hdesc⟩ := List.pairwise_cons.mp hdesc
    rcases List.mem_cons.mp hmem with rfl | hmem
    · exact List.find?_cons_of_pos (Nat.testBit_log2 hn)
    · have hclear : n.testBit i = false := by
        refine Nat.testBit_lt_two_pow (lt_of_lt_of_le Nat.lt_log2_self ?_)
        exact Nat.pow_le_pow_right (by decide) (habove _ hmem)
      rw [List.find?_cons_of_neg (by simp [hclear])]
      exact ih hdesc hmem

/-- The logarithm is the largest exponent of a power below the number. -/
theorem isGreatest_log2 {n : ℕ} (hn : n ≠ 0) : IsGreatest {p | 2 ^ p ≤ n} n.log2 :=
  ⟨Nat.log2_self_le hn, fun _ hp => (Nat.le_log2 hn).mpr hp⟩

end SystemDev.Library
