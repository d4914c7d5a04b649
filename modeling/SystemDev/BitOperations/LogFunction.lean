import SystemDev.Library.Logarithm

/-!
# The two logarithms of the test cases

`power_of_2` counts halvings, the macro `ilog2` tests one bit after the other from the top.
The kernel client keeps a copy of the first to find its chunk shift, the Octopus client
takes the second.

## Main results

* `powerOf2_eq_log2`, `ilog2_eq_log2` — both are the integer logarithm
* `powerOf2_eq_ilog2` — they agree on every word, and the copy with them
-/

namespace SystemDev

open SystemDev.Library

namespace KernelLevel

/-- `power_of_2` of the kernel client's header, at most `fuel` times round its loop. -/
def powerOf2 (fuel : ℕ) (num : BitVec 64) : Option (BitVec 64) := shiftCount fuel num 0

end KernelLevel

namespace BitOperations

/-- `power_of_2`, at most `fuel` times round its loop. -/
def powerOf2 (fuel : ℕ) (num : BitVec 64) : Option (BitVec 64) := shiftCount fuel num 0

/-- The bits `ilog2` tests, in the order of its cascade. -/
def cascade : List ℕ :=
  [63, 62, 61, 60, 59, 58, 57, 56, 55, 54, 53, 52, 51, 50, 49, 48, 47, 46, 45, 44, 43, 42,
   41, 40, 39, 38, 37, 36, 35, 34, 33, 32, 31, 30, 29, 28, 27, 26, 25, 24, 23, 22, 21, 20,
   19, 18, 17, 16, 15, 14, 13, 12, 11, 10, 9, 8, 7, 6, 5, 4, 3, 2]

/-- The macro `ilog2` on an unsigned 64-bit argument. -/
def ilog2 (n : BitVec 64) : ℕ :=
  if n < 2 then 0
  else (cascade.find? fun i => n &&& (1#64 <<< i) ≠ 0).getD 1

theorem log2_toNat_lt (n : BitVec 64) : n.toNat.log2 < 64 := by
  by_cases hzero : n.toNat = 0
  · simp [hzero]
  · exact (Nat.log2_lt hzero).mpr n.isLt

/-- 64 turns are enough for any word. -/
theorem powerOf2_eq_log2 {fuel : ℕ} (hfuel : 64 ≤ fuel) (n : BitVec 64) :
    powerOf2 fuel n = some (BitVec.ofNat 64 n.toNat.log2) := by
  have hlog := log2_toNat_lt n
  rw [powerOf2, shiftCount_eq fuel n 0 (by omega)]
  simp

/-- What a line of the cascade tests is a bit of the number. -/
theorem and_shiftLeft_ne_zero_iff (n : BitVec 64) (i : ℕ) :
    n &&& (1#64 <<< i) ≠ 0 ↔ n.toNat.testBit i = true := by
  rw [← BitVec.twoPow_eq, BitVec.and_twoPow, ← BitVec.getLsbD]
  cases hbit : n.getLsbD i with
  | false => simp
  | true =>
    have hi : i < 64 := BitVec.lt_of_getLsbD hbit
    have hpow : (BitVec.twoPow 64 i).toNat ≠ 0 := by
      rw [BitVec.toNat_twoPow_eq_ite, if_pos hi]
      exact (Nat.two_pow_pos i).ne'
    simp only [if_true, iff_true]
    exact fun h => hpow (by rw [h]; rfl)

theorem cascade_find? (n : BitVec 64) :
    (cascade.find? fun i => n &&& (1#64 <<< i) ≠ 0) = cascade.find? (n.toNat.testBit ·) := by
  congr 1
  funext i
  simp only [and_shiftLeft_ne_zero_iff, Bool.decide_eq_true]

theorem mem_cascade_iff (i : ℕ) : i ∈ cascade ↔ 2 ≤ i ∧ i < 64 := by
  constructor
  · have hall : ∀ i ∈ cascade, 2 ≤ i ∧ i < 64 := by decide
    exact hall i
  · rintro ⟨hlow, hhigh⟩
    have hall : ∀ i : Fin 64, 2 ≤ (i : ℕ) → (i : ℕ) ∈ cascade := by decide
    exact hall ⟨i, hhigh⟩ hlow

theorem ilog2_eq_log2 (n : BitVec 64) : ilog2 n = n.toNat.log2 := by
  have hlt := log2_toNat_lt n
  rw [ilog2]
  split_ifs with hsmall
  · have hnat : n.toNat < 2 := hsmall
    rw [Nat.log2_def, if_neg (by omega)]
  · have hlarge : 2 ≤ n.toNat := not_lt.mp hsmall
    have hne : n.toNat ≠ 0 := by omega
    have hpos : 1 ≤ n.toNat.log2 := (Nat.le_log2 hne).mpr hlarge
    rw [cascade_find?]
    by_cases hone : n.toNat.log2 = 1
    · -- below bit 2 the cascade falls through to its last value
      have hnone : cascade.find? (n.toNat.testBit ·) = none := by
        refine List.find?_eq_none.mpr fun i hi => ?_
        have hbound : n.toNat < 2 ^ 2 := by simpa [hone] using Nat.lt_log2_self (n := n.toNat)
        have hi2 := ((mem_cascade_iff i).mp hi).1
        simp [Nat.testBit_lt_two_pow (hbound.trans_le (Nat.pow_le_pow_right (by decide) hi2))]
      rw [hnone, hone]
      rfl
    · have hmem : n.toNat.log2 ∈ cascade := (mem_cascade_iff _).mpr ⟨by omega, hlt⟩
      rw [find?_testBit_eq_log2 hne (by decide) hmem]
      rfl

/-- The loop ends on every word and agrees with the cascade; both give the largest power of
two below a positive number, and the kernel client's copy gives it too. -/
theorem powerOf2_eq_ilog2 (n : BitVec 64) :
    ∃ p : BitVec 64,
      (∀ fuel, 64 ≤ fuel → powerOf2 fuel n = some p) ∧
      p.toNat = ilog2 n ∧
      (1 ≤ n.toNat → IsGreatest {q | 2 ^ q ≤ n.toNat} (ilog2 n)) ∧
      (n = 0 → ilog2 n = 0) ∧
      ∀ fuel, KernelLevel.powerOf2 fuel n = powerOf2 fuel n := by
  have hlt := log2_toNat_lt n
  refine ⟨BitVec.ofNat 64 n.toNat.log2, fun fuel hfuel => powerOf2_eq_log2 hfuel n, ?_, ?_, ?_,
    fun _ => rfl⟩
  · rw [ilog2_eq_log2, BitVec.toNat_ofNat]
    exact Nat.mod_eq_of_lt (by omega)
  · intro hpos
    rw [ilog2_eq_log2]
    exact isGreatest_log2 (by omega)
  · rintro rfl
    rfl

end BitOperations

end SystemDev
