import Mathlib.Data.Nat.Prime.Basic
import SystemDev.BitOperations.LogFunction
import SystemDev.Octopus.Transfer

/-!
# Chunk sizes other than the default

`CHUNK_SIZE_GB` may be any power of two, says the header. The index of an address is its
upper part and its offset the lower one, cut out by `CHUNK_MASK`. The mask is built from an
`int`: the shift of 1 leaves the value bits of its type from 2 GB on and the type itself
from 4 GB on, where the shift is undefined whatever the compiler promises of overflow.

An expression without a defined value is `none`.

## Main results

* `decomposes_of_mask` — a mask of ones up to the shift decomposes every address
* `decomposes_iff` — the sizes for which the macros do
* `not_decomposes_of_int` — no value of an `int` would do for 4, 8 or 16 GB
-/

namespace SystemDev.Octopus

open SystemDev.BitOperations

/-- `CHUNK_SHIFT` for a chunk size. -/
def chunkShiftOf (sizeGb : ℕ) : ℕ := gbShift + ilog2 (BitVec.ofNat 64 sizeGb)

/-- `1 << shift` on a 32-bit `int`. With `wraps` the compiler gives overflow the meaning of
two's complement; a shift past the width stays undefined. -/
def shiftOne (wraps : Bool) (shift : ℕ) : Option (BitVec 32) :=
  if shift < 31 ∨ (shift = 31 ∧ wraps = true) then some (1 <<< shift) else none

/-- `x - 1` on a 32-bit `int`. -/
def minusOne (wraps : Bool) (x : BitVec 32) : Option (BitVec 32) :=
  if x = BitVec.intMin 32 ∧ wraps = false then none else some (x - 1)

/-- `CHUNK_MASK` for a chunk size, widened to the `uint64_t` it masks. -/
def chunkMaskOf (wraps : Bool) (sizeGb : ℕ) : Option (BitVec 64) :=
  (shiftOne wraps (chunkShiftOf sizeGb)).bind fun x =>
    (minusOne wraps x).map fun m => m.signExtend 64

/-- `start_chunk_index` of an address. -/
def chunkIndexOf (sizeGb : ℕ) (a : BitVec 64) : BitVec 32 :=
  (a >>> chunkShiftOf sizeGb).setWidth 32

/-- The default size gives the shift and the mask of `Transfer`. -/
theorem chunkMaskOf_default (wraps : Bool) :
    chunkShiftOf chunkSizeGb = chunkShift ∧ chunkMaskOf wraps chunkSizeGb = some chunkMask := by
  cases wraps <;> decide

/-- Index and the offset a mask cuts out put the address together again, and both are in
range. -/
def DecomposesWith (sizeGb : ℕ) (mask a : BitVec 64) : Prop :=
  (chunkIndexOf sizeGb a).toNat * sizeGb * 2 ^ 30 + (a &&& mask).toNat = a.toNat ∧
    (a &&& mask).toNat < sizeGb * 2 ^ 30 ∧
    (chunkIndexOf sizeGb a).toNat < maxRemoteMemorySizeGb / sizeGb

/-- The macros have a value and decompose the address. -/
def Decomposes (wraps : Bool) (sizeGb : ℕ) (a : BitVec 64) : Prop :=
  ∃ mask, chunkMaskOf wraps sizeGb = some mask ∧ DecomposesWith sizeGb mask a

/-- The chunk sizes that divide the remote memory. -/
theorem exists_size_eq {sizeGb : ℕ} (hdvd : sizeGb ∣ maxRemoteMemorySizeGb) :
    ∃ k ≤ 5, sizeGb = 2 ^ k :=
  (Nat.dvd_prime_pow Nat.prime_two).mp hdvd

theorem chunkShiftOf_two_pow {k : ℕ} (hk : k ≤ 5) : chunkShiftOf (2 ^ k) = 30 + k := by
  have hlt : 2 ^ k < 2 ^ 64 := Nat.pow_lt_pow_right (by decide) (by omega)
  rw [chunkShiftOf, ilog2_eq_log2, BitVec.toNat_ofNat, Nat.mod_eq_of_lt hlt, Nat.log2_two_pow]
  rfl

section

variable {k : ℕ} {a : BitVec 64}

theorem toNat_chunkIndexOf (hk : k ≤ 5) (ha : a.toNat < maxRemoteMemorySizeGb * 2 ^ 30) :
    (chunkIndexOf (2 ^ k) a).toNat = a.toNat / 2 ^ (30 + k) := by
  have hlt : a.toNat / 2 ^ (30 + k) < 2 ^ 32 :=
    calc a.toNat / 2 ^ (30 + k) ≤ a.toNat / 2 ^ 30 :=
          Nat.div_le_div_left (Nat.pow_le_pow_right (by decide) (by omega)) (by decide)
      _ < maxRemoteMemorySizeGb := (Nat.div_lt_iff_lt_mul (by decide)).mpr ha
      _ ≤ 2 ^ 32 := by decide
  rw [chunkIndexOf, chunkShiftOf_two_pow hk, BitVec.toNat_setWidth, BitVec.toNat_ushiftRight,
    Nat.shiftRight_eq_div_pow, Nat.mod_eq_of_lt hlt]

/-- A mask of ones up to the shift decomposes every address. -/
theorem decomposes_of_mask {mask : BitVec 64} (hk : k ≤ 5)
    (hmask : mask.toNat = 2 ^ (30 + k) - 1) (ha : a.toNat < maxRemoteMemorySizeGb * 2 ^ 30) :
    DecomposesWith (2 ^ k) mask a := by
  have hshift : 2 ^ k * 2 ^ 30 = 2 ^ (30 + k) := by rw [← pow_add, add_comm]
  have hoffset : (a &&& mask).toNat = a.toNat % 2 ^ (30 + k) := by
    rw [BitVec.toNat_and, hmask, Nat.and_two_pow_sub_one_eq_mod]
  have hdvd : 2 ^ k ∣ maxRemoteMemorySizeGb := Nat.pow_dvd_pow 2 hk
  rw [DecomposesWith, toNat_chunkIndexOf hk ha, hoffset, mul_assoc, hshift]
  refine ⟨Nat.div_add_mod' _ _, Nat.mod_lt _ (Nat.two_pow_pos _), ?_⟩
  rw [Nat.div_lt_iff_lt_mul (Nat.two_pow_pos _), ← hshift, ← mul_assoc, Nat.div_mul_cancel hdvd]
  exact ha

/-- The value of the mask: defined up to 1 GB, up to 2 GB if overflow wraps. -/
theorem chunkMaskOf_eq_none (wraps : Bool) (hk : k ≤ 5) (hbad : ¬ (k = 0 ∨ k = 1 ∧ wraps = true)) :
    chunkMaskOf wraps (2 ^ k) = none := by
  have hundefined : ¬ (30 + k < 31 ∨ 30 + k = 31 ∧ wraps = true) := by
    rintro (hlt | ⟨heq, hwraps⟩)
    · exact hbad (Or.inl (by omega))
    · exact hbad (Or.inr ⟨by omega, hwraps⟩)
  rw [chunkMaskOf, chunkShiftOf_two_pow hk, shiftOne, if_neg hundefined]
  rfl

theorem decomposes_two_pow_iff (wraps : Bool) (hk : k ≤ 5)
    (ha : a.toNat < maxRemoteMemorySizeGb * 2 ^ 30) :
    Decomposes wraps (2 ^ k) a ↔ k = 0 ∨ k = 1 ∧ wraps = true := by
  constructor
  · rintro ⟨mask, hmask, -⟩
    by_contra hbad
    rw [chunkMaskOf_eq_none wraps hk hbad] at hmask
    cases hmask
  · rintro (rfl | ⟨rfl, rfl⟩)
    · exact ⟨chunkMask, (chunkMaskOf_default wraps).2, decomposes_of_mask hk (by decide) ha⟩
    · exact ⟨0x7fffffff, by decide, decomposes_of_mask hk (by decide) ha⟩

/-- The macros decompose the addresses of the remote memory for chunks of 1 GB, for chunks of
2 GB if overflow wraps, and for no other size. -/
theorem decomposes_iff (wraps : Bool) {sizeGb : ℕ}
    (hsize : sizeGb.isPowerOfTwo ∧ sizeGb ∣ maxRemoteMemorySizeGb)
    (ha : a.toNat < maxRemoteMemorySizeGb * 2 ^ 30) :
    Decomposes wraps sizeGb a ↔ sizeGb = 1 ∨ (sizeGb = 2 ∧ wraps = true) := by
  obtain ⟨k, hk, rfl⟩ := exists_size_eq hsize.2
  have hone : 2 ^ k = 1 ↔ k = 0 := by simp
  have htwo : 2 ^ k = 2 ↔ k = 1 := Nat.pow_eq_self_iff (by decide)
  rw [decomposes_two_pow_iff wraps hk ha, hone, htwo]

/-- The last byte of the remote memory, with chunks of 2 GB and overflow that wraps. -/
theorem decomposes_last_byte : Decomposes true 2 0x7ffffffff :=
  (decomposes_iff true ⟨⟨1, rfl⟩, by decide⟩ (by decide)).mpr (Or.inr ⟨rfl, rfl⟩)

/-- A mask takes a single bit or drops it. -/
theorem toNat_bit_and (mask : BitVec 64) {i : ℕ} (hi : i < 64) :
    (1#64 <<< i &&& mask).toNat = if mask.getLsbD i then 2 ^ i else 0 := by
  rw [BitVec.and_comm, ← BitVec.twoPow_eq, BitVec.and_twoPow]
  split_ifs
  · rw [BitVec.toNat_twoPow_eq_ite, if_pos hi]
  · rfl

/-- Whatever a compiler makes of the shift, as an `int` it has no bit above the sign or all of
them: one of these two addresses is not decomposed. -/
theorem not_decomposes_of_int (hlow : 2 ≤ k) (hk : k ≤ 4) (m : BitVec 32) :
    ¬ (DecomposesWith (2 ^ k) (m.signExtend 64) (1#64 <<< 31) ∧
      DecomposesWith (2 ^ k) (m.signExtend 64) (1#64 <<< (30 + k))) := by
  rintro ⟨⟨hsum, -, -⟩, -, hoffset, -⟩
  have hindex : (chunkIndexOf (2 ^ k) (1#64 <<< 31)).toNat = 0 := by
    rw [toNat_chunkIndexOf (by omega) (by decide)]
    have hlt : 2 ^ 31 < 2 ^ (30 + k) := Nat.pow_lt_pow_right (by decide) (by omega)
    exact Nat.div_eq_of_lt hlt
  have hsign : m.msb = true := by
    by_contra hclear
    have hbit : (m.signExtend 64).getLsbD 31 = false := by
      rw [BitVec.getLsbD_signExtend]
      simpa [BitVec.msb_eq_getLsbD_last] using hclear
    rw [hindex, toNat_bit_and _ (by decide), hbit, zero_mul, zero_mul] at hsum
    exact absurd hsum (by decide)
  have hbit : (m.signExtend 64).getLsbD (30 + k) = true := by
    rw [BitVec.getLsbD_signExtend, if_neg (by omega), hsign]
    simp only [Bool.and_true, decide_eq_true_eq]
    omega
  rw [toNat_bit_and _ (by omega), if_pos hbit, ← pow_add, add_comm k] at hoffset
  exact lt_irrefl _ hoffset

/-- Chunks of 4 GB: the mask is undefined, and no `int` in its place decomposes both the
middle of the first chunk and the start of the second. -/
theorem not_decomposes_four_gb :
    (4).isPowerOfTwo ∧ 4 ∣ maxRemoteMemorySizeGb ∧
      (0x100000000#64).toNat < maxRemoteMemorySizeGb * 2 ^ 30 ∧
      (∀ wraps, ¬ Decomposes wraps 4 0x100000000) ∧
      ∀ m : BitVec 32, ¬ (DecomposesWith 4 (m.signExtend 64) 0x80000000#64 ∧
        DecomposesWith 4 (m.signExtend 64) 0x100000000#64) := by
  have hmiddle : 1#64 <<< 31 = 0x80000000#64 := by decide
  have hsecond : 1#64 <<< (30 + 2) = 0x100000000#64 := by decide
  refine ⟨⟨2, rfl⟩, by decide, by decide, fun wraps h => ?_, fun m => ?_⟩
  · obtain hk | ⟨hk, -⟩ := (decomposes_two_pow_iff (k := 2) wraps (by decide) (by decide)).mp h
    · cases hk
    · cases hk
  · rw [← hmiddle, ← hsecond]
    exact not_decomposes_of_int (k := 2) (by decide) (by decide) m

end

end SystemDev.Octopus
