import Mathlib.Data.Nat.Digits.Lemmas
import SystemDev.Library.ByteOrder

/-!
# Words read byte by byte

A word is stored as bytes in the order of the host. A reader that puts the most significant
byte first and shifts the bytes in one after the other gets the word back, and the top bits of
the word are those of that first byte.
-/

namespace SystemDev.Library

/-- The value of bytes stored in the order of the host. -/
def hostWord : Endian → List UInt8 → ℕ
  | .little, bytes => Nat.ofDigits 256 (bytes.map UInt8.toNat)
  | .big, bytes => Nat.ofDigits 256 (bytes.reverse.map UInt8.toNat)

/-- Shift one more byte into a word. -/
def shiftIn (v : BitVec 64) (b : UInt8) : BitVec 64 := (v <<< 8) + b.toBitVec.setWidth 64

theorem toNat_shiftIn {v : BitVec 64} (hv : v.toNat < 2 ^ 56) (b : UInt8) :
    (shiftIn v b).toNat = v.toNat * 256 + b.toNat := by
  have hb : b.toNat < 256 := b.toNat_lt
  have hshift : (v <<< 8).toNat = v.toNat * 256 := by
    rw [BitVec.toNat_shiftLeft, Nat.shiftLeft_eq, Nat.mod_eq_of_lt (by omega)]
  have hbyte : (b.toBitVec.setWidth 64).toNat = b.toNat := by
    rw [BitVec.toNat_setWidth]
    exact Nat.mod_eq_of_lt (by simpa using hb.trans (by decide))
  rw [shiftIn, BitVec.toNat_add, hshift, hbyte, Nat.mod_eq_of_lt (by omega)]

theorem ofDigits_reverse_cons (b : UInt8) (bs : List UInt8) :
    Nat.ofDigits 256 ((b :: bs).reverse.map UInt8.toNat) =
      Nat.ofDigits 256 (bs.reverse.map UInt8.toNat) + 256 ^ bs.length * b.toNat := by
  rw [List.reverse_cons, List.map_append, Nat.ofDigits_append]
  simp

/-- Bytes shifted in from the most significant on are the digits of the word. -/
theorem toNat_foldl_shiftIn (bs : List UInt8) (v : BitVec 64)
    (hroom : (v.toNat + 1) * 256 ^ bs.length ≤ 2 ^ 64) :
    (bs.foldl shiftIn v).toNat =
      v.toNat * 256 ^ bs.length + Nat.ofDigits 256 (bs.reverse.map UInt8.toNat) := by
  induction bs generalizing v with
  | nil => simp
  | cons b bs ih =>
    have hb : b.toNat < 256 := b.toNat_lt
    have hpow : 1 ≤ 256 ^ bs.length := Nat.one_le_pow _ _ (by decide)
    rw [List.length_cons, pow_succ'] at hroom
    have hv : v.toNat < 2 ^ 56 := by nlinarith
    have hnext := toNat_shiftIn hv b
    rw [List.foldl_cons, ih _ ?_, hnext, ofDigits_reverse_cons, List.length_cons, pow_succ']
    · ring
    · calc ((shiftIn v b).toNat + 1) * 256 ^ bs.length
          ≤ ((v.toNat + 1) * 256) * 256 ^ bs.length := by
            refine Nat.mul_le_mul_right _ ?_
            omega
        _ ≤ 2 ^ 64 := by rwa [mul_assoc]

/-- The top bits of a word are those of its most significant byte. -/
theorem testBit_ofDigits_reverse (b : UInt8) (bs : List UInt8) (k : ℕ) :
    (Nat.ofDigits 256 ((b :: bs).reverse.map UInt8.toNat)).testBit (8 * bs.length + k) =
      b.toNat.testBit k := by
  have hlow : Nat.ofDigits 256 (bs.reverse.map UInt8.toNat) < 2 ^ (8 * bs.length) := by
    have hdigits : ∀ d ∈ bs.reverse.map UInt8.toNat, d < 256 := by
      intro d hd
      obtain ⟨b, -, rfl⟩ := List.mem_map.mp hd
      exact b.toNat_lt
    have hlt := Nat.ofDigits_lt_base_pow_length (by decide : 1 < 256) hdigits
    simpa [pow_mul] using hlt
  have hpow : 256 ^ bs.length = 2 ^ (8 * bs.length) := by
    rw [pow_mul]
    norm_num
  rw [ofDigits_reverse_cons, hpow, add_comm, Nat.testBit_two_pow_mul_add _ hlow,
    if_neg (by omega), Nat.add_sub_cancel_left]

end SystemDev.Library
