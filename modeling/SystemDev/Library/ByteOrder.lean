import Mathlib.Data.BitVec
import Mathlib.Tactic.IntervalCases

/-!
# Network byte order

`htonl` reverses the four bytes of a word on a little-endian host and is the
identity on a big-endian one. A 64-bit value travels as two such words; the
lemmas on halves let the 64-bit conversions of a program be checked one word at
a time.
-/

namespace SystemDev.Library

/-- The byte order of a host. -/
inductive Endian
  | little
  | big
  deriving DecidableEq

/-- Reverse the bytes of a 32-bit word. -/
def byteSwap32 (x : BitVec 32) : BitVec 32 :=
  (x <<< 24) ||| ((x &&& 0x0000ff00#32) <<< 8) ||| ((x &&& 0x00ff0000#32) >>> 8) ||| (x >>> 24)

theorem byteSwap32_byteSwap32 (x : BitVec 32) : byteSwap32 (byteSwap32 x) = x := by
  apply BitVec.eq_of_getLsbD_eq
  intro i hi
  -- bit `i` goes to byte `3 - i / 8` and back
  interval_cases i <;> simp [byteSwap32]

/-- Host to network order for a 32-bit word. -/
def htonl : Endian → BitVec 32 → BitVec 32
  | .little, x => byteSwap32 x
  | .big, x => x

/-- Network to host order for a 32-bit word. -/
def ntohl (e : Endian) (x : BitVec 32) : BitVec 32 := htonl e x

@[simp] theorem ntohl_htonl (e : Endian) (x : BitVec 32) : ntohl e (htonl e x) = x := by
  cases e with
  | little => exact byteSwap32_byteSwap32 x
  | big => rfl

/-- A word is absent (zero) on the wire exactly when it is absent on the host. -/
@[simp] theorem htonl_eq_zero_iff (e : Endian) (x : BitVec 32) : htonl e x = 0 ↔ x = 0 := by
  have hzero : htonl e 0 = 0 := by cases e <;> decide
  constructor
  · intro h
    rw [← ntohl_htonl e x, h]
    exact hzero
  · rintro rfl
    exact hzero

/-- Two words packed into a 64-bit value, `hi` in the upper half. -/
def packWords (hi lo : BitVec 32) : BitVec 64 := (hi.setWidth 64 <<< 32) ||| lo.setWidth 64

@[simp] theorem packWords_low (hi lo : BitVec 32) : (packWords hi lo).setWidth 32 = lo := by
  apply BitVec.eq_of_getLsbD_eq
  intro i _
  simp [packWords]

@[simp] theorem packWords_high (hi lo : BitVec 32) :
    ((packWords hi lo) >>> 32).setWidth 32 = hi := by
  apply BitVec.eq_of_getLsbD_eq
  intro i _
  simp [packWords]
  grind

@[simp] theorem packWords_halves (x : BitVec 64) :
    packWords ((x >>> 32).setWidth 32) (x.setWidth 32) = x := by
  apply BitVec.eq_of_getLsbD_eq
  intro i _
  simp [packWords]
  grind

/-- Shifting a 64-bit value up and down again keeps its lower word. -/
theorem setWidth_shiftLeft_ushiftRight (x : BitVec 64) :
    ((x <<< 32) >>> 32).setWidth 32 = x.setWidth 32 := by
  apply BitVec.eq_of_getLsbD_eq
  intro i hi
  simp only [BitVec.getLsbD_setWidth, BitVec.getLsbD_ushiftRight, BitVec.getLsbD_shiftLeft]
  grind

/-- Masking the lower word before truncating to it does nothing. -/
theorem setWidth_and_lowMask (x : BitVec 64) :
    (x &&& 0xFFFFFFFF#64).setWidth 32 = x.setWidth 32 := by
  apply BitVec.eq_of_getLsbD_eq
  intro i hi
  interval_cases i <;> simp

end SystemDev.Library
