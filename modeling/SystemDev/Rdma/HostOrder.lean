import SystemDev.Rdma.Message

/-!
# The byte order macros with their casts

Client and server share a macro `ntohll` that passes each half of a 64-bit value through
`int` on its way into `ntohl`. Here the casts are written out: a word may become a negative
number, and comes back as the same word before it is widened.

## Main results

* `ntohllMacro_eq` — the casts do nothing
* `byteOrder_roundTrip` — what one side sends is what the other reads
-/

namespace SystemDev.Rdma

open SystemDev.Library

/-- The cast `(int)x` of an unsigned 64-bit value. -/
def castInt (x : BitVec 64) : ℤ := (x.setWidth 32).toInt

/-- `ntohl` on an `int` argument, which is converted to `uint32_t`. -/
def ntohlOfInt (e : Endian) (i : ℤ) : BitVec 32 := ntohl e (BitVec.ofInt 32 i)

/-- The body of the macro `ntohll`. Both results of `ntohl` are unsigned, so that widening
them fills with zeros. -/
def ntohllMacro (e : Endian) (x : BitVec 64) : BitVec 64 :=
  ((ntohlOfInt e (castInt ((x <<< 32) >>> 32))).setWidth 64 <<< 32) |||
    (ntohlOfInt e (castInt (x >>> 32))).setWidth 64

/-- The client's macro `ntohll`. -/
def clientNtohll : Endian → BitVec 64 → BitVec 64 := ntohllMacro

/-- The client's macro `htonll`, defined as `ntohll(x)`. -/
def clientHtonll : Endian → BitVec 64 → BitVec 64 := clientNtohll

/-- The server's macro `ntohll`. -/
def serverNtohll : Endian → BitVec 64 → BitVec 64 := ntohllMacro

/-- A word that went through `int` is the same word. -/
@[simp] theorem ntohlOfInt_castInt (e : Endian) (x : BitVec 64) :
    ntohlOfInt e (castInt x) = ntohl e (x.setWidth 32) := by
  rw [ntohlOfInt, castInt, BitVec.ofInt_toInt]

theorem ntohllMacro_eq (e : Endian) (x : BitVec 64) : ntohllMacro e x = ntohll e x := by
  rw [ntohllMacro, ntohlOfInt_castInt, ntohlOfInt_castInt]
  rfl

/-- The macro is its own inverse. -/
theorem ntohll_ntohll (e : Endian) (x : BitVec 64) : ntohll e (ntohll e x) = x := by
  have hself (y : BitVec 32) : ntohl e (ntohl e y) = y := ntohl_htonl e y
  rw [ntohll_eq, ntohll_eq, packWords_low, packWords_high, hself, hself, packWords_halves]

/-- Addresses and keys survive the way from either side to the other, a key is marked on the
wire exactly if it is marked on the host, and each half of what the macro returns depends on
one half of its argument alone. -/
theorem byteOrder_roundTrip (a : BitVec 64) (r : BitVec 32) :
    clientNtohll .little (htonll .little a) = a ∧
      ntohl .little (htonl .little r) = r ∧
      (htonl .little r ≠ 0 ↔ r ≠ 0) ∧
      serverNtohll .little (clientHtonll .little a) = a ∧
      ((clientNtohll .little a) >>> 32).setWidth 32 = ntohl .little (a.setWidth 32) ∧
      (clientNtohll .little a).setWidth 32 = ntohl .little ((a >>> 32).setWidth 32) := by
  have hclient (x : BitVec 64) : clientNtohll .little x = ntohll .little x := ntohllMacro_eq _ x
  refine ⟨?_, ntohl_htonl _ r, not_congr (htonl_eq_zero_iff _ r), ?_, ?_, ?_⟩
  · rw [hclient, ntohll_htonll]
  · rw [clientHtonll, hclient, serverNtohll, ntohllMacro_eq, ntohll_ntohll]
  · rw [hclient, ntohll_eq, packWords_high]
  · rw [hclient, ntohll_eq, packWords_low]

end SystemDev.Rdma
