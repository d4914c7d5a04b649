import SystemDev.Library.ByteOrder

/-!
# The two-sided message of the remote memory protocol

Client and server exchange one fixed record (`struct message`): an address and a
remote key per chunk position, a size in GB, and a type. Addresses and keys travel
in network order. The server converts with a function of its own (`htonll`), the
client with a macro (`ntohll`); both split the value into two 32-bit words.
-/

namespace SystemDev.Rdma

open SystemDev.Library

/-- `enum message_type`. The two programs name the second and third member after
their own role: `SEND_CHUNKS` at the server is `GOT_CHUNKS` at the client. -/
inductive MessageType
  | done
  | sendChunks
  | sendSingleChunk
  | freeSize
  | evict
  | activity
  | stop
  | requestChunks
  | requestSingleChunk
  | query
  deriving DecidableEq

/-- `struct message`, with `n` chunk positions (`MAX_MR_SIZE_GB` at the server,
`MAX_REMOTE_MEMORY_SIZE_GB/CHUNK_SIZE_GB` at the client). -/
@[ext]
structure Message (n : ℕ) where
  buf : Fin n → BitVec 64
  rkey : Fin n → BitVec 32
  sizeGb : ℤ
  type : MessageType

/-- The server's `htonll`, which tests the byte order of the host at run time. -/
def htonll (e : Endian) (value : BitVec 64) : BitVec 64 :=
  match e with
  | .little =>
    ((htonl e ((value &&& 0xFFFFFFFF#64).setWidth 32)).setWidth 64 <<< 32) |||
      (htonl e ((value >>> 32).setWidth 32)).setWidth 64
  | .big => value

/-- The client's macro `ntohll`. The casts to `int` only reinterpret a word that
`ntohl` takes and returns as unsigned. -/
def ntohll (e : Endian) (x : BitVec 64) : BitVec 64 :=
  ((ntohl e (((x <<< 32) >>> 32).setWidth 32)).setWidth 64 <<< 32) |||
    (ntohl e ((x >>> 32).setWidth 32)).setWidth 64

theorem htonll_little (a : BitVec 64) :
    htonll .little a =
      packWords (htonl .little (a.setWidth 32)) (htonl .little ((a >>> 32).setWidth 32)) := by
  rw [htonll, setWidth_and_lowMask]
  rfl

theorem ntohll_eq (e : Endian) (x : BitVec 64) :
    ntohll e x = packWords (ntohl e (x.setWidth 32)) (ntohl e ((x >>> 32).setWidth 32)) := by
  rw [ntohll, setWidth_shiftLeft_ushiftRight]
  rfl

/-- The client's macro undoes the server's function on little-endian hosts. -/
@[simp] theorem ntohll_htonll (a : BitVec 64) : ntohll .little (htonll .little a) = a := by
  simp [ntohll_eq, htonll_little]

end SystemDev.Rdma
