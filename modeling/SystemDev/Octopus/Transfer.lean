import Mathlib.Tactic.IntervalCases
import SystemDev.Library.Probe
import SystemDev.Octopus.ChunkList

/-!
# From block requests to one-sided RDMA work requests

`rmem_queue_rq` hands a block request to `transfer_requet_to_rdma_message`, which finds
the remote chunk of its first byte and posts one `RDMA_WRITE` or `RDMA_READ` on it. A
request that leaves the chunk of its first byte is cut: the driver takes a page per
physical segment instead of the length of the request and posts that much if it ends in
the same chunk.

The scan for a free command drops the lock between its looks, so completions may free commands
and other submitters may take them meanwhile. `looks n` is the queue as its `n`-th look finds it,
and the looks that a call gets are a fuel. A function that has not returned, because the scan is
still going around or because it reads outside the chunk table, is `none`.

## Main results

* `transferRequetToRdmaMessage_eq_some_iff` — the translation past its chunk check
* `transfer_exact_iff` — when the translation is exact
* `submission_balanced_iff` — when a submission leaves the driver balanced
* `posted_fits_buffer_iff` — when what is posted fits the registered buffer
-/

namespace SystemDev.Octopus

open SystemDev.Library

/-- `PAGE_SIZE`. -/
def pageSize : ℕ := 4096

/-- `RMEM_PHY_SECT_SIZE`, equal to `RMEM_LOGICAL_SECT_SIZE`. -/
def rmemPhySectSize : ℕ := 512

/-- `RMEM_LOGICAL_SECT_SHIFT`. -/
def rmemLogicalSectShift : ℕ := Nat.log2 rmemPhySectSize

/-- `GB_SHIFT`. -/
def gbShift : ℕ := 30

/-- `CHUNK_SHIFT`. -/
def chunkShift : ℕ := gbShift + Nat.log2 chunkSizeGb

/-- `CHUNK_MASK`. -/
def chunkMask : BitVec 64 := (1 <<< chunkShift) - 1

/-- `RMEM_SIZE_IN_PHY_SECT`, the capacity of the disk in sectors. -/
def rmemSizeInPhySect : ℕ := 2 ^ 30 / rmemPhySectSize * maxRemoteMemorySizeGb

/-- What the driver reads of a block request: `blk_rq_pos`, `blk_rq_bytes`, the two segment
counts and the direction. `tag` tells requests apart. -/
structure Request where
  tag : ℕ
  write : Bool
  pos : BitVec 64
  bytes : BitVec 32
  nrPhysSegments : BitVec 16
  bioPhysSegments : BitVec 16
  deriving DecidableEq

/-- The two opcodes of one-sided work requests. -/
inductive RdmaOpcode
  | rdmaWrite
  | rdmaRead
  deriving DecidableEq

/-- `struct ib_rdma_wr` with the length of its only scatter-gather entry. -/
structure IbRdmaWr where
  opcode : RdmaOpcode
  rkey : BitVec 32
  remoteAddr : BitVec 64
  length : BitVec 32
  deriving DecidableEq

/-- `struct rmem_rdma_command`; `freeState` is true for `free_state = 1`. -/
structure RmemRdmaCommand where
  freeState : Bool
  ioRq : Option Request
  rdmaSqWr : IbRdmaWr
  deriving DecidableEq

/-- The commands of a `struct rmem_rdma_queue` of the given depth. -/
abbrev RmemRdmaQueue (depth : ℕ) := Fin depth → RmemRdmaCommand

/-- `RMEM_QUEUE_DEPTH`. -/
def rmemQueueDepth : ℕ := 16

/-- A queue as `init_rdma_command_list` leaves it. -/
def initRdmaCommandList (depth : ℕ) : RmemRdmaQueue depth := fun _ =>
  { freeState := true, ioRq := none, rdmaSqWr := ⟨.rdmaWrite, 0, 0, 0⟩ }

/-- A work request on the send queue; `cmd` is the command its `wr_id` points to. -/
structure PostedWr (depth : ℕ) where
  cmd : Fin depth
  wr : IbRdmaWr
  deriving DecidableEq

/-- What a submission returns and leaves behind. `found` is the queue that it starts from: the
queue at the moment of the take, or at its entry when it takes no command. -/
structure Submitted (depth : ℕ) where
  ret : ℤ
  found : RmemRdmaQueue depth
  queue : RmemRdmaQueue depth
  posted : List (PostedWr depth)

variable {depth : ℕ}

/-- The scan of `get_a_free_rdma_cmd_from_rdma_q`: the look that succeeds, and the command it
takes. It starts from the first command and goes around until one is free; it never returns
`NULL`. -/
def getAFreeRdmaCmdFromRdmaQ (fuel : ℕ) (looks : ℕ → RmemRdmaQueue depth) :
    Option (ℕ × Fin depth) :=
  if h : 0 < depth then probeAlong (fun n k => (looks n k).freeState) fuel 0 ⟨0, h⟩ else none

/-- `post_rdma_write` and `post_rdma_read`, which differ in the opcode. `post` is what
`ib_post_send` returns. Its failure leaves the command taken. -/
def postRdma (opcode : RdmaOpcode) (fuel : ℕ) (post : ℤ) (looks : ℕ → RmemRdmaQueue depth)
    (rq : Request) (chunk : RemoteMappingChunk) (offsetWithinChunk len : BitVec 64) :
    Option (Submitted depth) :=
  if chunk.chunkState ≠ .mapped then some ⟨-1, looks 0, looks 0, []⟩
  else
    (getAFreeRdmaCmdFromRdmaQ fuel looks).map fun (n, k) =>
      let wr : IbRdmaWr :=
        ⟨opcode, chunk.remoteRkey, chunk.remoteAddr + offsetWithinChunk, len.setWidth 32⟩
      let q := Function.update (looks n) k ⟨false, some rq, wr⟩
      if post ≠ 0 then ⟨post, looks n, q, []⟩ else ⟨post, looks n, q, [⟨k, wr⟩]⟩

/-- `post_rdma_write`. -/
def postRdmaWrite (fuel : ℕ) (post : ℤ) (looks : ℕ → RmemRdmaQueue depth) (rq : Request)
    (chunk : RemoteMappingChunk) (offsetWithinChunk len : BitVec 64) : Option (Submitted depth) :=
  postRdma .rdmaWrite fuel post looks rq chunk offsetWithinChunk len

/-- `post_rdma_read`. -/
def postRdmaRead (fuel : ℕ) (post : ℤ) (looks : ℕ → RmemRdmaQueue depth) (rq : Request)
    (chunk : RemoteMappingChunk) (offsetWithinChunk len : BitVec 64) : Option (Submitted depth) :=
  postRdma .rdmaRead fuel post looks rq chunk offsetWithinChunk len

/-- `start_addr`. -/
def Request.startAddr (rq : Request) : BitVec 64 := rq.pos <<< rmemLogicalSectShift

/-- `start_chunk_index`. -/
def Request.startChunkIndex (rq : Request) : BitVec 32 := (rq.startAddr >>> chunkShift).setWidth 32

/-- `end_chunk_index` of the request as it came. -/
def Request.endChunkIndex (rq : Request) : BitVec 32 :=
  ((rq.startAddr + rq.bytes.setWidth 64 - 1) >>> chunkShift).setWidth 32

/-- `offset_within_chunk`. -/
def Request.offsetWithinChunk (rq : Request) : BitVec 64 := rq.startAddr &&& chunkMask

/-- The length a crossing request is reset to. -/
def Request.resetLen (rq : Request) : BitVec 64 :=
  rq.nrPhysSegments.setWidth 64 * BitVec.ofNat 64 pageSize

/-- `end_chunk_index` after the reset. -/
def Request.resetEndChunkIndex (rq : Request) : BitVec 32 :=
  ((rq.startAddr + rq.resetLen) >>> chunkShift).setWidth 32

/-- `transfer_requet_to_rdma_message`. -/
def transferRequetToRdmaMessage (fuel : ℕ) (post : ℤ) (remoteChunk : List RemoteMappingChunk)
    (looks : ℕ → RmemRdmaQueue depth) (rq : Request) : Option (Submitted depth) :=
  -- the second test is made with the reset length, and without the `- 1` of the first
  if rq.startChunkIndex ≠ rq.endChunkIndex ∧ rq.startChunkIndex ≠ rq.resetEndChunkIndex then
    some ⟨-1, looks 0, looks 0, []⟩
  else
    -- the reset length stays in place for the post
    let bytesLen :=
      if rq.startChunkIndex ≠ rq.endChunkIndex then rq.resetLen else rq.bytes.setWidth 64
    remoteChunk[rq.startChunkIndex.toNat]?.bind fun chunk =>
      if rq.write then postRdmaWrite fuel post looks rq chunk rq.offsetWithinChunk bytesLen
      else postRdmaRead fuel post looks rq chunk rq.offsetWithinChunk bytesLen

/-- The return value of `rmem_queue_rq`, what its submission found and left behind, and the
preemption-disable depth after it. -/
structure Queued (depth : ℕ) where
  ret : ℤ
  found : RmemRdmaQueue depth
  queue : RmemRdmaQueue depth
  posted : List (PostedWr depth)
  preempt : ℕ

/-- `BLK_MQ_RQ_QUEUE_OK`. -/
def blkMqRqQueueOk : ℤ := 0

/-- `rmem_queue_rq`: `get_cpu` raises the preemption-disable depth, and only the success
path lowers it again. -/
def rmemQueueRq (fuel : ℕ) (post : ℤ) (remoteChunk : List RemoteMappingChunk)
    (looks : ℕ → RmemRdmaQueue depth) (rq : Request) (preempt : ℕ) : Option (Queued depth) :=
  (transferRequetToRdmaMessage fuel post remoteChunk looks rq).map fun r =>
    -- the error path has no `put_cpu`
    if r.ret ≠ 0 then ⟨-1, r.found, r.queue, r.posted, preempt + 1⟩
    else ⟨blkMqRqQueueOk, r.found, r.queue, r.posted, preempt + 1 - 1⟩

/-! ### The translation -/

/-- The opcode for the direction of a request. -/
def Request.opcode (rq : Request) : RdmaOpcode := if rq.write then .rdmaWrite else .rdmaRead

/-- The request leaves the chunk of its first byte. -/
def Request.Crosses (rq : Request) : Prop := rq.startChunkIndex ≠ rq.endChunkIndex

/-- It still does so with the length it is reset to. -/
def Request.ResetCrosses (rq : Request) : Prop := rq.startChunkIndex ≠ rq.resetEndChunkIndex

instance (rq : Request) : Decidable rq.Crosses := inferInstanceAs (Decidable (_ ≠ _))

instance (rq : Request) : Decidable rq.ResetCrosses := inferInstanceAs (Decidable (_ ≠ _))

/-- The length that is posted. -/
def Request.postedLen (rq : Request) : BitVec 64 :=
  if rq.Crosses then rq.resetLen else rq.bytes.setWidth 64

section Translation

variable {fuel : ℕ} {post : ℤ} {remoteChunk : List RemoteMappingChunk}
  {looks : ℕ → RmemRdmaQueue depth} {rq : Request}

theorem transferRequetToRdmaMessage_of_crosses (h : rq.Crosses ∧ rq.ResetCrosses) :
    transferRequetToRdmaMessage fuel post remoteChunk looks rq =
      some ⟨-1, looks 0, looks 0, []⟩ :=
  if_pos h

theorem transferRequetToRdmaMessage_of_post (h : ¬ (rq.Crosses ∧ rq.ResetCrosses)) :
    transferRequetToRdmaMessage fuel post remoteChunk looks rq =
      remoteChunk[rq.startChunkIndex.toNat]?.bind fun chunk =>
        postRdma rq.opcode fuel post looks rq chunk rq.offsetWithinChunk rq.postedLen := by
  refine (if_neg h).trans (congrArg (Option.bind _) (funext fun chunk => ?_))
  cases hw : rq.write with
  | false => simp only [Request.opcode, hw, Bool.false_eq_true, if_false]; rfl
  | true => simp only [Request.opcode, hw, if_true]; rfl

/-- The work request built for a chunk. -/
def Request.builtWr (rq : Request) (chunk : RemoteMappingChunk) : IbRdmaWr :=
  ⟨rq.opcode, chunk.remoteRkey, chunk.remoteAddr + rq.offsetWithinChunk,
    rq.postedLen.setWidth 32⟩

/-- A look of the scan, which goes around the queue, meets a free command. -/
def MeetsFree (looks : ℕ → RmemRdmaQueue depth) : Prop :=
  ∃ n, ∃ h : 0 < depth, (looks n ⟨n % depth, Nat.mod_lt n h⟩).freeState = true

theorem free_of_getAFreeRdmaCmdFromRdmaQ {n : ℕ} {k : Fin depth}
    (h : getAFreeRdmaCmdFromRdmaQ fuel looks = some (n, k)) : (looks n k).freeState = true := by
  rw [getAFreeRdmaCmdFromRdmaQ] at h
  split_ifs at h with hdepth
  exact free_of_probeAlong h

/-- The scan ends if and only if a look meets a free command. -/
theorem exists_getAFreeRdmaCmdFromRdmaQ_iff :
    (∃ fuel r, getAFreeRdmaCmdFromRdmaQ fuel looks = some r) ↔ MeetsFree looks := by
  by_cases hdepth : 0 < depth
  · simp only [getAFreeRdmaCmdFromRdmaQ, hdepth, dite_true, exists_probeAlong_iff, MeetsFree,
      cycleFrom, Nat.zero_add, exists_true_left]
  · simp only [getAFreeRdmaCmdFromRdmaQ, hdepth, dite_false, MeetsFree, IsEmpty.exists_iff,
      exists_false, reduceCtorEq]

theorem meetsFree_of_getAFreeRdmaCmdFromRdmaQ {r : ℕ × Fin depth}
    (h : getAFreeRdmaCmdFromRdmaQ fuel looks = some r) : MeetsFree looks :=
  exists_getAFreeRdmaCmdFromRdmaQ_iff.mp ⟨fuel, r, h⟩

/-- What a submission on a mapped chunk leaves behind when its scan takes command `k` at look
`n`. -/
def Request.submitted (rq : Request) (post : ℤ) (looks : ℕ → RmemRdmaQueue depth)
    (chunk : RemoteMappingChunk) (n : ℕ) (k : Fin depth) : Submitted depth :=
  ⟨post, looks n, Function.update (looks n) k ⟨false, some rq, rq.builtWr chunk⟩,
    if post ≠ 0 then [] else [⟨k, rq.builtWr chunk⟩]⟩

/-- Everything a translation past its chunk check can do: it reads outside the table, the chunk is
not mapped, or it waits for a command and gets as far as `ib_post_send`. -/
theorem transferRequetToRdmaMessage_eq_some_iff (h : ¬ (rq.Crosses ∧ rq.ResetCrosses))
    {r : Submitted depth} :
    transferRequetToRdmaMessage fuel post remoteChunk looks rq = some r ↔
      ∃ chunk, remoteChunk[rq.startChunkIndex.toNat]? = some chunk ∧
        ((chunk.chunkState ≠ .mapped ∧ r = ⟨-1, looks 0, looks 0, []⟩) ∨
          (chunk.chunkState = .mapped ∧ ∃ n k,
            getAFreeRdmaCmdFromRdmaQ fuel looks = some (n, k) ∧
              r = rq.submitted post looks chunk n k)) := by
  rw [transferRequetToRdmaMessage_of_post h, Option.bind_eq_some_iff]
  refine exists_congr fun chunk => and_congr_right fun _ => ?_
  rw [postRdma]
  by_cases hmapped : chunk.chunkState = .mapped
  · rw [if_neg (not_not.mpr hmapped), Option.map_eq_some_iff]
    simp only [hmapped, ne_eq, not_true, false_and, false_or, true_and, Prod.exists]
    refine exists_congr fun n => exists_congr fun k => and_congr_right fun _ => ?_
    rw [eq_comm, Request.submitted]
    by_cases hpost : post = 0
    · simp only [hpost, ne_eq, not_true, if_false]
      exact Iff.rfl
    · simp only [hpost, ne_eq, not_false_eq_true, if_true]
      exact Iff.rfl
  · simp [hmapped, eq_comm]

end Translation

/-! ### Addresses inside the capacity -/

/-- A nonempty request inside the capacity of the disk. -/
structure Request.InCapacity (rq : Request) : Prop where
  pos_bytes : 0 < rq.bytes.toNat
  within : rq.pos.toNat * 512 + rq.bytes.toNat ≤ rmemSizeInPhySect * 512

theorem rmemSizeInPhySect_eq : rmemSizeInPhySect = 67108864 := rfl

theorem chunkShift_eq : chunkShift = 30 := by decide

theorem Request.InCapacity.toNat_startAddr {rq : Request} (h : rq.InCapacity) :
    rq.startAddr.toNat = rq.pos.toNat * 512 := by
  have hwithin := h.within
  have hshift : rmemLogicalSectShift = 9 := by decide
  rw [rmemSizeInPhySect_eq] at hwithin
  rw [Request.startAddr, BitVec.toNat_shiftLeft, hshift, Nat.shiftLeft_eq]
  omega

theorem Request.InCapacity.toNat_startChunkIndex {rq : Request} (h : rq.InCapacity) :
    rq.startChunkIndex.toNat = rq.pos.toNat * 512 / 2 ^ 30 := by
  have hwithin := h.within
  rw [rmemSizeInPhySect_eq] at hwithin
  rw [Request.startChunkIndex, BitVec.toNat_setWidth, BitVec.toNat_ushiftRight, h.toNat_startAddr,
    chunkShift_eq, Nat.shiftRight_eq_div_pow]
  omega

theorem Request.InCapacity.toNat_endChunkIndex {rq : Request} (h : rq.InCapacity) :
    rq.endChunkIndex.toNat = (rq.pos.toNat * 512 + rq.bytes.toNat - 1) / 2 ^ 30 := by
  have hwithin := h.within
  have hpos := h.pos_bytes
  rw [rmemSizeInPhySect_eq] at hwithin
  have hlast : (rq.startAddr + rq.bytes.setWidth 64 - 1).toNat =
      rq.pos.toNat * 512 + rq.bytes.toNat - 1 := by
    -- below the capacity the 64-bit sum does not wrap
    rw [BitVec.toNat_sub, BitVec.toNat_add, h.toNat_startAddr, BitVec.toNat_setWidth]
    have : (1 : BitVec 64).toNat = 1 := by decide
    rw [this]
    omega
  rw [Request.endChunkIndex, BitVec.toNat_setWidth, BitVec.toNat_ushiftRight, hlast,
    chunkShift_eq, Nat.shiftRight_eq_div_pow]
  omega

theorem Request.InCapacity.toNat_offsetWithinChunk {rq : Request} (h : rq.InCapacity) :
    rq.offsetWithinChunk.toNat = rq.pos.toNat * 512 % 2 ^ 30 := by
  have hmask : chunkMask.toNat = 2 ^ 30 - 1 := by
    rw [chunkMask, chunkShift_eq]
    decide
  rw [Request.offsetWithinChunk, BitVec.toNat_and, h.toNat_startAddr, hmask,
    Nat.and_two_pow_sub_one_eq_mod]

/-- A request crosses when its bytes do not fit behind its offset. -/
theorem Request.InCapacity.crosses_iff {rq : Request} (h : rq.InCapacity) :
    rq.Crosses ↔ 2 ^ 30 < rq.pos.toNat * 512 % 2 ^ 30 + rq.bytes.toNat := by
  have hpos := h.pos_bytes
  rw [Request.Crosses, ne_eq, ← BitVec.toNat_inj, h.toNat_startChunkIndex, h.toNat_endChunkIndex]
  omega

/-! ### Exactness -/

/-- A work request that transfers exactly the bytes of the request: on the chunk `k`
that holds its first byte, at its offset, with its length, direction and key. -/
def Request.ExactWr (rq : Request) (remoteChunk : List RemoteMappingChunk) (wr : IbRdmaWr) :
    Prop :=
  ∃ k off chunk, remoteChunk[k]? = some chunk ∧ k * 2 ^ 30 + off = rq.pos.toNat * 512 ∧
    off + rq.bytes.toNat ≤ 2 ^ 30 ∧ wr.opcode = rq.opcode ∧ wr.rkey = chunk.remoteRkey ∧
    wr.remoteAddr = chunk.remoteAddr + BitVec.ofNat 64 off ∧ wr.length.toNat = rq.bytes.toNat

/-- Exactly one exact work request is posted, or an error is returned and none is. -/
def Request.ExactTransfer (rq : Request) (remoteChunk : List RemoteMappingChunk)
    (outcome : Option (Submitted depth)) : Prop :=
  ∃ r, outcome = some r ∧
    ((∃ p, r.posted = [p] ∧ rq.ExactWr remoteChunk p.wr) ∨ (r.ret ≠ 0 ∧ r.posted = []))

/-- Every chunk the request touches is in the table and mapped. -/
def Request.FallsInMapped (rq : Request) (remoteChunk : List RemoteMappingChunk) : Prop :=
  ∀ k, rq.pos.toNat * 512 / 2 ^ 30 ≤ k → k ≤ (rq.pos.toNat * 512 + rq.bytes.toNat - 1) / 2 ^ 30 →
    ∃ chunk, remoteChunk[k]? = some chunk ∧ chunk.chunkState = .mapped

/-- What is built for a request inside one chunk is exact, and only then. -/
theorem Request.InCapacity.exactWr_builtWr_iff {rq : Request} (h : rq.InCapacity)
    {remoteChunk : List RemoteMappingChunk} {chunk : RemoteMappingChunk}
    (hchunk : remoteChunk[rq.startChunkIndex.toNat]? = some chunk) :
    rq.ExactWr remoteChunk (rq.builtWr chunk) ↔ ¬ rq.Crosses := by
  rw [h.crosses_iff]
  constructor
  · -- an exact work request leaves only one choice for the chunk and the offset
    rintro ⟨k, off, chunk', -, hsplit, hfits, -⟩
    have hpos := h.pos_bytes
    omega
  · intro hfits
    have hlen : rq.postedLen = rq.bytes.setWidth 64 := if_neg (by rwa [h.crosses_iff])
    refine ⟨rq.startChunkIndex.toNat, rq.offsetWithinChunk.toNat, chunk, hchunk, ?_, ?_, rfl, rfl,
      ?_, ?_⟩
    · rw [h.toNat_startChunkIndex, h.toNat_offsetWithinChunk]
      omega
    · rw [h.toNat_offsetWithinChunk]
      omega
    · simp [Request.builtWr]
    · have hbound := rq.bytes.isLt
      rw [Request.builtWr, hlen, BitVec.toNat_setWidth, BitVec.toNat_setWidth]
      omega

theorem Request.InCapacity.exists_chunk {rq : Request} (h : rq.InCapacity)
    {remoteChunk : List RemoteMappingChunk} (hmapped : rq.FallsInMapped remoteChunk) :
    ∃ chunk, remoteChunk[rq.startChunkIndex.toNat]? = some chunk ∧ chunk.chunkState = .mapped := by
  have hpos := h.pos_bytes
  refine hmapped rq.startChunkIndex.toNat (by rw [h.toNat_startChunkIndex]) ?_
  rw [h.toNat_startChunkIndex]
  omega

/-- What a submission on a mapped chunk leaves behind is exact if and only if the request stays in
one chunk or the send queue refuses it. -/
theorem Request.InCapacity.exactTransfer_submitted_iff {rq : Request} (h : rq.InCapacity)
    {post : ℤ} {remoteChunk : List RemoteMappingChunk} {looks : ℕ → RmemRdmaQueue depth}
    {chunk : RemoteMappingChunk} (hchunk : remoteChunk[rq.startChunkIndex.toNat]? = some chunk)
    (n : ℕ) (k : Fin depth) :
    rq.ExactTransfer remoteChunk (some (rq.submitted post looks chunk n k)) ↔
      ¬ rq.Crosses ∨ post ≠ 0 := by
  by_cases hpost : post = 0
  -- the post succeeds, so what was built is on the wire
  · rw [or_iff_left (not_not.mpr hpost), ← h.exactWr_builtWr_iff hchunk]
    constructor
    · rintro ⟨r, hr, hposted⟩
      obtain rfl := Option.some_inj.mp hr
      rcases hposted with ⟨p, hp, hexact⟩ | ⟨hret, -⟩
      · simp only [Request.submitted, hpost, ne_eq, not_true, if_false, List.cons.injEq,
          and_true] at hp
        subst hp
        exact hexact
      · exact absurd hpost hret
    · intro hexact
      exact ⟨_, rfl, Or.inl ⟨_, if_neg (not_not.mpr hpost), hexact⟩⟩
  -- the send queue refuses it, whatever was built
  · exact iff_of_true ⟨_, rfl, Or.inr ⟨hpost, if_pos hpost⟩⟩ (Or.inr hpost)

/-- The translation returns and is exact if and only if the request is refused by the chunk check,
or the scan meets a free command and the request stays in one chunk or the send queue refuses
it. -/
theorem transfer_exact_iff (post : ℤ) (remoteChunk : List RemoteMappingChunk)
    (looks : ℕ → RmemRdmaQueue depth) (rq : Request) (hcap : rq.InCapacity)
    (hmapped : rq.FallsInMapped remoteChunk) :
    (∃ fuel, rq.ExactTransfer remoteChunk
        (transferRequetToRdmaMessage fuel post remoteChunk looks rq)) ↔
      (rq.Crosses ∧ rq.ResetCrosses) ∨ (MeetsFree looks ∧ (¬ rq.Crosses ∨ post ≠ 0)) := by
  by_cases herr : rq.Crosses ∧ rq.ResetCrosses
  · refine iff_of_true
      ⟨0, _, transferRequetToRdmaMessage_of_crosses herr, Or.inr ⟨by simp, rfl⟩⟩ (Or.inl herr)
  · obtain ⟨chunk, hchunk, hstate⟩ := hcap.exists_chunk hmapped
    rw [or_iff_right herr]
    constructor
    · rintro ⟨fuel, r, hr, hexact⟩
      obtain ⟨c, hc, hcase⟩ := (transferRequetToRdmaMessage_eq_some_iff herr).mp hr
      obtain rfl := Option.some_inj.mp (hchunk.symm.trans hc)
      rcases hcase with ⟨hnot, -⟩ | ⟨-, n, k, htake, rfl⟩
      · exact absurd hstate hnot
      · exact ⟨meetsFree_of_getAFreeRdmaCmdFromRdmaQ htake,
          (hcap.exactTransfer_submitted_iff hchunk n k).mp ⟨_, rfl, hexact⟩⟩
    · rintro ⟨hfree, hcond⟩
      obtain ⟨fuel, ⟨n, k⟩, htake⟩ := exists_getAFreeRdmaCmdFromRdmaQ_iff.mpr hfree
      have hr : transferRequetToRdmaMessage fuel post remoteChunk looks rq =
          some (rq.submitted post looks chunk n k) :=
        (transferRequetToRdmaMessage_eq_some_iff herr).mpr
          ⟨chunk, hchunk, Or.inr ⟨hstate, n, k, htake, rfl⟩⟩
      refine ⟨fuel, ?_⟩
      rw [hr]
      exact (hcap.exactTransfer_submitted_iff hchunk n k).mpr hcond

/-- A table of two mapped chunks. -/
def twoChunks : List RemoteMappingChunk :=
  [⟨5, 0x7f0000000000, .mapped⟩, ⟨6, 0x7f0040000000, .mapped⟩]

theorem fallsInMapped_twoChunks {rq : Request}
    (h : rq.pos.toNat * 512 + rq.bytes.toNat ≤ 2 ^ 31) : rq.FallsInMapped twoChunks := by
  intro k _ hk
  have hk2 : k < 2 := by omega
  interval_cases k
  · exact ⟨_, rfl, rfl⟩
  · exact ⟨_, rfl, rfl⟩

/-- The first page of the disk. -/
def pageWrite : Request where
  tag := 0
  write := true
  pos := 0
  bytes := 4096
  nrPhysSegments := 1
  bioPhysSegments := 1

/-- A full queue whose last command is freed while the scan is going around for the second time,
and which nobody else takes. -/
def freedLater : ℕ → RmemRdmaQueue rmemQueueDepth := fun n k =>
  { freeState := decide (20 ≤ n ∧ k.val = 15), ioRq := none, rdmaSqWr := ⟨.rdmaWrite, 0, 0, 0⟩ }

theorem transfer_exact_iff_pageWrite :
    (∀ k, (freedLater 0 k).freeState = false) ∧
      ∃ fuel, pageWrite.ExactTransfer twoChunks
        (transferRequetToRdmaMessage fuel 0 twoChunks freedLater pageWrite) :=
  ⟨by decide, (transfer_exact_iff 0 twoChunks freedLater pageWrite ⟨by decide, by decide⟩
    (fallsInMapped_twoChunks (by decide))).mpr
    (Or.inr ⟨⟨31, by decide, by decide⟩, Or.inl (by decide)⟩)⟩

/-- Four pages in one physical segment, of which three lie before a chunk boundary. -/
def crossingWrite : Request where
  tag := 0
  write := true
  pos := 2097128
  bytes := 16384
  nrPhysSegments := 1
  bioPhysSegments := 1

/-- The translation posts one page of the four and returns success. -/
theorem transfer_not_exact_crossingWrite :
    let looks : ℕ → RmemRdmaQueue rmemQueueDepth := fun _ => initRdmaCommandList rmemQueueDepth
    crossingWrite.InCapacity ∧ crossingWrite.FallsInMapped twoChunks ∧
      (transferRequetToRdmaMessage 1 0 twoChunks looks crossingWrite).map
        (fun r => (r.ret, r.posted.map fun p => p.wr.length.toNat)) = some (0, [4096]) ∧
      ¬ ∃ fuel, crossingWrite.ExactTransfer twoChunks
        (transferRequetToRdmaMessage fuel 0 twoChunks looks crossingWrite) := by
  intro looks
  refine ⟨⟨by decide, by decide⟩, fallsInMapped_twoChunks (by decide), by decide, ?_⟩
  rintro ⟨fuel, hexact⟩
  cases fuel with
  | zero =>
    -- without a look the scan has not returned
    obtain ⟨r, hr, -⟩ := hexact
    have hnone : transferRequetToRdmaMessage 0 0 twoChunks looks crossingWrite = none := by
      decide
    rw [hnone] at hr
    cases hr
  | succ fuel =>
    -- the first look finds a free command, so further looks change nothing
    have hrun : (transferRequetToRdmaMessage (fuel + 1) 0 twoChunks looks crossingWrite).map
        (fun r => (r.ret, r.posted.map fun p => p.wr.length.toNat)) = some (0, [4096]) := by
      rfl
    obtain ⟨r, hr, hposted⟩ := hexact
    rw [hr, Option.map_some, Option.some_inj, Prod.mk.injEq] at hrun
    obtain ⟨hret, hlen⟩ := hrun
    rcases hposted with ⟨p, hp, k, off, chunk, -, -, -, -, -, -, hbytes⟩ | ⟨hne, -⟩
    · rw [hp, List.map_singleton, List.singleton_inj, hbytes] at hlen
      exact absurd hlen (by decide)
    · exact hne hret

/-! ### A failed submission -/

/-- After an error the commands, the send queue and the preemption depth are as the call found
them; after success one work request is posted and one free command has become occupied by the
request. -/
structure Queued.Balanced (rq : Request) (preempt : ℕ) (r : Queued depth) : Prop where
  failed : r.ret ≠ blkMqRqQueueOk →
    (∀ k, (r.queue k).freeState = (r.found k).freeState ∧ (r.queue k).ioRq = (r.found k).ioRq) ∧
      r.posted = [] ∧ r.preempt = preempt
  queued : r.ret = blkMqRqQueueOk → ∃ k wr, r.posted = [⟨k, wr⟩] ∧ (r.found k).freeState = true ∧
    r.queue k = ⟨false, some rq, wr⟩ ∧ (∀ j, j ≠ k → r.queue j = r.found j) ∧ r.preempt = preempt

/-- None of the failure points of a submission is reached: the chunk check passes, the
chunk that is looked up is mapped, and a work request that gets a command is posted. -/
def Request.Succeeds (rq : Request) (post : ℤ) (remoteChunk : List RemoteMappingChunk)
    (looks : ℕ → RmemRdmaQueue depth) : Prop :=
  ¬ (rq.Crosses ∧ rq.ResetCrosses) ∧
    ∀ chunk, remoteChunk[rq.startChunkIndex.toNat]? = some chunk →
      chunk.chunkState = .mapped ∧ (MeetsFree looks → post = 0)

section Submission

variable {post : ℤ} {remoteChunk : List RemoteMappingChunk} {looks : ℕ → RmemRdmaQueue depth}
  {rq : Request} {preempt : ℕ}

/-- An error return always leaves the preemption depth raised. -/
theorem not_balanced_of_error {fuel : ℕ} {r : Submitted depth}
    (hr : transferRequetToRdmaMessage fuel post remoteChunk looks rq = some r) (hret : r.ret ≠ 0) :
    ¬ ∀ fuel u, rmemQueueRq fuel post remoteChunk looks rq preempt = some u →
      Queued.Balanced rq preempt u := by
  intro hall
  have hbalanced := hall fuel ⟨-1, r.found, r.queue, r.posted, preempt + 1⟩
    (by rw [rmemQueueRq, hr, Option.map_some, if_pos hret])
  have hdepth := (hbalanced.failed (show (-1 : ℤ) ≠ 0 by decide)).2.2
  exact absurd hdepth (Nat.succ_ne_self preempt)

/-- Taking a command and posting its work request is balanced. -/
theorem balanced_of_posted {q : RmemRdmaQueue depth} {k : Fin depth} {wr : IbRdmaWr}
    (hfree : (q k).freeState = true) :
    Queued.Balanced rq preempt
      ⟨blkMqRqQueueOk, q, Function.update q k ⟨false, some rq, wr⟩, [⟨k, wr⟩], preempt⟩ where
  failed := fun hret => absurd rfl hret
  queued := fun _ =>
    ⟨k, wr, rfl, hfree, Function.update_self k _ q, fun _ hj => Function.update_of_ne hj _ q, rfl⟩

/-- A call that reaches no failure point is balanced. -/
theorem Request.Succeeds.balanced (h : rq.Succeeds post remoteChunk looks) {fuel : ℕ}
    {u : Queued depth} (hu : rmemQueueRq fuel post remoteChunk looks rq preempt = some u) :
    u.Balanced rq preempt := by
  obtain ⟨r, hr, hreturn⟩ := Option.map_eq_some_iff.mp hu
  obtain ⟨chunk, hchunk, hcase⟩ := (transferRequetToRdmaMessage_eq_some_iff h.1).mp hr
  obtain ⟨hmapped, hposts⟩ := h.2 chunk hchunk
  rcases hcase with ⟨hnot, -⟩ | ⟨-, n, k, htake, rfl⟩
  · exact absurd hmapped hnot
  · have hpost := hposts (meetsFree_of_getAFreeRdmaCmdFromRdmaQ htake)
    rw [Request.submitted, if_neg (not_not.mpr hpost), if_neg (not_not.mpr hpost)] at hreturn
    rw [← hreturn]
    exact balanced_of_posted (free_of_getAFreeRdmaCmdFromRdmaQ htake)

end Submission

/-- `RMEM_QUEUE_MAX_SECT_SIZE`, the sectors of 512 bytes that a request may have. -/
def rmemQueueMaxSectSize : ℕ := 1024

/-- `MAX_REQUEST_SGL`. -/
def maxRequestSgl : ℕ := 64

/-- `ONE_SIEDED_RDMA_BUF_SIZE`, the bytes that `init_rdma_command_list` allocates and maps for
each command. -/
def oneSiededRdmaBufSize : ℕ := maxRequestSgl * pageSize

/-- The limit that `init_blk_mq_queue` gives to the block layer. -/
def Request.Issued (rq : Request) : Prop :=
  rq.bytes.toNat ≤ rmemQueueMaxSectSize * rmemPhySectSize

/-- Every posted work request stays inside the buffer of its command. -/
def FitsBuffer (outcome : Option (Submitted depth)) : Prop :=
  ∀ r, outcome = some r → ∀ p ∈ r.posted, p.wr.length.toNat ≤ oneSiededRdmaBufSize

/-- The translation gets to a successful `ib_post_send`: the chunk check passes, the chunk is
mapped and the scan meets a free command. -/
def Request.Posts (rq : Request) (post : ℤ) (remoteChunk : List RemoteMappingChunk)
    (looks : ℕ → RmemRdmaQueue depth) : Prop :=
  ¬ (rq.Crosses ∧ rq.ResetCrosses) ∧
    (∃ chunk, remoteChunk[rq.startChunkIndex.toNat]? = some chunk ∧
      chunk.chunkState = .mapped) ∧
    MeetsFree looks ∧ post = 0

/-- The request is small enough for a buffer: its bytes are when it stays in its chunk, and a
page for each of its segments when it leaves it. -/
def Request.FitsPages (rq : Request) : Prop :=
  (¬ rq.Crosses → rq.bytes.toNat ≤ oneSiededRdmaBufSize) ∧
    (rq.Crosses → rq.nrPhysSegments.toNat ≤ maxRequestSgl)

theorem Request.fitsPages_iff (rq : Request) (chunk : RemoteMappingChunk) :
    (rq.builtWr chunk).length.toNat ≤ oneSiededRdmaBufSize ↔ rq.FitsPages := by
  have hbytes := rq.bytes.isLt
  have hsegments := rq.nrPhysSegments.isLt
  rw [Request.builtWr, Request.FitsPages, Request.postedLen]
  by_cases hcrosses : rq.Crosses
  · -- the reset length is below 2 ^ 28, so neither product nor conversion wraps
    have hlen : (rq.resetLen.setWidth 32).toNat = rq.nrPhysSegments.toNat * pageSize := by
      rw [Request.resetLen, BitVec.toNat_setWidth, BitVec.toNat_mul, BitVec.toNat_setWidth,
        BitVec.toNat_ofNat, pageSize]
      omega
    simp only [hcrosses, if_true, not_true, false_implies, true_and, true_implies, hlen]
    rw [oneSiededRdmaBufSize]
    exact Nat.mul_le_mul_right_iff (by decide)
  · have hlen : ((rq.bytes.setWidth 64).setWidth 32).toNat = rq.bytes.toNat := by
      rw [BitVec.toNat_setWidth, BitVec.toNat_setWidth]
      omega
    simp only [hcrosses, if_false, not_false_eq_true, true_implies, false_implies, and_true, hlen]

section Posted

variable {post : ℤ} {remoteChunk : List RemoteMappingChunk} {looks : ℕ → RmemRdmaQueue depth}
  {rq : Request}

/-- What a translation posts was built for a chunk, and the translation got that far. -/
theorem posted_of_transfer {fuel : ℕ} {r : Submitted depth}
    (h : transferRequetToRdmaMessage fuel post remoteChunk looks rq = some r)
    {p : PostedWr depth} (hp : p ∈ r.posted) :
    (∃ chunk, p.wr = rq.builtWr chunk) ∧ rq.Posts post remoteChunk looks := by
  by_cases herr : rq.Crosses ∧ rq.ResetCrosses
  · rw [transferRequetToRdmaMessage_of_crosses herr] at h
    obtain rfl := Option.some_inj.mp h
    cases hp
  · obtain ⟨chunk, hchunk, hcase⟩ := (transferRequetToRdmaMessage_eq_some_iff herr).mp h
    rcases hcase with ⟨-, rfl⟩ | ⟨hmapped, n, k, htake, rfl⟩
    · cases hp
    · have hfree := meetsFree_of_getAFreeRdmaCmdFromRdmaQ htake
      by_cases hpost : post = 0
      · simp only [Request.submitted, hpost, ne_eq, not_true, if_false, List.mem_singleton] at hp
        exact ⟨⟨chunk, by rw [hp]⟩, herr, ⟨chunk, hchunk, hmapped⟩, hfree, hpost⟩
      · simp [Request.submitted, hpost] at hp

theorem exists_posted_of_posts (h : rq.Posts post remoteChunk looks) :
    ∃ fuel r k chunk, transferRequetToRdmaMessage fuel post remoteChunk looks rq = some r ∧
      ⟨k, rq.builtWr chunk⟩ ∈ r.posted := by
  obtain ⟨herr, ⟨chunk, hchunk, hmapped⟩, hfree, hpost⟩ := h
  obtain ⟨fuel, ⟨n, k⟩, htake⟩ := exists_getAFreeRdmaCmdFromRdmaQ_iff.mpr hfree
  refine ⟨fuel, rq.submitted post looks chunk n k, k, chunk, ?_, ?_⟩
  · exact (transferRequetToRdmaMessage_eq_some_iff herr).mpr
      ⟨chunk, hchunk, Or.inr ⟨hmapped, n, k, htake, rfl⟩⟩
  · simp [Request.submitted, hpost]

end Posted

/-- What is posted fits the buffer of its command if and only if nothing is posted or the
request is small enough. -/
theorem posted_fits_buffer_iff (post : ℤ) (remoteChunk : List RemoteMappingChunk)
    (looks : ℕ → RmemRdmaQueue depth) (rq : Request) :
    (∀ fuel, FitsBuffer (transferRequetToRdmaMessage fuel post remoteChunk looks rq)) ↔
      (rq.Posts post remoteChunk looks → rq.FitsPages) := by
  constructor
  · intro hfits hposts
    obtain ⟨fuel, r, k, chunk, hr, hposted⟩ := exists_posted_of_posts hposts
    rw [← rq.fitsPages_iff chunk]
    exact hfits fuel r hr ⟨k, rq.builtWr chunk⟩ hposted
  · intro hsmall fuel r hr p hp
    obtain ⟨⟨chunk, hwr⟩, hposts⟩ := posted_of_transfer hr hp
    rw [hwr]
    exact (rq.fitsPages_iff chunk).mpr (hsmall hposts)

/-- A write of the 1024 sectors that the block layer may put into one request. -/
def fullWrite : Request where
  tag := 0
  write := true
  pos := 0
  bytes := 524288
  nrPhysSegments := 128
  bioPhysSegments := 128

/-- Twice the size of the buffer is posted. -/
theorem full_write_exceeds_buffer :
    let looks : ℕ → RmemRdmaQueue rmemQueueDepth := fun _ => initRdmaCommandList rmemQueueDepth
    fullWrite.Issued ∧ fullWrite.InCapacity ∧
      (transferRequetToRdmaMessage 1 0 twoChunks looks fullWrite).map
        (fun r => r.posted.map fun p => p.wr.length.toNat) = some [2 * oneSiededRdmaBufSize] ∧
      ¬ ∀ fuel, FitsBuffer (transferRequetToRdmaMessage fuel 0 twoChunks looks fullWrite) := by
  intro looks
  have hrun : (transferRequetToRdmaMessage 1 0 twoChunks looks fullWrite).map
      (fun r => r.posted.map fun p => p.wr.length.toNat) = some [2 * oneSiededRdmaBufSize] := by
    decide
  have hissued : fullWrite.bytes.toNat ≤ rmemQueueMaxSectSize * rmemPhySectSize := by decide
  refine ⟨hissued, ⟨by decide, by decide⟩, hrun, fun hfits => ?_⟩
  obtain ⟨r, hr, hlengths⟩ := Option.map_eq_some_iff.mp hrun
  obtain ⟨p, hp, hlength⟩ := List.mem_map.mp (hlengths ▸ List.mem_singleton_self _)
  have hle := hfits 1 r hr p hp
  rw [hlength] at hle
  exact absurd hle (by decide)

end SystemDev.Octopus
