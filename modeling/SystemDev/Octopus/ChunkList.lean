import SystemDev.Library.Fill
import SystemDev.Library.Scan
import SystemDev.Rdma.Message

/-!
# The client's table of remote chunks

The Octopus client keeps the chunks it was granted in `remote_mapping_chunk_list`. A
`FREE_SIZE` message allocates the table, a `GOT_CHUNKS` or `GOT_SINGLE_CHUNK` message
appends the chunks it marks with a nonzero key. `handle_recv_wr` dispatches on the
message type and moves the session state.

An access outside the table, or through the `NULL` of a failed `kzalloc`, is `none`.

## Main results

* `bindRemoteMemoryChunks_eq` — the closed form of the binding loop
-/

namespace SystemDev.Octopus

open SystemDev.Library SystemDev.Rdma

/-- `MAX_REMOTE_MEMORY_SIZE_GB`. -/
def maxRemoteMemorySizeGb : ℕ := 32

/-- `CHUNK_SIZE_GB`. -/
def chunkSizeGb : ℕ := 1

/-- The number of chunk positions of a message at the client. -/
abbrev chunkPositions : ℕ := maxRemoteMemorySizeGb / chunkSizeGb

/-- `sizeof(struct message)`: an address and a key per position, the size, the type. -/
def sizeofMessage : ℕ := chunkPositions * 8 + chunkPositions * 4 + 4 + 4

/-- `enum rdma_session_context_state`. -/
inductive SessionState
  | idle
  | connectRequest
  | addrResolved
  | routeResolved
  | connected
  | freeMemRecv
  | receivedChunks
  | rdmaBufAdv
  | waitOps
  | recvStop
  | recvEvict
  | rdmaWriteRunning
  | rdmaReadRunning
  | sendDone
  | rdmaDone
  | rdmaReadAdv
  | rdmaWriteAdv
  | cmDisconnect
  | error
  | testDone
  deriving DecidableEq

/-- The numeric value of a state; the enumeration starts from 1. -/
def SessionState.value (s : SessionState) : ℕ := s.ctorIdx + 1

/-- `enum chunk_mapping_state`. -/
inductive ChunkMappingState
  | empty
  | mapped
  deriving DecidableEq

/-- `struct remote_mapping_chunk`. -/
structure RemoteMappingChunk where
  remoteRkey : BitVec 32
  remoteAddr : BitVec 64
  chunkState : ChunkMappingState
  deriving DecidableEq

/-- `struct remote_mapping_chunk_list`. `remoteChunk` lists the entries that `kzalloc`
allocated; the three counters are `uint32_t`. -/
structure RemoteMappingChunkList where
  remoteChunk : List RemoteMappingChunk
  remoteFreeSizeGb : ℕ
  chunkNum : ℕ
  chunkPtr : ℕ
  deriving DecidableEq

/-- What the message handler works on of `struct rdma_session_context`. -/
structure RdmaSessionContext where
  state : SessionState
  remoteChunkList : RemoteMappingChunkList
  deriving DecidableEq

/-- An entry as `init_remote_chunk_list` leaves it. -/
def emptyChunk : RemoteMappingChunk := ⟨0, 0, .empty⟩

/-- `init_remote_chunk_list`; `kzalloc` says whether the allocation succeeded. Its
result is not tested, so the loop writes through it unless it has no entries. -/
def initRemoteChunkList (kzalloc : Bool) (l : RemoteMappingChunkList) :
    Option RemoteMappingChunkList :=
  let tmpChunkNum := l.remoteFreeSizeGb / chunkSizeGb
  if kzalloc ∨ tmpChunkNum = 0 then
    some { l with
      remoteChunk := List.replicate tmpChunkNum emptyChunk
      chunkNum := tmpChunkNum
      chunkPtr := 0 }
  else none

/-- The entry a marked position of a message is bound to. -/
def boundChunk {n : ℕ} (msg : Message n) (i : Fin n) : RemoteMappingChunk where
  remoteRkey := ntohl .little (msg.rkey i)
  remoteAddr := ntohll .little (msg.buf i)
  chunkState := .mapped

/-- The loop of `bind_remote_memory_chunks` over the positions still ahead. It leaves
when the table is full (the debug check is compiled in). -/
def bindLoop {n : ℕ} (msg : Message n) :
    List (Fin n) → RemoteMappingChunkList → Option RemoteMappingChunkList
  | [], l => some l
  | i :: is, l =>
    if l.chunkNum ≤ l.chunkPtr then some l
    else if msg.rkey i = 0 then bindLoop msg is l
    else if l.chunkPtr < l.remoteChunk.length then
      bindLoop msg is { l with
        remoteChunk := l.remoteChunk.set l.chunkPtr (boundChunk msg i)
        chunkPtr := l.chunkPtr + 1 }
    else none

/-- `bind_remote_memory_chunks`. -/
def bindRemoteMemoryChunks {n : ℕ} (msg : Message n) (l : RemoteMappingChunkList) :
    Option RemoteMappingChunkList :=
  (bindLoop msg (List.finRange n) l).map fun l => { l with chunkNum := l.chunkPtr }

/-- `handle_recv_wr` on the message in `recv_buf`. Returns the session and the return
value. -/
def handleRecvWr (kzalloc : Bool) (byteLen : ℕ) (recvBuf : Message chunkPositions)
    (s : RdmaSessionContext) : Option (RdmaSessionContext × ℤ) :=
  if byteLen ≠ sizeofMessage then some (s, -1)
  else if s.state.value < SessionState.connected.value then some (s, -1)
  else
    match recvBuf.type with
    | .freeSize => do
      -- the signed size is stored into an unsigned field
      let freed := (recvBuf.sizeGb % 2 ^ 32).toNat
      let l ← initRemoteChunkList kzalloc { s.remoteChunkList with remoteFreeSizeGb := freed }
      some ({ state := .freeMemRecv, remoteChunkList := l }, 0)
    | .sendChunks => do
      let l ← bindRemoteMemoryChunks recvBuf s.remoteChunkList
      some ({ state := .receivedChunks, remoteChunkList := l }, 0)
    | .sendSingleChunk => do
      let l ← bindRemoteMemoryChunks recvBuf s.remoteChunkList
      some ({ s with remoteChunkList := l }, 0)
    | .evict => some ({ s with state := .recvEvict }, 0)
    | .stop => some ({ s with state := .recvStop }, 0)
    | _ => some (s, -1)

/-! ### The binding loop -/

/-- The positions a message marks, in index order. -/
def marked {n : ℕ} (msg : Message n) : List (Fin n) :=
  (List.finRange n).filter fun i => msg.rkey i ≠ 0

/-- The cursor is inside the counted part of the table, and that part is allocated. -/
structure TableInv (l : RemoteMappingChunkList) : Prop where
  ptr_le : l.chunkPtr ≤ l.chunkNum
  num_le : l.chunkNum ≤ l.remoteChunk.length

/-- The table after appending `xs`. -/
def RemoteMappingChunkList.append (l : RemoteMappingChunkList) (xs : List RemoteMappingChunk) :
    RemoteMappingChunkList :=
  { l with
    remoteChunk := overwrite l.remoteChunk l.chunkPtr xs
    chunkPtr := l.chunkPtr + xs.length }

theorem bindLoop_eq {n : ℕ} (msg : Message n) (is : List (Fin n)) {l : RemoteMappingChunkList}
    (h : TableInv l) :
    bindLoop msg is l = some (l.append
      (((is.filter fun i => msg.rkey i ≠ 0).map (boundChunk msg)).take
        (l.chunkNum - l.chunkPtr))) := by
  induction is generalizing l with
  | nil => simp [bindLoop, RemoteMappingChunkList.append]
  | cons i is ih =>
    rw [bindLoop]
    split_ifs with hfull hzero hin
    -- the table is full and the loop is left
    · have hroom : l.chunkNum - l.chunkPtr = 0 := by omega
      simp [hroom, RemoteMappingChunkList.append]
    · rw [ih h, List.filter_cons_of_neg (by simpa using hzero)]
    · -- one entry is written and the rest of the room is one smaller
      have hroom : l.chunkNum - l.chunkPtr = l.chunkNum - (l.chunkPtr + 1) + 1 := by omega
      have hnext : TableInv { l with
          remoteChunk := l.remoteChunk.set l.chunkPtr (boundChunk msg i)
          chunkPtr := l.chunkPtr + 1 } :=
        ⟨Nat.lt_of_not_le hfull, by simpa using h.num_le⟩
      rw [ih hnext, List.filter_cons_of_pos (by simpa using hzero), hroom, List.map_cons,
        List.take_succ_cons]
      simp only [RemoteMappingChunkList.append, overwrite_set hin, List.length_cons]
      congr 2
      omega
    · have := h.num_le
      omega

/-- Binding a message appends as many of its marked chunks as the table has room for,
and makes the cursor the new length. -/
theorem bindRemoteMemoryChunks_eq {n : ℕ} (msg : Message n) {l : RemoteMappingChunkList}
    (h : TableInv l) :
    bindRemoteMemoryChunks msg l =
      let l' := l.append (((marked msg).map (boundChunk msg)).take (l.chunkNum - l.chunkPtr))
      some { l' with chunkNum := l'.chunkPtr } := by
  rw [bindRemoteMemoryChunks, bindLoop_eq msg _ h]
  rfl

/-- The chunks the client may use: the `MAPPED` entries in index order. -/
def mappedChunks (l : RemoteMappingChunkList) : List (BitVec 64 × BitVec 32) :=
  (l.remoteChunk.filter fun e => e.chunkState = .mapped).map fun e => (e.remoteAddr, e.remoteRkey)

/-- The table as a `FREE_SIZE` message leaves it. -/
structure FreshTable (l : RemoteMappingChunkList) : Prop where
  entries : l.remoteChunk = List.replicate l.chunkNum emptyChunk
  cursor : l.chunkPtr = 0

theorem FreshTable.tableInv {l : RemoteMappingChunkList} (h : FreshTable l) : TableInv l where
  ptr_le := by simp [h.cursor]
  num_le := by simp [h.entries]

/-- After one message the `MAPPED` entries of a fresh table are those it appended. -/
theorem FreshTable.mappedChunks_append {l : RemoteMappingChunkList} (h : FreshTable l) {n k : ℕ}
    (msg : Message n) (is : List (Fin n)) :
    mappedChunks { l.append ((is.map (boundChunk msg)).take (l.chunkNum - l.chunkPtr)) with
        chunkNum := k } =
      ((is.map (boundChunk msg)).take (l.chunkNum - l.chunkPtr)).map
        fun e => (e.remoteAddr, e.remoteRkey) := by
  have hmapped : ∀ e ∈ (is.map (boundChunk msg)).take (l.chunkNum - l.chunkPtr),
      e.chunkState = .mapped := by
    intro e he
    obtain ⟨i, -, rfl⟩ := List.mem_map.mp (List.mem_of_mem_take he)
    rfl
  simp only [mappedChunks, RemoteMappingChunkList.append, overwrite, h.cursor, h.entries]
  rw [h.cursor] at hmapped
  -- the entries behind the appended ones are still empty
  rw [List.take_zero, List.nil_append, List.filter_append, List.drop_replicate,
    List.filter_replicate_of_neg (by decide), List.append_nil,
    List.filter_eq_self.mpr fun e he => decide_eq_true (hmapped e he)]

theorem freshTable_of_handleRecvWr {kzalloc : Bool} {m : Message chunkPositions}
    {s : RdmaSessionContext} {p : RdmaSessionContext × ℤ}
    (hstate : SessionState.connected.value ≤ s.state.value) (htype : m.type = .freeSize)
    (h : handleRecvWr kzalloc sizeofMessage m s = some p) :
    p.2 = 0 ∧ p.1.state = .freeMemRecv ∧ FreshTable p.1.remoteChunkList := by
  rw [handleRecvWr, if_neg (not_not.mpr rfl), if_neg (not_lt.mpr hstate), htype] at h
  obtain ⟨l, hl, hrest⟩ := Option.bind_eq_some_iff.mp h
  obtain rfl := Option.some_inj.mp hrest
  rw [initRemoteChunkList] at hl
  split_ifs at hl
  obtain rfl := Option.some_inj.mp hl
  exact ⟨rfl, rfl, rfl, rfl⟩

theorem handleRecvWr_sendChunks {kzalloc : Bool} {m : Message chunkPositions}
    {s : RdmaSessionContext} (hstate : SessionState.connected.value ≤ s.state.value)
    (htype : m.type = .sendChunks) (hinv : TableInv s.remoteChunkList) :
    handleRecvWr kzalloc sizeofMessage m s =
      let l := s.remoteChunkList.append (((marked m).map (boundChunk m)).take
        (s.remoteChunkList.chunkNum - s.remoteChunkList.chunkPtr))
      some ({ state := .receivedChunks, remoteChunkList := { l with chunkNum := l.chunkPtr } },
        0) := by
  rw [handleRecvWr, if_neg (not_not.mpr rfl), if_neg (not_lt.mpr hstate), htype]
  simp only [bindRemoteMemoryChunks_eq m hinv]
  rfl

/-- The states that a handled message leads to. -/
theorem state_of_handleRecvWr {kzalloc : Bool} {byteLen : ℕ} {msg : Message chunkPositions}
    {session session' : RdmaSessionContext}
    (h : handleRecvWr kzalloc byteLen msg session = some (session', 0)) :
    session'.state = session.state ∨ session'.state = .freeMemRecv ∧ msg.type = .freeSize ∨
      session'.state = .receivedChunks ∧ msg.type = .sendChunks ∨
      session'.state = .recvEvict ∨ session'.state = .recvStop := by
  rw [handleRecvWr] at h
  split_ifs at h with hlen hconn
  · simp at h
  · simp at h
  · split at h
    · obtain ⟨l, -, h⟩ := Option.bind_eq_some_iff.mp h
      cases h
      exact .inr (.inl ⟨rfl, ‹_›⟩)
    · obtain ⟨l, -, h⟩ := Option.bind_eq_some_iff.mp h
      cases h
      exact .inr (.inr (.inl ⟨rfl, ‹_›⟩))
    · obtain ⟨l, -, h⟩ := Option.bind_eq_some_iff.mp h
      cases h
      exact .inl rfl
    · cases h
      exact .inr (.inr (.inr (.inl rfl)))
    · cases h
      exact .inr (.inr (.inr (.inr rfl)))
    · cases h

/-- The two messages that the setup waits for lead to their states. -/
theorem state_of_awaited {kzalloc : Bool} {byteLen : ℕ} {msg : Message chunkPositions}
    {session session' : RdmaSessionContext}
    (h : handleRecvWr kzalloc byteLen msg session = some (session', 0)) :
    (msg.type = .freeSize → session'.state = .freeMemRecv) ∧
      (msg.type = .sendChunks → session'.state = .receivedChunks) := by
  rw [handleRecvWr] at h
  split_ifs at h with hlen hconn
  · simp at h
  · simp at h
  · constructor
    · intro htype
      rw [htype] at h
      obtain ⟨l, -, h⟩ := Option.bind_eq_some_iff.mp h
      cases h
      rfl
    · intro htype
      rw [htype] at h
      obtain ⟨l, -, h⟩ := Option.bind_eq_some_iff.mp h
      cases h
      rfl

end SystemDev.Octopus
