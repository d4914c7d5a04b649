import SystemDev.Library.CInt
import SystemDev.Library.Run
import SystemDev.Library.Scan
import SystemDev.Rdma.Message

/-!
# The remote memory server

The server owns `MAX_FREE_MEM_GB` chunks of one gigabyte and lends them to clients.
Three kinds of bookkeeping describe who holds what: the per-chunk maps of
`rdma_remote`, the per-connection `sess_chunk_map`, and three counters (`size_gb`,
`mapped_size`, `mapped_chunk_size`) that the operations update on their own. The
counters are C `int`s: every update is reduced by `wrapInt`.

Each operation of `rdma-common.c` is one function here, and `step` runs one
operation as an atomic step. An access outside an array, which C leaves undefined,
is `none`.
-/

namespace SystemDev.Server

open SystemDev.Library SystemDev.Rdma

/-- The build-time limits of the server (`configure.ac` sets them through the
`USER_*` macros). The eviction threshold is documented as the lower one. -/
structure ServerConfig where
  maxClient : ℕ
  maxFreeMemGb : ℕ
  freeMemEvictThreshold : ℤ
  freeMemExpandThreshold : ℤ
  max_lt : maxFreeMemGb < 2 ^ 31
  evict_nonneg : 0 ≤ freeMemEvictThreshold
  evict_le_expand : freeMemEvictThreshold ≤ freeMemExpandThreshold

/-- The values `rdma-common.h` falls back to. -/
def defaultConfig : ServerConfig where
  maxClient := 1
  maxFreeMemGb := 32
  freeMemEvictThreshold := 8
  freeMemExpandThreshold := 16
  max_lt := by decide
  evict_nonneg := by decide
  evict_le_expand := by decide

/-- `CHUNK_SIZE_GB`. -/
def chunkSizeGb : ℤ := 1

/-- A position in the chunk tables; `MAX_MR_SIZE_GB` is `MAX_FREE_MEM_GB` in every
configuration, so the per-connection tables have the same positions. -/
abbrev Chunk (cfg : ServerConfig) := Fin cfg.maxFreeMemGb

/-- A position in the connection tables. -/
abbrev Slot (cfg : ServerConfig) := Fin cfg.maxClient

/-- The two values of `malloc_map`. -/
inductive ChunkAlloc
  | empty
  | malloced
  deriving DecidableEq

/-- `enum conn_state`. -/
inductive ConnState
  | idle
  | connected
  | mapped
  | failed
  deriving DecidableEq

/-- What the server reads of a registered region. -/
structure IbvMr where
  addr : BitVec 64
  rkey : BitVec 32
  deriving DecidableEq

/-- `struct rdma_remote_mem`. `connMap` holds a connection index or `-1`. -/
@[ext]
structure RdmaRemoteMem (cfg : ServerConfig) where
  regionList : Chunk cfg → BitVec 64
  mrList : Chunk cfg → Option IbvMr
  sizeGb : ℤ
  mappedSize : ℤ
  connMap : Chunk cfg → ℤ
  mallocMap : Chunk cfg → ChunkAlloc
  connChunkMap : Chunk cfg → ℤ

/-- `struct connection`; `id` is the connection's `rdma_cm_id`. -/
@[ext]
structure Connection (cfg : ServerConfig) where
  id : ℕ
  connIndex : ℤ
  sessChunkMap : Chunk cfg → ℤ
  mappedChunkSize : ℤ
  sendMsg : Message cfg.maxFreeMemGb

/-- `struct rdma_session` with the connection objects on the heap. `live` lists the
objects allocated by `build_connection` and not yet freed by `destroy_connection`;
`conns` points to them by their `rdma_cm_id`. -/
structure RdmaSession (cfg : ServerConfig) where
  live : List (Connection cfg)
  conns : Slot cfg → Option ℕ
  connsState : Slot cfg → ConnState
  connNum : ℤ
  rdmaRemote : RdmaRemoteMem cfg
  running : Bool

variable {cfg : ServerConfig}

/-- A C index into an array of `n` entries, `none` when it is out of range. -/
def index? (n : ℕ) (k : ℤ) : Option (Fin n) :=
  if h : 0 ≤ k ∧ k.toNat < n then some ⟨k.toNat, h.2⟩ else none

@[simp] theorem index?_coe {n : ℕ} (i : Fin n) : index? n ((i : ℕ) : ℤ) = some i := by
  simp [index?]

theorem index?_eq_some_iff {n : ℕ} {k : ℤ} {i : Fin n} : index? n k = some i ↔ k = (i : ℕ) := by
  constructor
  · intro h
    rw [index?] at h
    split_ifs at h with hin
    obtain rfl := Option.some_inj.mp h
    exact (Int.toNat_of_nonneg hin.1).symm
  · rintro rfl
    exact index?_coe i

/-! ### Session setup -/

/-- The number of chunks `rdma_session_init` allocates for a measured `freeMemG`. -/
def initialSizeGb (cfg : ServerConfig) (freeMemG : ℤ) : ℤ :=
  let g :=
    if cfg.freeMemExpandThreshold < freeMemG then
      freeMemG - (cfg.freeMemEvictThreshold + cfg.freeMemExpandThreshold) / 2
    else if cfg.freeMemEvictThreshold < freeMemG then
      freeMemG - cfg.freeMemEvictThreshold
    else 0
  if (cfg.maxFreeMemGb : ℤ) < g then cfg.maxFreeMemGb else g

/-- `rdma_session_init`, with the addresses `posix_memalign` returns. -/
def rdmaSessionInit (freeMemG : ℤ) (memalign : Chunk cfg → BitVec 64) : RdmaSession cfg where
  live := []
  conns := fun _ => none
  connsState := fun _ => .idle
  connNum := 0
  rdmaRemote :=
    { regionList := fun i => if ((i : ℕ) : ℤ) < initialSizeGb cfg freeMemG then memalign i else 0
      mrList := fun _ => none
      sizeGb := initialSizeGb cfg freeMemG
      mappedSize := 0
      connMap := fun _ => -1
      mallocMap := fun i =>
        if ((i : ℕ) : ℤ) < initialSizeGb cfg freeMemG then .malloced else .empty
      connChunkMap := fun _ => -1 }
  running := true

/-- `build_connection`. `mem` is what `malloc` returned: when no slot is idle the
new object keeps the `conn_index` it found there. -/
def buildConnection (s : RdmaSession cfg) (id : ℕ) (mem : Connection cfg) : RdmaSession cfg :=
  let conn : Connection cfg :=
    { mem with id := id, sessChunkMap := fun _ => -1, mappedChunkSize := 0 }
  match (List.finRange cfg.maxClient).find? fun k => s.connsState k = .idle with
  -- the first idle slot
  | some k =>
    { s with
      live := { conn with connIndex := (k : ℕ) } :: s.live
      conns := Function.update s.conns k (some id)
      connsState := Function.update s.connsState k .connected
      connNum := s.connNum + 1 }
  -- no idle slot: the loop ends without setting `conn_index`, and the object is counted
  | none => { s with live := conn :: s.live, connNum := s.connNum + 1 }

/-! ### Granting chunks -/

/-- The test of both grant loops and of the eviction loop: allocated and unmapped. -/
def freeChunk (r : RdmaRemoteMem cfg) (i : Chunk cfg) : Bool :=
  r.mallocMap i = .malloced ∧ r.connMap i = -1

/-- The body of the grant loops: record the owner, register the region, and put its
address and key into the message. `rkeys` is what `ibv_reg_mr` returns. -/
def grantChunk (rkeys : Chunk cfg → BitVec 32) (g : RdmaRemoteMem cfg × Connection cfg)
    (i : Chunk cfg) : RdmaRemoteMem cfg × Connection cfg :=
  -- registered anew at every grant; an older registration is overwritten
  let mr : IbvMr := ⟨g.1.regionList i, rkeys i⟩
  ({ g.1 with
      connMap := Function.update g.1.connMap i g.2.connIndex
      mrList := Function.update g.1.mrList i (some mr) },
    { g.2 with
      sessChunkMap := Function.update g.2.sessChunkMap i ((i : ℕ) : ℤ)
      sendMsg :=
        { g.2.sendMsg with
          buf := Function.update g.2.sendMsg.buf i (htonll .little mr.addr)
          rkey := Function.update g.2.sendMsg.rkey i (htonl .little mr.rkey) } })

/-- What both grant functions do: reset the keys of the message, grant the first
allocated and unmapped chunks until `target` are granted, and add `amount` to the
two counters of mapped chunks. -/
def grantChunks (rkeys : Chunk cfg → BitVec 32) (target amount : ℤ) (type : MessageType)
    (r : RdmaRemoteMem cfg) (c : Connection cfg) (sizeGb : ℤ) :
    RdmaRemoteMem cfg × Connection cfg :=
  -- the addresses of an earlier answer stay in the message
  let c₁ := { c with sendMsg := { c.sendMsg with sizeGb := sizeGb, rkey := fun _ => 0 } }
  let g := (scan (fun g i => freeChunk g.1 i) (grantChunk rkeys) (reaches target)
    (List.finRange cfg.maxFreeMemGb) 0 (r, c₁)).1
  ({ g.1 with mappedSize := wrapInt (g.1.mappedSize + amount) },
    { g.2 with
      mappedChunkSize := wrapInt (g.2.mappedChunkSize + amount)
      sendMsg := { g.2.sendMsg with type := type } })

/-- `send_single_chunk_to_client`: leaves the loop after one grant and counts one
chunk whether or not it found one. -/
def sendSingleChunkToClient (rkeys : Chunk cfg → BitVec 32) (r : RdmaRemoteMem cfg)
    (c : Connection cfg) (clientChunkIndex : ℤ) : RdmaRemoteMem cfg × Connection cfg :=
  grantChunks rkeys 1 1 .sendSingleChunk r c clientChunkIndex

/-- `send_chunks_to_client`: counts the requested size. -/
def sendChunksToClient (rkeys : Chunk cfg → BitVec 32) (r : RdmaRemoteMem cfg)
    (c : Connection cfg) (sizeGb : ℤ) : RdmaRemoteMem cfg × Connection cfg :=
  grantChunks rkeys (sizeGb.tdiv chunkSizeGb) sizeGb .sendChunks r c sizeGb

/-- `send_free_mem_size`. -/
def sendFreeMemSize (r : RdmaRemoteMem cfg) (c : Connection cfg) : Connection cfg :=
  { c with
    sendMsg :=
      { c.sendMsg with type := .freeSize, sizeGb := wrapInt (r.sizeGb - r.mappedSize) } }

/-! ### Giving chunks back -/

/-- The loop body of `recv_done` for one flagged position: the chunk recorded there
is unmapped and freed. The region and its registration stay in the tables as
dangling pointers. -/
def stopChunk (msg : Message cfg.maxFreeMemGb) (g : RdmaRemoteMem cfg × Connection cfg)
    (i : Chunk cfg) : Option (RdmaRemoteMem cfg × Connection cfg) :=
  if msg.rkey i = 0 then some g
  else
    -- the recorded value is used as an index without a test for `-1`
    (index? cfg.maxFreeMemGb (g.2.sessChunkMap i)).map fun index =>
      ({ g.1 with
          connMap := Function.update g.1.connMap index (-1)
          mallocMap := Function.update g.1.mallocMap index .empty
          connChunkMap := Function.update g.1.connChunkMap index (-1) },
        { g.2 with sessChunkMap := Function.update g.2.sessChunkMap i (-1) })

/-- Write back a connection object. -/
def RdmaSession.putConn (s : RdmaSession cfg) (c : Connection cfg) : RdmaSession cfg :=
  { s with live := s.live.map fun d => if d.id = c.id then c else d }

/-- `session.conns_state[conn->conn_index] = state`. -/
def RdmaSession.setConnState (s : RdmaSession cfg) (c : Connection cfg) (state : ConnState) :
    Option (RdmaSession cfg) :=
  (index? cfg.maxClient c.connIndex).map fun k =>
    { s with connsState := Function.update s.connsState k state }

/-- `recv_done`: the counters drop by the size the message carries. -/
def recvDone (s : RdmaSession cfg) (c : Connection cfg) (msg : Message cfg.maxFreeMemGb) :
    Option (RdmaSession cfg) := do
  let g ← (List.finRange cfg.maxFreeMemGb).foldlM (stopChunk msg) (s.rdmaRemote, c)
  -- the size in the message, whatever was unmapped above
  let r : RdmaRemoteMem cfg := { g.1 with
    sizeGb := wrapInt (g.1.sizeGb - msg.sizeGb)
    mappedSize := wrapInt (g.1.mappedSize - msg.sizeGb) }
  let c' : Connection cfg :=
    { g.2 with mappedChunkSize := wrapInt (g.2.mappedChunkSize - msg.sizeGb) }
  let s' : RdmaSession cfg := { s with rdmaRemote := r }.putConn c'
  if c'.mappedChunkSize = 0 then s'.setConnState c' .connected else some s'

/-- The loop body of `destroy_connection`. -/
def releaseChunk (c : Connection cfg) (r : RdmaRemoteMem cfg) (i : Chunk cfg) :
    Option (RdmaRemoteMem cfg) :=
  if c.sessChunkMap i = -1 then some r
  else
    (index? cfg.maxFreeMemGb (c.sessChunkMap i)).map fun index =>
      { r with
        connMap := Function.update r.connMap index (-1)
        connChunkMap := Function.update r.connChunkMap index (-1) }

/-- `destroy_connection`: chunks are released only when the counter is positive. -/
def destroyConnection (s : RdmaSession cfg) (c : Connection cfg) : Option (RdmaSession cfg) := do
  let r ←
    if 0 < c.mappedChunkSize then
      ((List.finRange cfg.maxFreeMemGb).foldlM (releaseChunk c) s.rdmaRemote).map fun r =>
        { r with mappedSize := wrapInt (r.mappedSize - c.mappedChunkSize) }
    else some s.rdmaRemote
  -- the slot is freed also when the chunks were not
  let k ← index? cfg.maxClient c.connIndex
  some
    { s with
      live := s.live.filter fun d => d.id ≠ c.id
      conns := Function.update s.conns k none
      connsState := Function.update s.connsState k .idle
      connNum := s.connNum - 1
      rdmaRemote := r
      running := if s.connNum - 1 = 0 then false else s.running }

/-! ### Growing and shrinking the pool -/

/-- The amount by which `free_mem` decides to grow. -/
def expandSizeG (r : RdmaRemoteMem cfg) (lastFreeMemG : ℤ) : ℤ :=
  -- cut to what the tables can hold
  let e := lastFreeMemG - cfg.freeMemExpandThreshold
  if (cfg.maxFreeMemGb : ℤ) < wrapInt (e + r.sizeGb) then wrapInt (cfg.maxFreeMemGb - r.sizeGb)
  else e

/-- The expansion branch of `free_mem`. -/
def freeMemExpand (memalign : Chunk cfg → BitVec 64) (r : RdmaRemoteMem cfg) (lastFreeMemG : ℤ) :
    RdmaRemoteMem cfg :=
  let r' := (scan (fun (r : RdmaRemoteMem cfg) i => r.mallocMap i = .empty)
    (fun r i => { r with
      regionList := Function.update r.regionList i (memalign i)
      mallocMap := Function.update r.mallocMap i .malloced })
    (reaches (expandSizeG r lastFreeMemG)) (List.finRange cfg.maxFreeMemGb) 0 r).1
  -- the target is added also when the scan found fewer empty chunks
  { r' with sizeGb := wrapInt (r'.sizeGb + expandSizeG r lastFreeMemG) }

/-- The first phase of `evict_mem`: free unmapped chunks. Returns how many. -/
def evictUnmapped (r : RdmaRemoteMem cfg) (stopG : ℤ) : RdmaRemoteMem cfg × ℕ :=
  let (r', freedG) := scan freeChunk
    (fun (r : RdmaRemoteMem cfg) i => { r with mallocMap := Function.update r.mallocMap i .empty })
    (reaches stopG) (List.finRange cfg.maxFreeMemGb) 0 r
  ({ r' with sizeGb := wrapInt (r'.sizeGb - if (freedG : ℤ) = stopG then stopG else freedG) },
    freedG)

/-! ### Atomic steps -/

/-- The operations of the server, each with the answers of the calls it makes. -/
inductive Op (cfg : ServerConfig)
  | buildConnection (id : ℕ) (mem : Connection cfg)
  | sendFreeMemSize (id : ℕ)
  | requestChunks (id : ℕ) (sizeGb : ℤ) (rkeys : Chunk cfg → BitVec 32)
  | requestSingleChunk (id : ℕ) (sizeGb : ℤ) (rkeys : Chunk cfg → BitVec 32)
  | done (id : ℕ) (msg : Message cfg.maxFreeMemGb)
  | destroyConnection (id : ℕ)
  | expand (filteredFreeMemG : ℤ) (memalign : Chunk cfg → BitVec 64)
  | evictUnmapped (stopG : ℤ)

/-- The connection object behind a `rdma_cm_id` (`id->context`). -/
def RdmaSession.conn? (s : RdmaSession cfg) (id : ℕ) : Option (Connection cfg) :=
  s.live.find? fun c => c.id = id

/-- A grant request as `handle_cqe` serves it: run the grant function, then mark the
connection's slot as mapped. -/
def serveRequest (grant : RdmaRemoteMem cfg → Connection cfg → ℤ →
    RdmaRemoteMem cfg × Connection cfg) (s : RdmaSession cfg) (c : Connection cfg) (sizeGb : ℤ) :
    Option (RdmaSession cfg) :=
  let g := grant s.rdmaRemote c sizeGb
  ({ s with rdmaRemote := g.1 }.putConn g.2).setConnState g.2 .mapped

/-- One atomic step. A connect request carries a `rdma_cm_id` of its own; messages
and disconnects come from live connections, and the size in a message is an `int`.
`free_mem` expands only above its threshold and evicts a positive amount of at most
`size_gb`; the free memory of a host, in gigabytes, leaves an `int` room for the pool. -/
def step (s : RdmaSession cfg) : Op cfg → Option (RdmaSession cfg)
  | .buildConnection id mem =>
    if (s.conn? id).isSome then none else some (buildConnection s id mem)
  | .sendFreeMemSize id => do
    let c ← s.conn? id
    some (s.putConn (sendFreeMemSize s.rdmaRemote c))
  | .requestChunks id sizeGb rkeys => do
    let c ← s.conn? id
    if IsInt sizeGb then serveRequest (sendChunksToClient rkeys) s c sizeGb else none
  | .requestSingleChunk id sizeGb rkeys => do
    let c ← s.conn? id
    if IsInt sizeGb then serveRequest (sendSingleChunkToClient rkeys) s c sizeGb else none
  | .done id msg => do
    let c ← s.conn? id
    if IsInt msg.sizeGb then recvDone s c msg else none
  | .destroyConnection id => do
    let c ← s.conn? id
    destroyConnection s c
  | .expand filteredFreeMemG memalign =>
    if cfg.freeMemExpandThreshold < filteredFreeMemG ∧
        filteredFreeMemG + cfg.maxFreeMemGb < 2 ^ 31 then
      some { s with rdmaRemote := freeMemExpand memalign s.rdmaRemote filteredFreeMemG }
    else none
  | .evictUnmapped stopG =>
    if 0 < stopG ∧ stopG ≤ s.rdmaRemote.sizeGb then
      some { s with rdmaRemote := (evictUnmapped s.rdmaRemote stopG).1 }
    else none

end SystemDev.Server
