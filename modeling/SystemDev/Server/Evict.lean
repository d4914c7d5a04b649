import SystemDev.Library.ExchangeSort
import SystemDev.Library.Probe
import SystemDev.Server.Reach

/-!
# Evicting mapped chunks

When freeing unmapped chunks is not enough, `evict_mem` takes chunks away from clients. It
chooses the connections to contact (all of them, or the owners of chunks picked at random),
asks each for the activity of its chunks, sorts the answers, and tells the owners of the least
active chunks to stop using them.

Each loop of the function is one definition here. `recvMsg` stands for the `ACTIVITY` messages
that the contacted clients answer with, `rand` for the values of `rand()`. A loop that does not
end, an access outside an array, a read of an entry that was not written and a `NULL`
dereference are `none`. What a client does when it is told to stop comes back as a `DONE`
message, which is a step of its own and does not change what is sent here.
-/

namespace SystemDev.Server

open SystemDev.Library SystemDev.Rdma

variable {cfg : ServerConfig}

/-- `EXTRA_CHUNK_NUM`. -/
def extraChunkNum : ℤ := 2

/-- The values of `random_chunk_select`: `-1`, `0` and `1`. -/
inductive ChunkSelect
  | unmapped
  | selectable
  | selected
  deriving DecidableEq

/-- The values of `send_list`: `-1`, `1` and `2`. -/
inductive SendMark
  | untouched
  | contacted
  | stopped
  deriving DecidableEq

/-- `struct chunk_activity`. -/
structure ChunkActivity (cfg : ServerConfig) where
  activity : BitVec 64
  chunkIndex : Chunk cfg
  deriving DecidableEq

/-- `session.conns[k]`, dereferenced. -/
def RdmaSession.connAt (s : RdmaSession cfg) (k : Slot cfg) : Option (Connection cfg) :=
  (s.conns k).bind s.conn?

/-! ### Selection -/

/-- The two arrays that the selection works on. -/
structure Selection (cfg : ServerConfig) where
  randomChunkSelect : Chunk cfg → ChunkSelect
  sendList : Slot cfg → SendMark

/-- The test of the inner `while` loop. -/
def Selection.selectable (g : Selection cfg) (i : Chunk cfg) : Bool :=
  g.randomChunkSelect i = .selectable

/-- Mark a picked chunk and its owner, whose number indexes `send_list`. -/
def selectChunk (connMap : Chunk cfg → ℤ) (g : Selection cfg) (i : Chunk cfg) :
    Option (Selection cfg) :=
  (index? cfg.maxClient (connMap i)).map fun k =>
    { randomChunkSelect := Function.update g.randomChunkSelect i .selected
      sendList := Function.update g.sendList k .contacted }

/-- The arrays before the first pick. -/
def initialSelection (r : RdmaRemoteMem cfg) : Selection cfg where
  randomChunkSelect := fun i => if r.connMap i = -1 then .unmapped else .selectable
  sendList := fun _ => .untouched

/-- The connections to contact and the number `j` of chunks to evict. The sum of shares that
the first branch makes is only printed. -/
def selectConns (fuel : ℕ) (rand : ℕ → ℕ) (s : RdmaSession cfg) (evictG : ℤ) :
    Option ((Slot cfg → SendMark) × ℤ) :=
  if s.rdmaRemote.mappedSize < evictG + extraChunkNum then
    some (fun k => if s.connsState k = .mapped then .contacted else .untouched,
      if s.rdmaRemote.mappedSize < evictG then s.rdmaRemote.mappedSize else evictG)
  else
    (takeEach fuel Selection.selectable (selectChunk s.rdmaRemote.connMap)
      (initialSelection s.rdmaRemote)
      ((List.range (evictG + extraChunkNum).toNat).map rand)).map fun g => (g.sendList, evictG)

/-- `evict_mem` up to the selection. Nothing is selected when freeing unmapped chunks was
enough. -/
def evictSelect (fuel : ℕ) (rand : ℕ → ℕ) (s : RdmaSession cfg) (stopG : ℤ) :
    Option (RdmaSession cfg × Option ((Slot cfg → SendMark) × ℤ)) :=
  let (r, freedG) := evictUnmapped s.rdmaRemote stopG
  let s := { s with rdmaRemote := r }
  if (freedG : ℤ) = stopG then some (s, none)
  else (selectConns fuel rand s (stopG - freedG)).map fun p => (s, some p)

/-! ### Asking for activities -/

/-- The size `k` of `evict_list`, an `int`: the shares of the contacted connections. -/
def contactedSize (s : RdmaSession cfg) (sendList : Slot cfg → SendMark) : Option ℤ :=
  (List.finRange cfg.maxClient).foldlM
    (fun k i =>
      if sendList i = .contacted then
        (s.connAt i).map fun c => wrapInt (k + c.mappedChunkSize)
      else some k) 0

/-- `send_evict`. -/
def sendEvict (c : Connection cfg) (n : ℤ) : Connection cfg :=
  { c with sendMsg := { c.sendMsg with type := .evict, sizeGb := n, rkey := fun _ => 0 } }

/-- The loop that asks the contacted connections. -/
def sendEvicts (sendList : Slot cfg → SendMark) (j : ℤ) (s : RdmaSession cfg) :
    Option (RdmaSession cfg) :=
  (List.finRange cfg.maxClient).foldlM
    (fun s i =>
      if sendList i = .contacted then (s.connAt i).map fun c => s.putConn (sendEvict c j)
      else some s) s

/-- `evict_list` and the number of entries written so far. -/
abbrev EvictList (cfg : ServerConfig) := List (Option (ChunkActivity cfg)) × ℕ

/-- One position of an `ACTIVITY` message: a nonzero word becomes the next entry. -/
def collectChunk (msg : Message cfg.maxFreeMemGb) (g : EvictList cfg) (m : Chunk cfg) :
    Option (EvictList cfg) :=
  if msg.buf m = 0 then some g
  else if g.2 < g.1.length then
    some (g.1.set g.2 (some ⟨ntohll .little (msg.buf m), m⟩), g.2 + 1)
  else none

/-- One contacted connection: its message is reset, its answer collected. -/
def collectConn (recvMsg : Slot cfg → Message cfg.maxFreeMemGb) (sendList : Slot cfg → SendMark)
    (g : RdmaSession cfg × EvictList cfg) (i : Slot cfg) :
    Option (RdmaSession cfg × EvictList cfg) :=
  if sendList i = .contacted then
    (g.1.connAt i).bind fun c =>
      ((List.finRange cfg.maxFreeMemGb).foldlM (collectChunk (recvMsg i)) g.2).map fun l =>
        (g.1.putConn { c with sendMsg := { c.sendMsg with sizeGb := 0, rkey := fun _ => 0 } }, l)
  else some g

/-- The loop that collects the answers into a list of `k` entries. -/
def collect (recvMsg : Slot cfg → Message cfg.maxFreeMemGb) (sendList : Slot cfg → SendMark)
    (k : ℤ) (s : RdmaSession cfg) : Option (RdmaSession cfg × EvictList cfg) :=
  (List.finRange cfg.maxClient).foldlM (collectConn recvMsg sendList)
    (s, (List.replicate k.toNat none, 0))

/-! ### Sorting and stopping -/

/-- What the sort loop changes besides the list. `connIndex` is the variable of that name, which
has no value before the first round. -/
structure Marking (cfg : ServerConfig) where
  session : RdmaSession cfg
  sendList : Slot cfg → SendMark
  connIndex : Option (Slot cfg)

/-- The end of a round: the chunk in place is a victim, and is flagged in its owner's message. -/
def markVictim (g : Marking cfg) (e : ChunkActivity cfg) : Option (Marking cfg) :=
  (index? cfg.maxClient (g.session.rdmaRemote.connMap e.chunkIndex)).bind fun k =>
    (g.session.connAt k).map fun c =>
      { session := g.session.putConn
          { c with
            sendMsg :=
              { c.sendMsg with
                rkey := Function.update c.sendMsg.rkey e.chunkIndex 1
                sizeGb := c.sendMsg.sizeGb + 1 } }
        sendList :=
          if g.sendList k = .contacted then Function.update g.sendList k .stopped else g.sendList
        connIndex := some k }

/-- The double loop over `evict_list`. -/
def sortAndMark (j k : ℤ) (l : List (Option (ChunkActivity cfg))) (g : Marking cfg) :
    Option (List (Option (ChunkActivity cfg)) × Marking cfg) :=
  exchangeRounds (fun e : ChunkActivity cfg => e.activity.toNat) k.toNat markVictim
    (List.range' 0 j.toNat) l g

/-- `send_stop`. -/
def sendStop (c : Connection cfg) (n : ℤ) : Connection cfg :=
  { c with sendMsg := { c.sendMsg with type := .stop, sizeGb := n } }

/-- The last loop at one connection. The count for a connection with victims is taken from the
connection that `conn_index` was left at. Returns the messages in the order they are sent. -/
def stopConnAt (sendList : Slot cfg → SendMark) (connIndex : Option (Slot cfg))
    (g : RdmaSession cfg × List (Slot cfg × Message cfg.maxFreeMemGb)) (i : Slot cfg) :
    Option (RdmaSession cfg × List (Slot cfg × Message cfg.maxFreeMemGb)) :=
  match sendList i with
  | .stopped => do
    let last ← connIndex
    let lastConn ← g.1.connAt last
    let c ← g.1.connAt i
    let c' := sendStop c lastConn.sendMsg.sizeGb
    some (g.1.putConn c', g.2 ++ [(i, c'.sendMsg)])
  | .contacted => do
    let c ← g.1.connAt i
    let c' := sendStop c 0
    some (g.1.putConn c', g.2 ++ [(i, c'.sendMsg)])
  | .untouched => some g

/-- The last loop. -/
def sendStops (g : Marking cfg) :
    Option (RdmaSession cfg × List (Slot cfg × Message cfg.maxFreeMemGb)) :=
  (List.finRange cfg.maxClient).foldlM (stopConnAt g.sendList g.connIndex) (g.session, [])

/-- `evict_mem` behind the selection: the session and the `STOP` messages. -/
def evictContacted (recvMsg : Slot cfg → Message cfg.maxFreeMemGb) (s : RdmaSession cfg)
    (sendList : Slot cfg → SendMark) (j : ℤ) :
    Option (RdmaSession cfg × List (Slot cfg × Message cfg.maxFreeMemGb)) := do
  let k ← contactedSize s sendList
  let s ← sendEvicts sendList j s
  let (s, l, _) ← collect recvMsg sendList k s
  let (_, g) ← sortAndMark j k l { session := s, sendList := sendList, connIndex := none }
  sendStops g

/-- `evict_mem`. -/
def evictMem (fuel : ℕ) (rand : ℕ → ℕ) (recvMsg : Slot cfg → Message cfg.maxFreeMemGb)
    (s : RdmaSession cfg) (stopG : ℤ) :
    Option (RdmaSession cfg × List (Slot cfg × Message cfg.maxFreeMemGb)) := do
  let (s, selected) ← evictSelect fuel rand s stopG
  match selected with
  | none => some (s, [])
  | some (sendList, j) => evictContacted recvMsg s sendList j

end SystemDev.Server
