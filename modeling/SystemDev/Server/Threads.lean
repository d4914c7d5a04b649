import SystemDev.Library.Notify
import SystemDev.Library.Run
import SystemDev.Rdma.Message

/-!
# The threads of the server

Three threads work on the connections: the main thread builds them, `poll_cq` takes completions and
handles the messages, and `free_mem` asks for chunks back inside `evict_mem`. Each connection has
one buffer for the messages that arrive. It is handed to the adapter with `post_receives`, and from
the arrival of a message until the next `post_receives` it belongs to the thread that reads the
message. An `ACTIVITY` message changes hands: `handle_cqe` only raises a semaphore for it, and
`evict_mem` reads it and posts the next receive.

One step is one call of a thread, or one event of the adapter. What the operations do to the session
is in `Session`; here only the messages, the semaphores and the queues matter. Two lists of each
connection record what arrived and what was read.

A run is followed up to its end (`Ending`): a thread calls `die`, a client disconnects and
`destroy_connection` frees the buffer that a completion may still point to, `ibv_poll_cq` fails and
the loop handles the last completion once more, or a completion does not fit into the ten entries
of the queue and is lost.
-/

namespace SystemDev.Server

open SystemDev.Library SystemDev.Rdma

/-- `struct ibv_wc`, as far as `handle_cqe` looks at it. `conn` is what `wr_id` points to. -/
structure Cqe where
  conn : ℕ
  success : Bool
  recv : Bool
  deriving DecidableEq

/-- Who reads a message. -/
inductive Reader
  | handleCqe
  | evictMem
  deriving DecidableEq

/-- The next thing `poll_cq` does. -/
inductive PollPc
  | getEvent
  | reqNotify
  | pollCq
  | handle (c : ℕ)
  | answer (c : ℕ)
  | postReceives (c : ℕ)

/-- The next thing `evict_mem` does. `todo` are the connections that the current loop has still to
visit, `conns` those that are contacted. -/
inductive EvictPc
  | idle
  | sendEvict (todo conns : List ℕ)
  | waitEvict (todo conns : List ℕ)
  | collect (c : ℕ) (todo conns : List ℕ)
  | postReceives (c : ℕ) (todo conns : List ℕ)
  | sendStop (todo : List ℕ)
  | waitStop (c : ℕ) (todo : List ℕ)

/-- `struct connection` with its queue pair: `posted` receives and `sends` that are outstanding.
`arrived` and `read` are the record. -/
structure ConnQueues (n : ℕ) where
  built : Bool
  connected : Bool
  posted : ℕ
  sends : ℕ
  recvMsg : Message n
  evictSem : ℕ
  stopSem : ℕ
  arrived : List (Message n)
  read : List (Reader × Message n)

/-- What ends a run. -/
inductive Ending
  | died
  | disconnected (c : ℕ)
  | pollFailed
  | overrun
  deriving DecidableEq

/-- The `cqe` of `ibv_create_cq`. -/
def cqEntries : ℕ := 10

/-- The connections, the completion queue they share, and the threads. -/
structure Threads (n : ℕ) where
  conn : ℕ → ConnQueues n
  cq : NotifyQueue Cqe
  poller : PollPc
  monitor : EvictPc
  ended : Option Ending

/-- What can happen next. `ok` tells whether the call succeeds. -/
inductive Act (n : ℕ)
  /-- The main thread: `build_connection`, `rdma_connected` and `on_disconnect`. -/
  | buildConnection (c : ℕ) (ok : Bool)
  | rdmaConnected (c : ℕ) (ok : Bool)
  | disconnect (c : ℕ)
  /-- The adapter: a message arrives, a send completes, a receive completes with an error. -/
  | arrive (c : ℕ) (msg : Message n)
  | sent (c : ℕ) (success : Bool)
  | flush (c : ℕ)
  /-- `poll_cq` and `handle_cqe`. -/
  | getEvent
  | reqNotify (ok : Bool)
  | pollCq
  | pollError
  | handle
  | answer (ok : Bool)
  | repost (ok : Bool)
  /-- `evict_mem`. -/
  | evict (conns : List ℕ)
  | sendEvict (ok : Bool)
  | waitEvict
  | collect
  | repostCollected (ok : Bool)
  | sendStop (count : ℤ) (ok : Bool)
  | waitStop

namespace Threads

variable {n : ℕ}

/-- Before the first connection. `mem` is what the buffers hold when they are allocated.
`build_context` arms the queue before it starts the thread. -/
def init (mem : ℕ → Message n) : Threads n where
  conn c :=
    { built := false
      connected := false
      posted := 0
      sends := 0
      recvMsg := mem c
      evictSem := 0
      stopSem := 0
      arrived := []
      read := [] }
  cq := NotifyQueue.empty.arm
  poller := .getEvent
  monitor := .idle
  ended := none

/-- The run ends. -/
def stop (s : Threads n) (ending : Ending) : Threads n := { s with ended := some ending }

/-- `die`. -/
def die (s : Threads n) : Threads n := s.stop .died

/-- Write back a connection. -/
def putConn (s : Threads n) (c : ℕ) (k : ConnQueues n) : Threads n :=
  { s with conn := Function.update s.conn c k }

@[simp] theorem putConn_conn_self (s : Threads n) (c : ℕ) (k : ConnQueues n) :
    (s.putConn c k).conn c = k :=
  Function.update_self ..

@[simp] theorem putConn_putConn (s : Threads n) (c : ℕ) (k k' : ConnQueues n) :
    (s.putConn c k).putConn c k' = s.putConn c k' := by
  simp [putConn]

/-- `post_receives`, where `ibv_post_recv` succeeds. -/
def postReceives (s : Threads n) (c : ℕ) : Threads n :=
  s.putConn c { s.conn c with posted := (s.conn c).posted + 1 }

/-- `send_message`, which spins until the connection is established. -/
def sendMessage (s : Threads n) (c : ℕ) (ok : Bool) : Option (Threads n) :=
  if (s.conn c).connected then
    some (if ok then s.putConn c { s.conn c with sends := (s.conn c).sends + 1 } else s.die)
  else none

/-! ### The main thread and the adapter -/

/-- `build_connection`. -/
def buildConnection (s : Threads n) (c : ℕ) (ok : Bool) : Option (Threads n) :=
  if (s.conn c).built then none
  else if ok then some ((s.putConn c { s.conn c with built := true }).postReceives c)
  else some s.die

/-- `rdma_connected`: from now on messages may be sent, the first one tells the free size. -/
def rdmaConnected (s : Threads n) (c : ℕ) (ok : Bool) : Option (Threads n) :=
  if (s.conn c).built ∧ ¬ (s.conn c).connected then
    (s.putConn c { s.conn c with connected := true }).sendMessage c ok
  else none

/-- `on_disconnect`, which calls `destroy_connection`. -/
def disconnect (s : Threads n) (c : ℕ) : Option (Threads n) :=
  if (s.conn c).built then some (s.stop (.disconnected c)) else none

/-- A completion is added to the queue, with what comes with it, unless the queue is full. -/
def complete (s : Threads n) (wc : Cqe) (k : ConnQueues n) : Threads n :=
  if s.cq.entries.length < cqEntries then { s.putConn wc.conn k with cq := s.cq.add wc }
  else s.stop .overrun

/-- A message arrives in the buffer of a posted receive; without one the sender retries. -/
def arrive (s : Threads n) (c : ℕ) (msg : Message n) : Option (Threads n) :=
  let k := s.conn c
  if k.posted = 0 then none
  else
    some (s.complete ⟨c, true, true⟩ { k with
      posted := k.posted - 1
      recvMsg := msg
      arrived := k.arrived ++ [msg] })

/-- A send completes. -/
def sent (s : Threads n) (c : ℕ) (success : Bool) : Option (Threads n) :=
  let k := s.conn c
  if k.sends = 0 then none
  else
    some (s.complete ⟨c, success, false⟩ { k with sends := k.sends - 1 })

/-- A receive completes with an error. -/
def flush (s : Threads n) (c : ℕ) : Option (Threads n) :=
  let k := s.conn c
  if k.posted = 0 then none
  else some (s.complete ⟨c, false, true⟩ { k with posted := k.posted - 1 })

/-! ### `poll_cq` -/

/-- `ibv_get_cq_event` and `ibv_ack_cq_events`. -/
def getEvent (s : Threads n) : Option (Threads n) :=
  match s.poller with
  | .getEvent =>
    if s.cq.pending = 0 then none else some { s with cq := s.cq.start, poller := .reqNotify }
  | _ => none

/-- `ibv_req_notify_cq`. -/
def reqNotify (s : Threads n) (ok : Bool) : Option (Threads n) :=
  match s.poller with
  | .reqNotify => some (if ok then { s with cq := s.cq.arm, poller := .pollCq } else s.die)
  | _ => none

/-- `ibv_poll_cq`, and `handle_cqe` up to the test of the opcode. -/
def pollCq (s : Threads n) : Option (Threads n) :=
  match s.poller with
  | .pollCq =>
    match s.cq.entries with
    | [] => some { s with poller := .getEvent }
    | wc :: _ =>
      if ¬ wc.success then some s.die
      else some { s with cq := s.cq.drop, poller := if wc.recv then .handle wc.conn else .pollCq }
  | _ => none

/-- `ibv_poll_cq` returns a negative value, which the loop takes for a completion. -/
def pollError (s : Threads n) : Option (Threads n) :=
  match s.poller with
  | .pollCq => some (s.stop .pollFailed)
  | _ => none

/-- The `switch` of `handle_cqe` over the type of the message in the buffer. -/
def handle (s : Threads n) : Option (Threads n) :=
  match s.poller with
  | .handle c =>
    let k := s.conn c
    let read := k.read ++ [(.handleCqe, k.recvMsg)]
    match k.recvMsg.type with
    | .query | .requestChunks | .requestSingleChunk =>
      some { s.putConn c { k with read := read } with poller := .answer c }
    -- the buffer stays with the message until `evict_mem` has read it
    | .activity => some { s.putConn c { k with evictSem := k.evictSem + 1 } with poller := .pollCq }
    | .done =>
      some { s.putConn c { k with read := read, stopSem := k.stopSem + 1 } with
              poller := .postReceives c }
    | _ => some s.die
  | _ => none

/-- The answer to a query or a request. -/
def answer (s : Threads n) (ok : Bool) : Option (Threads n) :=
  match s.poller with
  | .answer c => { s with poller := .postReceives c }.sendMessage c ok
  | _ => none

/-- `post_receives` at the end of a case. -/
def repost (s : Threads n) (ok : Bool) : Option (Threads n) :=
  match s.poller with
  | .postReceives c => some (if ok then { s.postReceives c with poller := .pollCq } else s.die)
  | _ => none

/-! ### `evict_mem` -/

/-- `evict_mem` has chosen the connections to contact. -/
def evict (s : Threads n) (conns : List ℕ) : Option (Threads n) :=
  match s.monitor with
  | .idle =>
    if conns.Nodup ∧ ∀ c ∈ conns, (s.conn c).built then
      some { s with monitor := .sendEvict conns conns }
    else none
  | _ => none

/-- The loop that asks the contacted connections. -/
def sendEvict (s : Threads n) (ok : Bool) : Option (Threads n) :=
  match s.monitor with
  | .sendEvict (c :: todo) conns => { s with monitor := .sendEvict todo conns }.sendMessage c ok
  | .sendEvict [] conns => some { s with monitor := .waitEvict conns conns }
  | _ => none

/-- `sem_wait(&conn->evict_sem)`, or the end of that loop. -/
def waitEvict (s : Threads n) : Option (Threads n) :=
  match s.monitor with
  | .waitEvict (c :: todo) conns =>
    let k := s.conn c
    if k.evictSem = 0 then none
    else
      some { s.putConn c { k with evictSem := k.evictSem - 1 } with
              monitor := .collect c todo conns }
  | .waitEvict [] conns => some { s with monitor := .sendStop conns }
  | _ => none

/-- The activities are read from the buffer. -/
def collect (s : Threads n) : Option (Threads n) :=
  match s.monitor with
  | .collect c todo conns =>
    let k := s.conn c
    some { s.putConn c { k with read := k.read ++ [(.evictMem, k.recvMsg)] } with
            monitor := .postReceives c todo conns }
  | _ => none

/-- `post_receives` after the activities were read. -/
def repostCollected (s : Threads n) (ok : Bool) : Option (Threads n) :=
  match s.monitor with
  | .postReceives c todo conns =>
    some (if ok then { s.postReceives c with monitor := .waitEvict todo conns } else s.die)
  | _ => none

/-- `send_stop`, or the end of `evict_mem`. -/
def sendStop (s : Threads n) (count : ℤ) (ok : Bool) : Option (Threads n) :=
  match s.monitor with
  | .sendStop (c :: todo) =>
    { s with monitor := if count = 0 then .sendStop todo else .waitStop c todo }.sendMessage c ok
  | .sendStop [] => some { s with monitor := .idle }
  | _ => none

/-- `sem_wait(&conn->stop_sem)`. -/
def waitStop (s : Threads n) : Option (Threads n) :=
  match s.monitor with
  | .waitStop c todo =>
    let k := s.conn c
    if k.stopSem = 0 then none
    else some { s.putConn c { k with stopSem := k.stopSem - 1 } with monitor := .sendStop todo }
  | _ => none

/-- One step of a thread or of the adapter, up to the end of the run. -/
def step (s : Threads n) (a : Act n) : Option (Threads n) :=
  if s.ended.isSome then none
  else
    match a with
    | .buildConnection c ok => s.buildConnection c ok
    | .rdmaConnected c ok => s.rdmaConnected c ok
    | .disconnect c => s.disconnect c
    | .arrive c msg => s.arrive c msg
    | .sent c success => s.sent c success
    | .flush c => s.flush c
    | .getEvent => s.getEvent
    | .reqNotify ok => s.reqNotify ok
    | .pollCq => s.pollCq
    | .pollError => s.pollError
    | .handle => s.handle
    | .answer ok => s.answer ok
    | .repost ok => s.repost ok
    | .evict conns => s.evict conns
    | .sendEvict ok => s.sendEvict ok
    | .waitEvict => s.waitEvict
    | .collect => s.collect
    | .repostCollected ok => s.repostCollected ok
    | .sendStop count ok => s.sendStop count ok
    | .waitStop => s.waitStop

end Threads

end SystemDev.Server
