import SystemDev.Octopus.CqHandler
import SystemDev.Octopus.Setup

/-!
# One client and the server during the setup

The setup thread, the connection manager, the network and the completion queue handler of
one client run beside three threads of the server: the one that reports the established
connection and sends `FREE_SIZE` at once, the poller that answers requests, and the memory
monitor, which may evict chunks of the client whenever it holds some. Each of them takes its
steps in its own time.

The handshake goes well here: the connection manager reports the resolved address, the
resolved route and the connection, each after the verb that asks for it, and the event handler
returns 0. The server's
messages carry any contents. A message arrives when the client has a posted receive for it,
and its completion is added to the queue in the same step.

## Main definitions

* `Link.step` — the steps of the client, the server and the network
-/

namespace SystemDev.Octopus

open SystemDev.Library SystemDev.Rdma

/-- How far the connection manager is with the connection. -/
inductive Handshake
  | idle
  | resolving
  | addrResolved
  | routeResolved
  | connecting
  | established
  deriving DecidableEq

/-- The server as far as this client sees it: whether it has heard of the connection, the
request that its poller is answering, whether `evict_mem` may select a chunk of the client,
and where the memory monitor is with an eviction. `evictSem` counts the `ACTIVITY` messages
that `evict_mem` has not waited for. -/
structure Peer where
  connected : Bool
  answering : Option MessageType
  mapped : Bool
  evicting : Bool
  evictSem : ℕ
  deriving DecidableEq

/-- The client, the server and what is between them. `recvs` counts the receives that the
client has posted and not had completed, `sends` its requests without a completion, and
`sent` records how many messages the server has posted. -/
structure Link where
  client : CqHandler
  handshake : Handshake
  recvs : ℕ
  sends : ℕ
  toServer : List MessageType
  toClient : List (Message chunkPositions)
  server : Peer
  sent : ℕ

namespace Link

/-- What can happen next. The first group are steps of the client: its setup thread, the
next event of the handshake, and the handler. The second group are steps of the server, and
the third of the network. -/
inductive Op
  | call (ret : ℤ)
  | wake
  | signal
  | cm
  | handler (op : CqHandler.Op)
  | connected (msg : Message chunkPositions)
  | receive
  | answer (msg : Message chunkPositions)
  | evict (msg : Message chunkPositions)
  | stop (msg : Message chunkPositions)
  | deliver
  | sendDone

/-- The module is loaded and the server knows nothing of the client. -/
def init : Link where
  client :=
    { driver := Connect.init, cq := .empty, pc := .idle, arrived := [], dispatched := [] }
  handshake := .idle
  recvs := 0
  sends := 0
  toServer := []
  toClient := []
  server := ⟨false, none, false, false, 0⟩
  sent := 0

/-- The setup thread goes on. -/
def withDriver (s : Link) (driver : Connect) : Link :=
  { s with client := { s.client with driver := driver } }

/-- What a verb of the setup that succeeds does outside the thread. The request for chunks
asks for more than one. -/
def verb (s : Link) : Pc → Link
  | .resolveAddr => { s with handshake := .resolving }
  | .postRecv | .postRecvChunks => { s with recvs := s.recvs + 1 }
  | .rdmaConnect => { s with handshake := .connecting }
  | .reqNotifyCq => { s with client := { s.client with cq := s.client.cq.arm } }
  | .sendRequest =>
    { s with sends := s.sends + 1, toServer := s.toServer ++ [.requestChunks] }
  | _ => s

/-- The setup thread executes a verb that returns `ret`. -/
def call (s : Link) (ret : ℤ) : Option Link := do
  let driver ← s.client.driver.call ret
  let t := s.withDriver driver
  if ret = 0 ∧ driver.pc ≠ .crashed then some (t.verb s.client.driver.pc) else some t

/-- The next event of the handshake. -/
def nextEvent : Handshake → Option (CmEvent × Handshake)
  | .resolving => some (.addrResolved, .addrResolved)
  -- the handler of the resolved address asks for the route
  | .addrResolved => some (.routeResolved, .routeResolved)
  | .connecting => some (.established, .established)
  | .idle | .routeResolved | .established => none

/-- The connection manager reports it. -/
def cm (s : Link) : Option Link := do
  let (event, handshake) ← nextEvent s.handshake
  let driver ← s.client.driver.step (.cm event 0)
  some { s.withDriver driver with handshake := handshake }

/-- The server posts a message to the client. -/
def post (s : Link) (msg : Message chunkPositions) : Link :=
  { s with toClient := s.toClient ++ [msg], sent := s.sent + 1 }

/-- `handle_cqe` on a received message, up to the answer. Chunks are mapped to the client
before the answer is posted. -/
def receive (s : Link) : Option Link :=
  match s.toServer with
  | [] => none
  | type :: rest =>
    if s.server.answering ≠ none then none
    else
      let s := { s with toServer := rest }
      match type with
      | .query => some { s with server := { s.server with answering := some type } }
      | .requestChunks | .requestSingleChunk =>
        some { s with server := { s.server with answering := some type, mapped := true } }
      | .activity => some { s with server := { s.server with evictSem := s.server.evictSem + 1 } }
      | .done => some s
      | _ => none

/-- The type of the answer to a request. -/
def answerType : MessageType → MessageType
  | .query => .freeSize
  | .requestSingleChunk => .sendSingleChunk
  | _ => .sendChunks

/-- A received message with its completion. -/
def recvWc (msg : Message chunkPositions) : Wc chunkPositions :=
  ⟨0, wcSuccess, .recv sizeofMessage msg⟩

/-- A completion is added to the client's queue. -/
def complete (s : Link) (wc : Wc chunkPositions) : Link :=
  { s with
    client := { s.client with
      cq := s.client.cq.add wc
      arrived := s.client.arrived ++ [wc] } }

/-- One step of the client, the server or the network. -/
def step (s : Link) : Op → Option Link
  | .call ret => s.call ret
  | .wake => (s.client.driver.step .wake).map s.withDriver
  | .signal => (s.client.driver.step .signal).map s.withDriver
  | .cm => s.cm
  | .handler op =>
    match op with
    | .add _ => none
    | op => (s.client.step op).map fun client => { s with client := client }
  | .connected msg =>
    -- `rdma_connected`: the size is sent with the event itself
    if s.handshake ∈ [.connecting, .established] ∧ s.server.connected = false ∧
        msg.type = .freeSize then
      some { s.post msg with server := { s.server with connected := true } }
    else none
  | .receive => s.receive
  | .answer msg =>
    match s.server.answering with
    | some type =>
      if msg.type = answerType type then
        some { s.post msg with server := { s.server with answering := none } }
      else none
    | none => none
  | .evict msg =>
    if s.server.mapped ∧ s.server.evicting = false ∧ msg.type = .evict then
      some { s.post msg with server := { s.server with evicting := true } }
    else none
  | .stop msg =>
    -- `sem_wait(&conn->evict_sem)` stands before
    if s.server.evicting ∧ 0 < s.server.evictSem ∧ msg.type = .stop then
      some { s.post msg with
        server := { s.server with evicting := false, evictSem := s.server.evictSem - 1 } }
    else none
  | .deliver =>
    match s.toClient with
    | [] => none
    | msg :: rest =>
      if s.recvs = 0 then none
      else some { s.complete (recvWc msg) with toClient := rest, recvs := s.recvs - 1 }
  | .sendDone =>
    if s.sends = 0 then none
    else some { s.complete ⟨0, wcSuccess, .send⟩ with sends := s.sends - 1 }

end Link

/-! ### Steps of the setup thread -/

namespace Connect

variable {s t : Connect}

/-- What a step of the setup thread does, whether the verb or the wait succeeded or not: the
control moves on, the session keeps its state or is idle, and only `ib_req_notify_cq`
touches the completion queue. -/
structure Onward (s t : Connect) : Prop where
  rank_lt : s.pc.rank < t.pc.rank
  state : t.session.state = s.session.state ∨ t.session.state = .idle
  armed : s.pc ≠ .reqNotifyCq → t.armed = s.armed
  toConnect : t.pc = .rdmaConnect → s.pc = .postRecv
  toNotify : t.pc = .waitFreeMem → s.pc = .reqNotifyCq ∧ t.armed = true
  toRequest : t.pc = .sendRequest → s.pc = .postRecvChunks

theorem onward_of_call {ret : ℤ} (h : s.call ret = some t) : Onward s t := by
  -- every branch records the step and names the next one
  cases hpc : s.pc <;> simp only [call, hpc, checked] at h <;> (try split_ifs at h) <;> cases h
  all_goals
    constructor
    case rank_lt =>
      rw [hpc]
      exact Nat.le_of_ble_eq_true rfl
    case state => simp [record]
    case armed => simp [record, hpc]
    all_goals simp_all [record]

/-- The first `ib_req_notify_cq` arms the queue when it succeeds. -/
theorem armed_of_call {ret : ℤ} (h : s.call ret = some t) (hpc : s.pc = .reqNotifyCq)
    (hs : s.armed = false) : t.armed = true ↔ ret = 0 ∧ t.pc ≠ .crashed := by
  simp only [call, hpc] at h
  split_ifs at h with hcollected
  · obtain rfl := Option.some_inj.mp h
    simp [record, hs]
  · obtain rfl := Option.some_inj.mp h
    rw [checked]
    split_ifs with hret <;> simp [record, hret]

theorem onward_of_leaveWait (h : s.leaveWait = some t) : Onward s t := by
  cases hpc : s.pc <;> simp only [leaveWait, hpc] at h <;> (try split_ifs at h) <;> cases h
  all_goals
    constructor
    case rank_lt =>
      rw [hpc]
      exact Nat.le_of_ble_eq_true rfl
    case state => exact .inl rfl
    case armed => exact fun _ => rfl
    all_goals
      intro hnext
      cases hnext

theorem armed_of_leaveWait (h : s.leaveWait = some t) : t.armed = s.armed := by
  cases hpc : s.pc <;> simp only [leaveWait, hpc] at h <;> (try split_ifs at h) <;> cases h <;>
    rfl

/-- A step puts the session into no state but `IDLE`. -/
theorem Onward.state_eq (h : Onward s t) {state : SessionState} (hne : state ≠ .idle)
    (ht : t.session.state = state) : s.session.state = state := by
  rcases h.state with hsame | hidle
  · exact hsame.symm.trans ht
  · exact absurd (ht.symm.trans hidle) hne

theorem Onward.rank_le (h : Onward s t) {n : ℕ} (ht : t.pc.rank ≤ n) : s.pc.rank ≤ n :=
  h.rank_lt.le.trans ht

theorem switch_frame {kzalloc : Bool} {ret : ℤ} {wc : Wc chunkPositions} {p : Connect × ℤ}
    (h : s.switch kzalloc ret wc = some p) : p.1.pc = s.pc ∧ p.1.armed = s.armed := by
  rw [switch] at h
  split at h
  case h_1 =>
    obtain ⟨q, -, hrest⟩ := Option.bind_eq_some_iff.mp h
    obtain rfl := Option.some_inj.mp hrest
    dsimp only
    split_ifs <;> exact ⟨rfl, rfl⟩
  all_goals
    obtain rfl := Option.some_inj.mp h
    exact ⟨rfl, rfl⟩

end Connect

/-- The handler does not move the setup thread. -/
theorem CqHandler.driver_of_step {s t : CqHandler} {op : CqHandler.Op} (hop : op.OfHandler)
    (h : s.step op = some t) :
    t.driver.pc = s.driver.pc ∧ t.driver.armed = s.driver.armed := by
  cases op with
  | add wc => exact hop.elim
  | enter =>
    obtain ⟨-, -, ⟨-, rfl⟩ | ⟨-, rfl⟩⟩ := enter_cases h
    all_goals exact ⟨rfl, rfl⟩
  | notify ret =>
    obtain ⟨-, ⟨-, rfl⟩ | ⟨-, rfl⟩⟩ := notify_cases h
    all_goals exact ⟨rfl, rfl⟩
  | poll =>
    obtain ⟨-, ⟨-, rfl⟩ | ⟨wc, rest, -, ⟨-, rfl⟩ | ⟨-, rfl⟩⟩⟩ := poll_cases h
    all_goals exact ⟨rfl, rfl⟩
  | dispatch kzalloc ret =>
    obtain ⟨wc, p, -, hp, ⟨-, rfl⟩ | ⟨-, rfl⟩⟩ := dispatch_cases h
    · exact ⟨rfl, rfl⟩
    · exact Connect.switch_frame hp

namespace Link

variable {s t : Link} {op : Op}

@[simp] theorem verb_driver (s : Link) (pc : Pc) :
    (s.verb pc).client.driver = s.client.driver := by
  cases pc <;> rfl

/-- Of the verbs only `ib_req_notify_cq` reaches the completion queue. -/
theorem verb_client (s : Link) {pc : Pc} (h : pc ≠ .reqNotifyCq) :
    (s.verb pc).client = s.client := by
  cases pc <;> first | rfl | exact absurd rfl h

theorem call_cases {ret : ℤ} (h : s.call ret = some t) :
    ∃ driver, s.client.driver.call ret = some driver ∧
      ((ret = 0 ∧ driver.pc ≠ .crashed ∧
          t = (s.withDriver driver).verb s.client.driver.pc) ∨
        (¬ (ret = 0 ∧ driver.pc ≠ .crashed) ∧ t = s.withDriver driver)) := by
  obtain ⟨driver, hdriver, hrest⟩ := Option.bind_eq_some_iff.mp h
  refine ⟨driver, hdriver, ?_⟩
  dsimp only at hrest
  split_ifs at hrest with hok
  · exact .inl ⟨hok.1, hok.2, (Option.some_inj.mp hrest).symm⟩
  · exact .inr ⟨hok, (Option.some_inj.mp hrest).symm⟩

/-- The handler keeps the id at an event of the handshake. -/
theorem cmEvent_of_nextEvent {h h' : Handshake} {event : CmEvent} (c : Connect)
    (hnext : nextEvent h = some (event, h')) : c.cmEvent event 0 = c.cmSwitch event := by
  have hevent : event ≠ .deviceRemoval := by
    rintro rfl
    cases h <;> cases hnext
  simp [Connect.cmEvent, Connect.cmEventHandler, hevent]

theorem cm_cases (h : s.cm = some t) :
    ∃ event handshake, nextEvent s.handshake = some (event, handshake) ∧
      t = { s.withDriver (s.client.driver.cmSwitch event) with handshake := handshake } := by
  obtain ⟨⟨event, handshake⟩, hnext, hrest⟩ := Option.bind_eq_some_iff.mp h
  obtain ⟨driver, hdriver, hlast⟩ := Option.bind_eq_some_iff.mp hrest
  refine ⟨event, handshake, hnext, ?_⟩
  rw [Connect.step, cmEvent_of_nextEvent _ hnext] at hdriver
  split_ifs at hdriver
  obtain rfl := Option.some_inj.mp hdriver
  exact (Option.some_inj.mp hlast).symm

/-- The events of the handshake lead to states of the handshake. -/
theorem state_of_nextEvent {h h' : Handshake} {event : CmEvent} (c : Connect)
    (hnext : nextEvent h = some (event, h')) :
    (c.cmSwitch event).session.state ≠ .error ∧
      (c.cmSwitch event).session.state ≠ .freeMemRecv ∧
      (c.cmSwitch event).pc = c.pc ∧ (c.cmSwitch event).armed = c.armed := by
  cases h <;> cases hnext
  all_goals exact ⟨nofun, nofun, rfl, rfl⟩

theorem handler_cases {op : CqHandler.Op} (h : s.step (.handler op) = some t) :
    op.OfHandler ∧ ∃ client, s.client.step op = some client ∧ t = { s with client := client } := by
  cases op with
  | add wc => simp [step] at h
  | _ =>
    simp only [step] at h
    obtain ⟨client, hclient, hrest⟩ := Option.map_eq_some_iff.mp h
    exact ⟨trivial, client, hclient, hrest.symm⟩

theorem deliver_cases (h : s.step .deliver = some t) :
    ∃ msg rest, s.toClient = msg :: rest ∧ 0 < s.recvs ∧
      t = { s.complete (recvWc msg) with toClient := rest, recvs := s.recvs - 1 } := by
  rw [step] at h
  split at h
  case h_1 => cases h
  case h_2 msg rest hqueue =>
    split_ifs at h with hnone
    exact ⟨msg, rest, hqueue, Nat.pos_of_ne_zero hnone, (Option.some_inj.mp h).symm⟩

theorem sendDone_cases (h : s.step .sendDone = some t) :
    0 < s.sends ∧ t = { s.complete ⟨0, wcSuccess, .send⟩ with sends := s.sends - 1 } := by
  rw [step] at h
  split_ifs at h with hnone
  exact ⟨Nat.pos_of_ne_zero hnone, (Option.some_inj.mp h).symm⟩

theorem connected_cases {msg : Message chunkPositions} (h : s.step (.connected msg) = some t) :
    s.handshake ∈ [.connecting, .established] ∧ s.server.connected = false ∧
      msg.type = .freeSize ∧
      t = { s.post msg with server := { s.server with connected := true } } := by
  rw [step] at h
  split_ifs at h with hguard
  exact ⟨hguard.1, hguard.2.1, hguard.2.2, (Option.some_inj.mp h).symm⟩

theorem receive_cases (h : s.receive = some t) :
    ∃ type rest server, s.toServer = type :: rest ∧ s.server.answering = none ∧
      t = { s with toServer := rest, server := server } ∧
      server.connected = s.server.connected ∧
      (server.answering.isSome ∨ server.mapped = s.server.mapped) := by
  rw [receive] at h
  split at h
  case h_1 => cases h
  case h_2 type rest hqueue =>
    split_ifs at h with hbusy
    dsimp only at h
    refine ⟨type, rest, ?_⟩
    split at h
    case h_6 => cases h
    case h_4 | h_5 =>
      obtain rfl := Option.some_inj.mp h
      exact ⟨_, hqueue, not_not.mp hbusy, rfl, rfl, .inr rfl⟩
    all_goals
      obtain rfl := Option.some_inj.mp h
      exact ⟨_, hqueue, not_not.mp hbusy, rfl, rfl, .inl rfl⟩

theorem answer_cases {msg : Message chunkPositions} (h : s.step (.answer msg) = some t) :
    ∃ type, s.server.answering = some type ∧ msg.type = answerType type ∧
      t = { s.post msg with server := { s.server with answering := none } } := by
  rw [step] at h
  split at h
  case h_1 type htype =>
    split_ifs at h with hmatch
    exact ⟨type, htype, hmatch, (Option.some_inj.mp h).symm⟩
  case h_2 => cases h

theorem evict_cases {msg : Message chunkPositions} (h : s.step (.evict msg) = some t) :
    s.server.mapped = true ∧ s.server.evicting = false ∧ msg.type = .evict ∧
      t = { s.post msg with server := { s.server with evicting := true } } := by
  rw [step] at h
  split_ifs at h with hguard
  exact ⟨hguard.1, hguard.2.1, hguard.2.2, (Option.some_inj.mp h).symm⟩

theorem stop_cases {msg : Message chunkPositions} (h : s.step (.stop msg) = some t) :
    s.server.evicting = true ∧ 0 < s.server.evictSem ∧ msg.type = .stop ∧
      t = { s.post msg with
        server := { s.server with evicting := false, evictSem := s.server.evictSem - 1 } } := by
  rw [step] at h
  split_ifs at h with hguard
  exact ⟨hguard.1, hguard.2.1, hguard.2.2, (Option.some_inj.mp h).symm⟩

theorem leaveWait_cases (hop : op = .wake ∨ op = .signal) (h : s.step op = some t) :
    ∃ driver, s.client.driver.leaveWait = some driver ∧ t = s.withDriver driver := by
  rcases hop with rfl | rfl
  all_goals
    obtain ⟨driver, hdriver, hrest⟩ := Option.map_eq_some_iff.mp h
    rw [Connect.step] at hdriver
    split_ifs at hdriver
    exact ⟨driver, hdriver, hrest.symm⟩

/-- The setup up to the request for a connection. -/
def untilConnect : List Op :=
  [.call 0, .call 0, .cm, .cm, .wake, .call 0, .call 0, .call 0, .call 0, .call 0, .call 0,
    .call 0]

end Link

end SystemDev.Octopus
