import SystemDev.Library.ByteOrder
import SystemDev.Library.Notify
import SystemDev.Library.Run

/-!
# Adding two numbers over RDMA

The client writes its first number into the memory of the server and sends it the second; the server
adds them and sends the sum back. `client.c` and `server.c` are modelled from the moment the
connection is established: the server has posted its receive and has told the client, in the private
data of the connection, where to write.

One step is one call of a party, or one transfer or acknowledgement of the adapters. Work requests
are carried out in order, and each transfer reads the memory at the time it is made. Any call may
fail, and the connection may break at any time: what is outstanding then completes with an error.
-/

namespace SystemDev.APlusB

open Library

/-- What the two programs are started with: the arguments of the client behind `strtoul`, and the
address and key of the server's buffer. Both hosts have the same byte order. -/
structure Setup where
  e : Endian
  arg2 : BitVec 64
  arg3 : BitVec 64
  buf : BitVec 64
  rkey : BitVec 32

/-- `struct pdata`. -/
structure Pdata where
  bufVa : BitVec 64
  bufRkey : BitVec 32

/-- `struct ibv_wc`, as far as it is looked at. -/
structure Wc where
  wrId : ℕ
  success : Bool
  deriving DecidableEq

/-- The work requests in the client's send queue. -/
inductive Work
  | rdmaWrite
  | send
  deriving DecidableEq

/-- `wr_id`. -/
def Work.wrId : Work → ℕ
  | rdmaWrite => 1
  | send => 2

/-- What the adapters carry over. -/
inductive Transfer
  | rdmaWrite
  | send
  | reply
  deriving DecidableEq

/-- The next thing the client does. -/
inductive ClientPc
  | postRecv
  | postWrite
  | postSend
  | getEvent
  | reqNotify
  | pollCq
  | returned (ret : ℤ)
  deriving DecidableEq

/-- The next thing the server does. -/
inductive ServerPc
  | getEvent
  | reqNotify
  | pollCq
  | add
  | getSendEvent
  | pollSend
  | returned (ret : ℤ)
  deriving DecidableEq

/-- `client.c` and its adapter. `sends` is posted and not carried out, `unacked` a send that was
carried out and has not completed. -/
structure Client where
  pc : ClientPc
  buf0 : BitVec 32
  buf1 : BitVec 32
  recvPosted : Bool
  sends : List Work
  unacked : Bool
  cq : NotifyQueue Wc
  printed : List ℤ

/-- `server.c` and its adapter. -/
structure Server where
  pc : ServerPc
  buf0 : BitVec 32
  buf1 : BitVec 32
  recvPosted : Bool
  sendPosted : Bool
  unacked : Bool
  cq : NotifyQueue Wc

/-- Both parties, whether the connection is broken, and the transfers so far. -/
structure State where
  client : Client
  server : Server
  broken : Bool
  log : List Transfer

namespace Setup

variable (c : Setup)

/-- `buf[0]` of the client before it is brought into network order. -/
def a : BitVec 32 := c.arg2.setWidth 32

/-- `buf[1]`. -/
def b : BitVec 32 := c.arg3.setWidth 32

/-- The private data of the server. -/
def repPdata : Pdata where
  bufVa := (htonl c.e (c.buf.setWidth 32)).setWidth 64
  bufRkey := htonl c.e c.rkey

/-- `send_wr.wr.rdma.remote_addr`. -/
def remoteAddr : BitVec 64 := (ntohl c.e (c.repPdata.bufVa.setWidth 32)).setWidth 64

/-- `send_wr.wr.rdma.rkey`. -/
def remoteKey : BitVec 32 := ntohl c.e c.repPdata.bufRkey

/-- A write of one word stays inside the two words that are registered. -/
def permits (addr : BitVec 64) (key : BitVec 32) : Bool :=
  key = c.rkey ∧ c.buf.toNat ≤ addr.toNat ∧ addr.toNat + 4 ≤ c.buf.toNat + 8

end Setup

/-- The state when the connection has been established. -/
def init : State where
  client :=
    { pc := .postRecv, buf0 := 0, buf1 := 0, recvPosted := false, sends := [], unacked := false
      cq := NotifyQueue.empty.arm, printed := [] }
  server :=
    { pc := .getEvent, buf0 := 0, buf1 := 0, recvPosted := true, sendPosted := false
      unacked := false, cq := NotifyQueue.empty.arm }
  broken := false
  log := []

/-! ### The adapters -/

/-- Add completions one after the other. -/
def addAll (q : NotifyQueue Wc) (l : List Wc) : NotifyQueue Wc := l.foldl NotifyQueue.add q

/-- What the client has outstanding, completed with an error. -/
def Client.flushed (k : Client) : List Wc :=
  k.sends.map (fun w => ⟨w.wrId, false⟩) ++ (if k.unacked then [⟨2, false⟩] else []) ++
    if k.recvPosted then [⟨0, false⟩] else []

/-- What the server has outstanding, completed with an error. -/
def Server.flushed (v : Server) : List Wc :=
  (if v.sendPosted || v.unacked then [⟨0, false⟩] else []) ++
    if v.recvPosted then [⟨0, false⟩] else []

/-- The connection breaks. -/
def State.breakDown (s : State) : State where
  client := { s.client with
    recvPosted := false, sends := [], unacked := false, cq := addAll s.client.cq s.client.flushed }
  server := { s.server with
    recvPosted := false, sendPosted := false, unacked := false
    cq := addAll s.server.cq s.server.flushed }
  broken := true
  log := s.log

/-- The first number has been written. -/
def State.afterWrite (s : State) (rest : List Work) : State := { s with
  client := { s.client with sends := rest }
  -- the address is not behind the start of the buffer, so that this is `buf[0]`
  server := { s.server with buf0 := s.client.buf0 }
  log := s.log ++ [.rdmaWrite] }

/-- The second number has been sent. -/
def State.afterSend (s : State) (rest : List Work) : State := { s with
  client := { s.client with sends := rest, unacked := true }
  server := { s.server with
    buf1 := s.client.buf1, recvPosted := false, cq := s.server.cq.add ⟨0, true⟩ }
  log := s.log ++ [.send] }

/-- The sum has been sent. -/
def State.afterReply (s : State) : State := { s with
  client := { s.client with
    buf0 := s.server.buf0, recvPosted := false, cq := s.client.cq.add ⟨0, true⟩ }
  server := { s.server with sendPosted := false, unacked := true }
  log := s.log ++ [.reply] }

/-- The client's adapter carries out the next request. -/
def transmit (c : Setup) (s : State) : Option State :=
  if s.broken then none
  else match s.client.sends with
    | [] => none
    | .rdmaWrite :: rest =>
      if c.permits c.remoteAddr c.remoteKey then some (s.afterWrite rest) else some s.breakDown
    | .send :: rest => if s.server.recvPosted then some (s.afterSend rest) else none

/-- The client's send completes. -/
def clientAck (s : State) : Option State :=
  if !s.broken && s.client.unacked then
    some { s with client := { s.client with
      unacked := false, cq := s.client.cq.add ⟨2, true⟩ } }
  else none

/-- The server's adapter carries out the send. -/
def reply (s : State) : Option State :=
  if !s.broken && s.server.sendPosted && s.client.recvPosted then some s.afterReply else none

/-- The server's send completes. -/
def serverAck (s : State) : Option State :=
  if !s.broken && s.server.unacked then
    some { s with server := { s.server with
      unacked := false, cq := s.server.cq.add ⟨0, true⟩ } }
  else none

/-! ### The parties -/

/-- A request is posted; on a broken connection it completes with an error at once. -/
def Client.post (k : Client) (broken : Bool) (w : Work) : Client :=
  if broken then { k with cq := k.cq.add ⟨w.wrId, false⟩ } else { k with sends := k.sends ++ [w] }

/-- A call of the client that succeeds. -/
def clientCall (c : Setup) (broken : Bool) (k : Client) : Option Client :=
  match k.pc with
  | .postRecv =>
    if broken then some { k with pc := .postWrite, cq := k.cq.add ⟨0, false⟩ }
    else some { k with pc := .postWrite, recvPosted := true }
  | .postWrite =>
    some ({ k with
      pc := .postSend, printed := k.printed ++ [c.a.toInt, c.b.toInt]
      buf0 := htonl c.e c.a, buf1 := htonl c.e c.b }.post broken .rdmaWrite)
  | .postSend => some ({ k with pc := .getEvent }.post broken .send)
  | .getEvent =>
    if 0 < k.cq.pending then some { k with pc := .reqNotify, cq := k.cq.start } else none
  | .reqNotify => some { k with pc := .pollCq, cq := k.cq.arm }
  | .pollCq =>
    match k.cq.entries with
    | [] => some { k with pc := .returned 1 }
    | wc :: _ =>
      if !wc.success then some { k with pc := .returned 1, cq := k.cq.drop }
      else if wc.wrId = 0 then
        some { k with
          pc := .returned 0, cq := k.cq.drop
          printed := k.printed ++ [(ntohl c.e k.buf0).toInt] }
      else some { k with pc := .getEvent, cq := k.cq.drop }
  | .returned _ => none

/-- A call of the server that succeeds. -/
def serverCall (c : Setup) (broken : Bool) (v : Server) : Option Server :=
  match v.pc with
  | .getEvent =>
    if 0 < v.cq.pending then some { v with pc := .reqNotify, cq := v.cq.start } else none
  | .reqNotify => some { v with pc := .pollCq, cq := v.cq.arm }
  | .pollCq =>
    match v.cq.entries with
    | [] => some { v with pc := .returned 1 }
    | wc :: _ =>
      if !wc.success then some { v with pc := .returned 1, cq := v.cq.drop }
      else some { v with pc := .add, cq := v.cq.drop }
  | .add =>
    let v := { v with
      pc := ServerPc.getSendEvent, buf0 := htonl c.e (ntohl c.e v.buf0 + ntohl c.e v.buf1) }
    if broken then some { v with cq := v.cq.add ⟨0, false⟩ } else some { v with sendPosted := true }
  | .getSendEvent =>
    if 0 < v.cq.pending then some { v with pc := .pollSend, cq := v.cq.start } else none
  | .pollSend =>
    match v.cq.entries with
    | [] => some { v with pc := .returned 1 }
    | wc :: _ =>
      if !wc.success then some { v with pc := .returned 1, cq := v.cq.drop }
      else some { v with pc := .returned 0, cq := v.cq.drop }
  | .returned _ => none

/-- A call of the client that fails. -/
def clientFail (c : Setup) (k : Client) : Option Client :=
  match k.pc with
  | .returned _ => none
  | .postWrite =>
    some { k with
      pc := .returned 1, printed := k.printed ++ [c.a.toInt, c.b.toInt]
      buf0 := htonl c.e c.a, buf1 := htonl c.e c.b }
  | _ => some { k with pc := .returned 1 }

/-- A call of the server that fails. -/
def serverFail (c : Setup) (v : Server) : Option Server :=
  match v.pc with
  | .returned _ => none
  | .add =>
    some { v with
      pc := .returned 1, buf0 := htonl c.e (ntohl c.e v.buf0 + ntohl c.e v.buf1) }
  | _ => some { v with pc := .returned 1 }

/-- What happens next. -/
inductive Event
  | client
  | server
  | transmit
  | clientAck
  | reply
  | serverAck
  | clientFails
  | serverFails
  | breaks
  deriving DecidableEq

/-- One step. -/
def step (c : Setup) (s : State) : Event → Option State
  | .client => (clientCall c s.broken s.client).map fun k => { s with client := k }
  | .server => (serverCall c s.broken s.server).map fun v => { s with server := v }
  | .transmit => transmit c s
  | .clientAck => clientAck s
  | .reply => reply s
  | .serverAck => serverAck s
  | .clientFails => (clientFail c s.client).map fun k => { s with client := k }
  | .serverFails => (serverFail c s.server).map fun v => { s with server := v }
  | .breaks => if s.broken then none else some s.breakDown

/-! ### What a step can be -/

section Cases

variable {c : Setup} {s t : State}

theorem transmit_cases (h : transmit c s = some t) :
    s.broken = false ∧ ∃ rest,
      (s.client.sends = .rdmaWrite :: rest ∧ c.permits c.remoteAddr c.remoteKey = true ∧
        t = s.afterWrite rest) ∨
      (s.client.sends = .rdmaWrite :: rest ∧ c.permits c.remoteAddr c.remoteKey = false ∧
        t = s.breakDown) ∨
      (s.client.sends = .send :: rest ∧ s.server.recvPosted = true ∧ t = s.afterSend rest) := by
  rw [transmit] at h
  split at h
  · cases h
  · rename_i hbroken
    refine ⟨by simpa using hbroken, ?_⟩
    split at h
    · cases h
    · rename_i rest hsends
      split at h
      · rename_i hpermits
        exact ⟨rest, Or.inl ⟨hsends, hpermits, (Option.some_inj.mp h).symm⟩⟩
      · rename_i hpermits
        refine ⟨rest, Or.inr (Or.inl ⟨hsends, by simpa using hpermits, ?_⟩)⟩
        exact (Option.some_inj.mp h).symm
    · rename_i rest hsends
      split at h
      · rename_i hrecv
        exact ⟨rest, Or.inr (Or.inr ⟨hsends, hrecv, (Option.some_inj.mp h).symm⟩)⟩
      · cases h

theorem reply_cases (h : reply s = some t) : s.broken = false ∧ s.server.sendPosted = true ∧
    s.client.recvPosted = true ∧ t = s.afterReply := by
  rw [reply] at h
  split at h
  · rename_i hready
    simp only [Bool.and_eq_true, Bool.not_eq_true'] at hready
    exact ⟨hready.1.1, hready.1.2, hready.2, (Option.some_inj.mp h).symm⟩
  · cases h

theorem clientAck_cases (h : clientAck s = some t) : s.broken = false ∧ s.client.unacked = true ∧
    t = { s with client := { s.client with
      unacked := false, cq := s.client.cq.add ⟨2, true⟩ } } := by
  rw [clientAck] at h
  split at h
  · rename_i hready
    simp only [Bool.and_eq_true, Bool.not_eq_true'] at hready
    exact ⟨hready.1, hready.2, (Option.some_inj.mp h).symm⟩
  · cases h

theorem serverAck_cases (h : serverAck s = some t) : s.broken = false ∧ s.server.unacked = true ∧
    t = { s with server := { s.server with
      unacked := false, cq := s.server.cq.add ⟨0, true⟩ } } := by
  rw [serverAck] at h
  split at h
  · rename_i hready
    simp only [Bool.and_eq_true, Bool.not_eq_true'] at hready
    exact ⟨hready.1, hready.2, (Option.some_inj.mp h).symm⟩
  · cases h

end Cases

end SystemDev.APlusB
