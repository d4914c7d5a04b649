import SystemDev.Library.Run
import SystemDev.Octopus.ChunkList

/-!
# Setting up the connection

`octopus_RDMA_connect` runs a fixed sequence of verbs and waits. The connection manager
and the completion queue call two handlers at any time, and the handlers and the setup
share one session state: a wait of the setup ends when the state satisfies its test, or
when a signal interrupts it.

The state of the model is the thread of the setup, given by the step it is about to take,
with the session and the resources that it has created. Verbs return any value, events
arrive in any order, and a signal may hit any wait whose test fails. An access of the
message handler through a `NULL` table has no next state. The connection manager destroys an id
whose event handler returns a nonzero value; then no more events come, and a verb that uses the
id crashes.

Besides the program's own data the model records what happened: the outcome of every
setup step (`trace`), whether the connection was established without an error or a
disconnect since the route was resolved, and the messages handled.

## Main definitions

* `Connect.step` — the setup thread, the two handlers and the signals
* `Connect.StopsOnFailure` — a failed setup step ends the setup
* `Connect.Orderly` — the steps that do not reach one of the unchecked failures
-/

namespace SystemDev.Octopus

open SystemDev.Library SystemDev.Rdma

/-- The setup steps of `octopus_RDMA_connect` in program order, with the steps of the
functions it calls. -/
inductive Pc
  | createId
  | resolveAddr
  | waitRoute
  | allocPd
  | createCq
  | createQp
  | setupBuffers
  | initCommandQueues
  | postRecv
  | rdmaConnect
  | waitConnected
  | reqNotifyCq
  | waitFreeMem
  | postRecvChunks
  | sendRequest
  | waitChunks
  | initDiskDriver
  | returned (ret : ℤ)
  | crashed
  deriving DecidableEq

/-- The position of a step in program order. -/
def Pc.rank (pc : Pc) : ℕ := pc.ctorIdx

/-- The events of the connection manager, as the handler tells them apart. -/
inductive CmEvent
  | addrResolved
  | routeResolved
  | connectRequest
  | established
  | addrError
  | routeError
  | connectError
  | unreachable
  | rejected
  | disconnected
  | timewaitExit
  | deviceRemoval
  | other
  deriving DecidableEq

/-- The five events that the handler answers with the `ERROR` state. -/
def CmEvent.isError : CmEvent → Bool
  | addrError | routeError | connectError | unreachable | rejected => true
  | _ => false

/-- A disconnect, or the end of the wait that follows one. -/
def CmEvent.isDisconnect : CmEvent → Bool
  | disconnected | timewaitExit => true
  | _ => false

/-- A setup step that was executed, and whether it succeeded. -/
structure Outcome where
  step : Pc
  ok : Bool
  deriving DecidableEq

/-- The setup. The first group of fields is the program's: its control, the session, the
resources, whether the completion queue may call its handler, and the `freed` flag with
whether the resources have been collected. The second group is the record. -/
structure Connect where
  pc : Pc
  session : RdmaSessionContext
  cmId : Bool
  pd : Bool
  cq : Bool
  qp : Bool
  dmaMr : Bool
  armed : Bool
  freed : Bool
  collected : Bool
  trace : List Outcome
  routeResolved : Bool
  disturbed : Bool
  cleanlyConnected : Bool
  freeSize : Option ℤ
  chunksBound : Bool
  deriving DecidableEq

namespace Connect

/-- What can happen next: a verb of the setup returns `ret`, a wait ends because of its
test or of a signal, or one of the handlers runs. The `ret` of an event is what the handler's
variable of that name holds: the result of `rdma_resolve_route` at `ADDR_RESOLVED`, and at the
other events whatever is on the stack. `cqError` is a completion that the handler refuses, and
`collect` the end of `octopus_disconenct_and_collect_resource`. -/
inductive Op
  | call (ret : ℤ)
  | wake
  | signal
  | cm (event : CmEvent) (ret : ℤ)
  | recv (kzalloc : Bool) (byteLen : ℕ) (msg : Message chunkPositions)
  | cqError
  | collect

/-- The module before `octopus_RDMA_connect`: the session is a zeroed global. -/
def init : Connect where
  pc := .createId
  session := ⟨.idle, ⟨[], 0, 0, 0⟩⟩
  cmId := false
  pd := false
  cq := false
  qp := false
  dmaMr := false
  armed := false
  freed := false
  collected := false
  trace := []
  routeResolved := false
  disturbed := false
  cleanlyConnected := false
  freeSize := none
  chunksBound := false

/-- Execute the step at hand with the given outcome and go on to `next`. -/
def record (s : Connect) (ok : Bool) (next : Pc) : Connect :=
  { s with pc := next, trace := s.trace ++ [⟨s.pc, ok⟩] }

/-- Leave the setup with `ret` when it is not zero. -/
def checked (s : Connect) (ret : ℤ) (next : Pc) : Connect :=
  if ret ≠ 0 then s.record false (.returned ret) else s.record true next

/-- The setup executes a verb that returns `ret`. -/
def call (s : Connect) (ret : ℤ) : Option Connect :=
  match s.pc with
  | .createId =>
    -- the pointer is not tested
    some { s.record (ret = 0) .resolveAddr with
      cmId := ret = 0
      session := { s.session with state := .idle } }
  | .resolveAddr =>
    if s.collected || !s.cmId then s.record false .crashed else s.checked ret .waitRoute
  | .allocPd =>
    -- a failure leaves `octopus_create_rdma_queues`, whose result is only printed
    if s.collected || !s.cmId then s.record false .crashed
    else if ret ≠ 0 then s.record false .setupBuffers
    else some { s.record true .createCq with pd := true }
  | .createCq =>
    if s.collected || !s.cmId then s.record false .crashed
    else if ret ≠ 0 then s.record false .setupBuffers
    else some { s.record true .createQp with cq := true }
  | .createQp =>
    if s.collected || !s.cmId then s.record false .crashed
    else if ret ≠ 0 then s.record false .setupBuffers
    else some { s.record true .setupBuffers with qp := true }
  | .setupBuffers =>
    -- reads through `pd`, then through `qp` unless `get_dma_mr` failed; the result is
    -- only printed
    if s.collected || !s.pd then s.record false .crashed
    else if ret ≠ 0 then s.record false .initCommandQueues
    else if !s.qp then s.record false .crashed
    else some { s.record true .initCommandQueues with dmaMr := true }
  | .initCommandQueues =>
    -- returns 0 on every path, but each command reads through `pd` and `qp`
    if s.collected || !s.pd || !s.qp then s.record false .crashed else s.record true .postRecv
  | .postRecv =>
    if s.collected || !s.qp then s.record false .crashed else s.checked ret .rdmaConnect
  | .rdmaConnect =>
    if s.collected || !s.cmId then s.record false .crashed else s.checked ret .waitConnected
  | .reqNotifyCq =>
    if s.collected then s.record false .crashed
    else some { s.checked ret .waitFreeMem with armed := ret = 0 }
  | .postRecvChunks =>
    if s.collected then s.record false .crashed else s.checked ret .sendRequest
  | .sendRequest =>
    if s.collected then s.record false .crashed else s.checked ret .waitChunks
  | .initDiskDriver => s.record (ret = 0) (.returned ret)
  | _ => none

/-- The test of the wait at hand; `none` when the setup is not at a wait. -/
def waitTest (s : Connect) : Option Bool :=
  match s.pc with
  | .waitRoute => some (SessionState.routeResolved.value ≤ s.session.state.value)
  | .waitConnected => some (SessionState.connected.value ≤ s.session.state.value)
  | .waitFreeMem => some (s.session.state = .freeMemRecv)
  | .waitChunks => some (s.session.state = .receivedChunks)
  | _ => none

/-- The setup goes on behind a wait. The recorded outcome is whether what the wait is for
has happened. -/
def leaveWait (s : Connect) : Option Connect :=
  match s.pc with
  | .waitRoute =>
    -- `-EINTR`
    if s.session.state ≠ .routeResolved then s.record false (.returned (-4))
    else some { s.record true .allocPd with routeResolved := true }
  | .waitConnected =>
    -- in the `ERROR` state the function returns the 0 of `rdma_connect` as well
    s.record s.cleanlyConnected .reqNotifyCq
  | .waitFreeMem => s.record s.freeSize.isSome .postRecvChunks
  | .waitChunks => s.record s.chunksBound .initDiskDriver
  | _ => none

/-- The session after a change of its state. -/
def setState (s : Connect) (state : SessionState) : Connect :=
  { s with session := { s.session with state := state } }

/-- The switch of `octopus_rdma_cm_event_handler`, and its record. -/
def cmSwitch (s : Connect) (event : CmEvent) : Connect :=
  let s := { s with
    cleanlyConnected :=
      s.cleanlyConnected || (event = .established && s.routeResolved && !s.disturbed)
    disturbed := s.disturbed || (s.routeResolved && (event.isError || event.isDisconnect)) }
  match event with
  -- a failed `rdma_resolve_route` is only printed, and nobody is woken up
  | .addrResolved => s.setState .addrResolved
  | .routeResolved => s.setState .routeResolved
  | .established => s.setState .connected
  | .addrError | .routeError | .connectError | .unreachable | .rejected => s.setState .error
  | .disconnected =>
    -- starts to collect the resources unless that has begun; the state is left alone
    { s with freed := true }
  | .timewaitExit => s.setState .cmDisconnect
  | .connectRequest | .deviceRemoval | .other => s

/-- `octopus_rdma_cm_event_handler` and its return value. -/
def cmEventHandler (s : Connect) (event : CmEvent) (ret : ℤ) : Connect × ℤ :=
  (s.cmSwitch event, if event = .deviceRemoval then -1 else ret)

/-- An event, and the end of the id when the handler returns a nonzero value. -/
def cmEvent (s : Connect) (event : CmEvent) (ret : ℤ) : Connect :=
  let (t, handled) := s.cmEventHandler event ret
  if handled = 0 then t else { t with cmId := false }

/-- The error exit of `octopus_cq_event_handler`. -/
def cqErr (s : Connect) : Connect := { s.setState .error with freed := true }

/-- The record of a message that was handled. -/
def accept (s : Connect) (session : RdmaSessionContext) (msg : Message chunkPositions) : Connect :=
  { s with
    session := session
    freeSize := if msg.type = .freeSize then some msg.sizeGb else s.freeSize
    chunksBound := s.chunksBound || msg.type = .sendChunks }

/-- `octopus_cq_event_handler` on a received message, and its record. -/
def cqRecv (s : Connect) (kzalloc : Bool) (byteLen : ℕ) (msg : Message chunkPositions) :
    Option Connect := do
  if s.session.state = .error then
    return s
  let (session, ret) ← handleRecvWr kzalloc byteLen msg s.session
  if ret ≠ 0 then
    return s.cqErr
  return s.accept session msg

/-- One step of the setup, of a handler or of the environment. -/
def step (s : Connect) : Op → Option Connect
  | .call ret => s.call ret
  | .wake => if s.waitTest = some true then s.leaveWait else none
  | .signal => if s.waitTest = some false then s.leaveWait else none
  | .cm event ret => if s.cmId then some (s.cmEvent event ret) else none
  | .recv kzalloc byteLen msg => if s.armed then s.cqRecv kzalloc byteLen msg else none
  | .cqError => if s.armed ∧ s.session.state ≠ .error then some s.cqErr else none
  | .collect => if s.freed ∧ ¬ s.collected then some { s with collected := true } else none

/-- Everything that the disk driver relies on has happened. -/
structure Complete (s : Connect) : Prop where
  route : s.routeResolved
  queues : s.pd ∧ s.cq ∧ s.qp
  buffers : s.dmaMr
  connected : s.cleanlyConnected
  freeSize : s.freeSize.isSome
  chunks : s.chunksBound

/-- The setup thread can take its next step: it is at a verb, whatever the verb returns, or at a
wait whose test holds. -/
def CanGoOn (s : Connect) : Prop := (∀ ret, (s.call ret).isSome) ∨ s.waitTest = some true

/-- The setup is at a wait for something that has not come, and that still can: the id exists and
nothing has gone wrong. -/
structure Awaits (s : Connect) : Prop where
  pending : (s.pc = .waitRoute ∧ s.session.state.value < SessionState.routeResolved.value) ∨
    (s.pc = .waitConnected ∧ s.cleanlyConnected = false) ∨
    (s.pc = .waitFreeMem ∧ s.freeSize = none) ∨ (s.pc = .waitChunks ∧ s.chunksBound = false)
  cmId : s.cmId = true
  undisturbed : s.disturbed = false ∧ s.session.state ≠ .error ∧ s.session.state ≠ .cmDisconnect

/-- Setup failures stop the setup. Nothing is executed behind a failed step, a failed step
has made the function return a nonzero value, and the function calls the disk driver and
returns 0 only when everything before has happened. A wait that meets an error or a
disconnect ends, and makes the function return a nonzero value. The function returns: it has at
most 17 steps, and it has returned, can go on, or waits for something that has not come. -/
structure StopsOnFailure (s : Connect) : Prop where
  alive : s.pc ≠ .crashed
  last : ∀ o ∈ s.trace.dropLast, o.ok
  nonzero : ∀ o ∈ s.trace, o.ok = false → ∃ ret, ret ≠ 0 ∧ s.pc = .returned ret
  complete : (s.pc = .returned 0 ∨ ∃ o ∈ s.trace, o.step = .initDiskDriver) → s.Complete
  errors : s.waitTest ≠ none → s.session.state = .error ∨ s.session.state = .cmDisconnect →
    ∃ s' ret, s.step .wake = some s' ∧ s'.pc = .returned ret ∧ ret ≠ 0
  steps : s.trace.length ≤ 17
  returns : (∃ ret, s.pc = .returned ret) ∨ s.CanGoOn ∨ s.Awaits

/-- The setup is behind the route and has not reached the disk driver. -/
def Exposed (s : Connect) : Prop :=
  Pc.waitRoute.rank < s.pc.rank ∧ s.pc.rank < Pc.initDiskDriver.rank

instance (s : Connect) : Decidable s.Exposed := inferInstanceAs (Decidable (_ ∧ _))

/-- What the setup waits for next, behind the route, has come. -/
def Arrived (s : Connect) : Prop :=
  if s.pc.rank ≤ Pc.waitConnected.rank then s.cleanlyConnected = true
  else if s.pc.rank ≤ Pc.waitFreeMem.rank then s.freeSize.isSome = true
  else s.chunksBound = true

instance (s : Connect) : Decidable s.Arrived := inferInstanceAs (Decidable (ite _ _ _))

/-- A step that reaches none of the failures that the setup does not check. The four
unchecked groups of verbs succeed. Up to the disk driver the event handler returns 0 and no
disconnect comes, and behind the route no error. The handlers refuse no completion and do not
overwrite a state that the setup is going to wait for, no `GOT_CHUNKS` overtakes `FREE_SIZE`, and
no signal ends a wait before what it waits for. -/
def Orderly (s : Connect) : Op → Prop
  | .call ret => s.pc ∈ [.createId, .allocPd, .createCq, .createQp, .setupBuffers] → ret = 0
  | .signal =>
    (s.pc = .waitConnected → s.cleanlyConnected) ∧
      (s.pc = .waitFreeMem → s.freeSize.isSome) ∧ (s.pc = .waitChunks → s.chunksBound)
  | .cm event ret =>
    (s.Exposed → event.isError = false ∧ event ≠ .timewaitExit ∧
        (s.Arrived → (s.cmEventHandler event ret).1.session.state = s.session.state)) ∧
      (s.pc.rank < Pc.initDiskDriver.rank →
        event ≠ .disconnected ∧ (s.cmEventHandler event ret).2 = 0)
  | .recv kzalloc byteLen msg =>
    s.Exposed →
      ((handleRecvWr kzalloc byteLen msg s.session).all fun p =>
          p.2 = 0 ∧ (s.Arrived → p.1.state = s.session.state)) ∧
        (s.pc.rank ≤ Pc.waitFreeMem.rank → msg.type ≠ .sendChunks)
  | .cqError => ¬ s.Exposed
  | .wake | .collect => True

instance (s : Connect) : (op : Op) → Decidable (s.Orderly op)
  | .call _ => inferInstanceAs (Decidable (_ → _))
  | .signal => inferInstanceAs (Decidable (_ ∧ _))
  | .cm _ _ => inferInstanceAs (Decidable (_ ∧ _))
  | .recv _ _ _ => inferInstanceAs (Decidable (_ → _))
  | .cqError => inferInstanceAs (Decidable (¬ _))
  | .wake => inferInstanceAs (Decidable True)
  | .collect => inferInstanceAs (Decidable True)

end Connect

end SystemDev.Octopus
