import SystemDev.Library.Notify
import SystemDev.Octopus.Connect
import SystemDev.Rdma.Completion

/-!
# The completion queue handler

`octopus_cq_event_handler` asks for the next notification first and then takes completions
from the queue until it is empty. Completions are added at any moment: before the handler
has asked, while it takes the others, or after it found the queue empty and before it
returned. Some are taken by a call that is already running and still raise another one.

The state of the model is the queue, the position of the running call, and the driver that
the handler works on. The transfers that `rdma_read_done` and `rdma_write_done` finish are
modelled elsewhere; here only the value they return matters, and it is arbitrary. Two
lists record the completions that were added and those that were dispatched.

## Main results

* `CqHandler.loses_no_completion` — completions are dispatched once and in order, and none
  is left in the queue without a call
-/

namespace SystemDev.Octopus

open SystemDev.Library SystemDev.Rdma

/-- Where a call of `octopus_cq_event_handler` stands. `collecting` is its error exit,
inside `octopus_disconenct_and_collect_resource`. -/
inductive HandlerPc
  | idle
  | arming
  | polling
  | dispatching (wc : Wc chunkPositions)
  | collecting

/-- The `switch` over the opcode: the driver and the return value that is tested. -/
def Connect.switch (c : Connect) (kzalloc : Bool) (ret : ℤ) (wc : Wc chunkPositions) :
    Option (Connect × ℤ) :=
  match wc.opcode with
  | .recv byteLen recvBuf => do
    let (session, ret) ← handleRecvWr kzalloc byteLen recvBuf c.session
    return (if ret ≠ 0 then { c with session := session } else c.accept session recvBuf, ret)
  | .send => some (c, 0)
  | .rdmaRead | .rdmaWrite => some (c, ret)
  -- goes to the error exit, where `ret` still is the 1 of `ib_poll_cq`
  | .other => some (c, 1)

/-- The completion queue with its handler. The last two fields are the record. -/
structure CqHandler where
  driver : Connect
  cq : NotifyQueue (Wc chunkPositions)
  pc : HandlerPc
  arrived : List (Wc chunkPositions)
  dispatched : List (Wc chunkPositions)

namespace CqHandler

/-- What can happen next: a completion is added, or the handler takes a step. `ret` is the
value of `ib_req_notify_cq`, or that of the function that finishes a transfer. -/
inductive Op
  | add (wc : Wc chunkPositions)
  | enter
  | notify (ret : ℤ)
  | poll
  | dispatch (kzalloc : Bool) (ret : ℤ)

/-- A step of the handler. -/
def Op.OfHandler : Op → Prop
  | add _ => False
  | _ => True

/-- The first arming, on an empty queue. -/
def armed (c : Connect) : CqHandler where
  driver := c
  cq := NotifyQueue.empty.arm
  pc := .idle
  arrived := []
  dispatched := []

/-- The error exit of the handler. -/
def err (s : CqHandler) : CqHandler := { s with driver := s.driver.cqErr, pc := .collecting }

/-- A pending call starts. -/
def enter (s : CqHandler) : Option CqHandler :=
  match s.pc with
  | .idle =>
    if s.cq.pending = 0 then none
    else
      let s := { s with cq := s.cq.start }
      if s.driver.session.state = .error then some s else some { s with pc := .arming }
  | _ => none

/-- The call asks for the next notification. -/
def notify (s : CqHandler) (ret : ℤ) : Option CqHandler :=
  match s.pc with
  | .arming => if ret ≠ 0 then s.err else some { s with cq := s.cq.arm, pc := .polling }
  | _ => none

/-- The call takes one completion and tests its status, or returns. -/
def poll (s : CqHandler) : Option CqHandler :=
  match s.pc with
  | .polling =>
    match s.cq.entries with
    | [] => some { s with pc := .idle }
    | wc :: _ =>
      let s := { s with cq := s.cq.drop }
      if wc.status ≠ wcSuccess then s.err else some { s with pc := .dispatching wc }
  | _ => none

/-- The call handles the completion that it has taken. -/
def dispatch (s : CqHandler) (kzalloc : Bool) (ret : ℤ) : Option CqHandler :=
  match s.pc with
  | .dispatching wc => do
    let s := { s with dispatched := s.dispatched ++ [wc] }
    let (driver, ret) ← s.driver.switch kzalloc ret wc
    if ret ≠ 0 then s.err else some { s with driver := driver, pc := .polling }
  | _ => none

/-- One step of the handler, or of the verbs layer that adds completions. -/
def step (s : CqHandler) : Op → Option CqHandler
  | .add wc => some { s with cq := s.cq.add wc, arrived := s.arrived ++ [wc] }
  | .enter => s.enter
  | .notify ret => s.notify ret
  | .poll => s.poll
  | .dispatch kzalloc ret => s.dispatch kzalloc ret

/-- No handler call is running or pending. -/
def Quiet (s : CqHandler) : Prop := s.pc = .idle ∧ s.cq.pending = 0

/-- The completion that the running call has taken and not dispatched. -/
def inHand (s : CqHandler) : List (Wc chunkPositions) :=
  match s.pc with
  | .dispatching wc => [wc]
  | _ => []

/-- A step without an error: the completion that is added has no error status and a known
opcode, `ib_req_notify_cq` succeeds, and no dispatch returns an error. -/
def Clean (s : CqHandler) : Op → Prop
  | .add wc => wc.Good
  | .notify ret => ret = 0
  | .dispatch kzalloc ret =>
    match s.pc with
    | .dispatching wc => (s.driver.switch kzalloc ret wc).all fun p => p.2 = 0
    | _ => True
  | .enter | .poll => True

instance (s : CqHandler) : (op : Op) → Decidable (s.Clean op)
  | .add wc => inferInstanceAs (Decidable wc.Good)
  | .notify ret => inferInstanceAs (Decidable (ret = 0))
  | .dispatch kzalloc ret =>
    match h : s.pc with
    | .dispatching wc =>
      decidable_of_iff ((s.driver.switch kzalloc ret wc).all fun p => p.2 = 0) (by simp [Clean, h])
    | .idle | .arming | .polling | .collecting => .isTrue (by simp [Clean, h])
  | .enter => .isTrue trivial
  | .poll => .isTrue trivial

/-- The handler loses no completion. What was added has been dispatched, once and in the
order of the queue, up to the completion at hand and those still queued, and none is queued
when no call is running or pending. The handler gets there: left to itself it takes a
bounded number of steps, and it is stopped before only by a dispatch that does not return. -/
structure LosesNothing (s : CqHandler) : Prop where
  order : s.arrived = s.dispatched ++ s.inHand ++ s.cq.entries
  quiet : s.Quiet → s.cq.entries = [] ∧ s.dispatched = s.arrived
  bounded : ∀ ops t, (∀ op ∈ ops, op.OfHandler) → run step s ops = some t →
    ops.length ≤ 2 * s.cq.entries.length + 3 * s.cq.pending + 2
  live : ¬ s.Quiet → (∃ op, op.OfHandler ∧ (s.step op).isSome) ∨
    ∃ wc, s.pc = .dispatching wc ∧ ∀ kzalloc ret, s.driver.switch kzalloc ret wc = none

/-! ### Inversion of the handler's steps -/

section Inversion

variable {s t : CqHandler} {kzalloc : Bool} {ret : ℤ} {wc : Wc chunkPositions}

theorem enter_cases (h : s.enter = some t) :
    s.pc = .idle ∧ 0 < s.cq.pending ∧
      ((s.driver.session.state = .error ∧ t = { s with cq := s.cq.start }) ∨
        (s.driver.session.state ≠ .error ∧ t = { s with cq := s.cq.start, pc := .arming })) := by
  rw [enter] at h
  split at h
  case h_1 hpc =>
    dsimp only at h
    split_ifs at h with hnone herror
    · exact ⟨hpc, Nat.pos_of_ne_zero hnone, .inl ⟨herror, (Option.some_inj.mp h).symm⟩⟩
    · exact ⟨hpc, Nat.pos_of_ne_zero hnone, .inr ⟨herror, (Option.some_inj.mp h).symm⟩⟩
  case h_2 => cases h

theorem notify_cases (h : s.notify ret = some t) :
    s.pc = .arming ∧ ((ret ≠ 0 ∧ t = s.err) ∨
      (ret = 0 ∧ t = { s with cq := s.cq.arm, pc := .polling })) := by
  rw [notify] at h
  split at h
  case h_1 hpc =>
    split_ifs at h with hret
    · exact ⟨hpc, .inl ⟨hret, (Option.some_inj.mp h).symm⟩⟩
    · exact ⟨hpc, .inr ⟨not_not.mp hret, (Option.some_inj.mp h).symm⟩⟩
  case h_2 => cases h

theorem poll_cases (h : s.poll = some t) :
    s.pc = .polling ∧ ((s.cq.entries = [] ∧ t = { s with pc := .idle }) ∨
      ∃ wc rest, s.cq.entries = wc :: rest ∧
        ((wc.status ≠ wcSuccess ∧ t = { s with cq := s.cq.drop }.err) ∨
          (wc.status = wcSuccess ∧ t = { s with cq := s.cq.drop, pc := .dispatching wc }))) := by
  rw [poll] at h
  split at h
  case h_1 hpc =>
    refine ⟨hpc, ?_⟩
    split at h
    case h_1 hempty => exact .inl ⟨hempty, (Option.some_inj.mp h).symm⟩
    case h_2 wc rest hentries =>
      refine .inr ⟨wc, rest, hentries, ?_⟩
      dsimp only at h
      split_ifs at h with hstatus
      · exact .inl ⟨hstatus, (Option.some_inj.mp h).symm⟩
      · exact .inr ⟨not_not.mp hstatus, (Option.some_inj.mp h).symm⟩
  case h_2 => cases h

theorem dispatch_cases (h : s.dispatch kzalloc ret = some t) :
    ∃ wc p, s.pc = .dispatching wc ∧ s.driver.switch kzalloc ret wc = some p ∧
      ((p.2 ≠ 0 ∧ t = { s with dispatched := s.dispatched ++ [wc] }.err) ∨
        (p.2 = 0 ∧ t = { s with
          dispatched := s.dispatched ++ [wc], driver := p.1, pc := .polling })) := by
  rw [dispatch] at h
  split at h
  case h_1 wc hpc =>
    obtain ⟨p, hp, hrest⟩ := Option.bind_eq_some_iff.mp h
    refine ⟨wc, p, hpc, hp, ?_⟩
    dsimp only at hrest
    split_ifs at hrest with hret
    · exact .inl ⟨hret, (Option.some_inj.mp hrest).symm⟩
    · exact .inr ⟨not_not.mp hret, (Option.some_inj.mp hrest).symm⟩
  case h_2 => cases h

/-- A step of the handler is one of a running or pending call. -/
theorem not_quiet_of_step {op : Op} (hop : op.OfHandler) (h : s.step op = some t) :
    ¬ s.Quiet := by
  rintro ⟨hidle, hnone⟩
  cases op with
  | add wc => exact hop.elim
  | enter =>
    obtain ⟨-, hpending, -⟩ := enter_cases h
    exact absurd hnone (Nat.ne_of_gt hpending)
  | notify ret => cases hidle.symm.trans (notify_cases h).1
  | poll => cases hidle.symm.trans (poll_cases h).1
  | dispatch kzalloc ret =>
    obtain ⟨wc, p, hpc, -⟩ := dispatch_cases h
    cases hidle.symm.trans hpc

end Inversion

/-! ### Clean runs -/

/-- A completion that is handled without an error does not put the session into `ERROR`. -/
theorem state_of_switch {c : Connect} {kzalloc : Bool} {ret : ℤ} {wc : Wc chunkPositions}
    {p : Connect × ℤ} (h : c.switch kzalloc ret wc = some p) (hret : p.2 = 0)
    (hc : c.session.state ≠ .error) : p.1.session.state ≠ .error := by
  rw [Connect.switch] at h
  split at h
  case h_1 =>
    obtain ⟨⟨session, ret⟩, hq, hrest⟩ := Option.bind_eq_some_iff.mp h
    obtain rfl := Option.some_inj.mp hrest
    dsimp only at hret
    subst hret
    rcases state_of_handleRecvWr hq with hsame | ⟨hnew, -⟩ | ⟨hnew, -⟩ | hnew | hnew
    · simpa [Connect.accept, hsame] using hc
    all_goals simp [Connect.accept, hnew]
  all_goals
    obtain rfl := Option.some_inj.mp h
    exact hc

/-- What a clean run keeps. While a call takes completions the next one is heard; when no
call is running the queue is settled. -/
structure Serving (s : CqHandler) : Prop where
  state : s.driver.session.state ≠ .error
  order : s.arrived = s.dispatched ++ s.inHand ++ s.cq.entries
  status : ∀ wc ∈ s.cq.entries, wc.status = wcSuccess
  listening : match s.pc with
    | .idle => s.cq.Settled
    | .arming => True
    | .polling | .dispatching _ => s.cq.Heard
    | .collecting => False

section Run

variable {s t : CqHandler} {op : Op} {c : Connect} {ops : List Op}

theorem serving_armed (hc : c.session.state ≠ .error) : (armed c).Serving where
  state := hc
  order := rfl
  status := by simp [armed, NotifyQueue.empty]
  listening := NotifyQueue.settled_arm_empty

theorem Serving.add {wc : Wc chunkPositions} (hs : s.Serving) (hwc : wc.Good) :
    Serving { s with cq := s.cq.add wc, arrived := s.arrived ++ [wc] } where
  state := hs.state
  order := by
    have := hs.order
    simp_all [inHand]
  status := by
    intro w hw
    rcases List.mem_append.mp hw with hold | hnew
    · exact hs.status w hold
    · rw [List.mem_singleton.mp hnew]
      exact hwc.1
  listening := by
    have := hs.listening
    dsimp only
    split <;> simp_all only [NotifyQueue.Settled.add, NotifyQueue.Heard.add]

/-- Every clean step keeps the invariant. -/
theorem Serving.step (hs : s.Serving) (hclean : s.Clean op) (h : s.step op = some t) :
    t.Serving := by
  have hlisten := hs.listening
  have horder := hs.order
  cases op with
  | add wc =>
    obtain rfl := Option.some_inj.mp h
    exact hs.add hclean
  | enter =>
    obtain ⟨hpc, -, ⟨herror, -⟩ | ⟨-, rfl⟩⟩ := enter_cases h
    · exact absurd herror hs.state
    · refine ⟨hs.state, ?_, hs.status, trivial⟩
      simpa [inHand, hpc] using horder
  | notify ret =>
    obtain ⟨hpc, ⟨hret, -⟩ | ⟨-, rfl⟩⟩ := notify_cases h
    · exact absurd hclean hret
    · refine ⟨hs.state, ?_, hs.status, NotifyQueue.heard_arm⟩
      simpa [inHand, hpc] using horder
  | poll =>
    obtain ⟨hpc, ⟨hempty, rfl⟩ | ⟨wc, rest, hentries, ⟨hstatus, -⟩ | ⟨-, rfl⟩⟩⟩ := poll_cases h
    all_goals rw [hpc] at hlisten
    · refine ⟨hs.state, ?_, hs.status, hlisten.settled hempty⟩
      simpa [inHand, hpc] using horder
    · exact absurd (hs.status wc (by simp [hentries])) hstatus
    · refine ⟨hs.state, ?_, ?_, hlisten.drop⟩
      · simpa [inHand, hpc, hentries] using horder
      · intro w hw
        exact hs.status w (List.mem_of_mem_tail hw)
  | dispatch kzalloc ret =>
    obtain ⟨wc, p, hpc, hp, ⟨hret, -⟩ | ⟨hret, rfl⟩⟩ := dispatch_cases h
    · have hzero : p.2 = 0 := by simpa [Clean, hpc, hp] using hclean
      exact absurd hzero hret
    · rw [hpc] at hlisten
      refine ⟨state_of_switch hp hret hs.state, ?_, hs.status, hlisten⟩
      simpa [inHand, hpc] using horder

/-- The steps that the handler still takes on its own: three for a call, two for a
completion. -/
def work (s : CqHandler) : ℕ :=
  2 * s.cq.entries.length + 3 * s.cq.pending +
    match s.pc with
    | .idle | .collecting => 0
    | .polling => 1
    | .arming | .dispatching _ => 2

theorem work_step (hop : op.OfHandler) (h : s.step op = some t) : t.work < s.work := by
  cases op with
  | add wc => exact hop.elim
  | enter =>
    obtain ⟨hpc, hpending, ⟨-, rfl⟩ | ⟨-, rfl⟩⟩ := enter_cases h
    all_goals
      simp only [work, hpc, NotifyQueue.start]
      omega
  | notify ret =>
    obtain ⟨hpc, ⟨-, rfl⟩ | ⟨-, rfl⟩⟩ := notify_cases h
    all_goals simp [work, hpc, err]
  | poll =>
    obtain ⟨hpc, ⟨-, rfl⟩ | ⟨wc, rest, hentries, ⟨-, rfl⟩ | ⟨-, rfl⟩⟩⟩ := poll_cases h
    · simp [work, hpc]
    all_goals
      simp only [work, hpc, err, hentries, NotifyQueue.drop, List.tail_cons, List.length_cons]
      omega
  | dispatch kzalloc ret =>
    obtain ⟨wc, p, hpc, hp, ⟨-, rfl⟩ | ⟨-, rfl⟩⟩ := dispatch_cases h
    all_goals simp [work, hpc, err]

theorem work_le : s.work ≤ 2 * s.cq.entries.length + 3 * s.cq.pending + 2 := by
  rw [work]
  split <;> omega

/-- A handler that has a call to serve can take a step, unless a dispatch hangs. -/
theorem Serving.live (hs : s.Serving) (hbusy : ¬ s.Quiet) :
    (∃ op, op.OfHandler ∧ (s.step op).isSome) ∨
      ∃ wc, s.pc = .dispatching wc ∧ ∀ kzalloc ret, s.driver.switch kzalloc ret wc = none := by
  cases hpc : s.pc with
  | idle =>
    have hpending : s.cq.pending ≠ 0 := fun hnone => hbusy ⟨hpc, hnone⟩
    refine .inl ⟨.enter, trivial, ?_⟩
    simp [CqHandler.step, enter, hpc, hpending, hs.state]
  | arming => exact .inl ⟨.notify 0, trivial, by simp [CqHandler.step, notify, hpc]⟩
  | polling =>
    refine .inl ⟨.poll, trivial, ?_⟩
    cases hentries : s.cq.entries with
    | nil => simp [CqHandler.step, poll, hpc, hentries]
    | cons wc rest =>
      have hstatus := hs.status wc (by simp [hentries])
      simp [CqHandler.step, poll, hpc, hentries, hstatus]
  | dispatching wc =>
    by_cases hhangs : ∀ kzalloc ret, s.driver.switch kzalloc ret wc = none
    · exact .inr ⟨wc, rfl, hhangs⟩
    · push Not at hhangs
      obtain ⟨kzalloc, ret, hreturns⟩ := hhangs
      obtain ⟨p, hp⟩ := Option.ne_none_iff_exists'.mp hreturns
      refine .inl ⟨.dispatch kzalloc ret, trivial, ?_⟩
      by_cases hret : p.2 = 0
      · simp [CqHandler.step, dispatch, hpc, hp, hret]
      · simp [CqHandler.step, dispatch, hpc, hp, hret]
  | collecting =>
    have hlisten := hs.listening
    rw [hpc] at hlisten
    exact hlisten.elim

theorem Serving.losesNothing (hs : s.Serving) : s.LosesNothing where
  order := hs.order
  quiet := by
    rintro ⟨hpc, hpending⟩
    have hlisten := hs.listening
    rw [hpc] at hlisten
    have hempty := (hlisten hpending).1
    refine ⟨hempty, ?_⟩
    simpa [inHand, hpc, hempty] using hs.order.symm
  bounded := by
    intro ops t hops h
    have hlength := run_length_add_le (fun _ op _ hop hstep => work_step hop hstep) hops h
    have := work_le (s := s)
    omega
  live := hs.live

/-- The handler loses no completion, whatever the order in which completions are added
between its steps. -/
theorem loses_no_completion (hc : c.session.state ≠ .error)
    (hclean : EachStep CqHandler.step Clean (armed c) ops)
    (h : run CqHandler.step (armed c) ops = some s) : s.LosesNothing := by
  have hserving : s.Serving :=
    run_invariant (fun _ _ _ hs hop hstep => Serving.step hs hop hstep) (serving_armed hc)
      hclean h
  exact hserving.losesNothing

/-- A read completes while the handler has not asked for the next notification, and is
taken by the same call; a write completes afterwards and raises a second call. -/
theorem loses_no_completion_threeTransfers :
    let wc opcode : Wc chunkPositions := ⟨1, wcSuccess, opcode⟩
    let ops : List Op := [.add (wc .send), .enter, .add (wc .rdmaRead), .notify 0, .poll,
      .dispatch true 0, .add (wc .rdmaWrite), .poll, .dispatch true 0, .poll, .dispatch true 0,
      .poll, .enter]
    ((run CqHandler.step (armed Connect.init) ops).any fun s => s.dispatched.length = 3) ∧
      ∀ s ∈ run CqHandler.step (armed Connect.init) ops, s.LosesNothing := by
  refine ⟨by decide, fun s hs => ?_⟩
  exact loses_no_completion (by decide) (by decide) hs

end Run

end CqHandler

end SystemDev.Octopus
