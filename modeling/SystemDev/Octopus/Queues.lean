import Mathlib.Algebra.Order.BigOperators.Group.Finset
import SystemDev.Octopus.Dispatch

/-!
# All queues on one queue pair

Every core has a command queue of its own, but all queues post to one send queue, their
completions come to one completion queue, and one handler serves them, one call at a time.
The sizes of the two shared queues come from the number of cores. Besides the commands they
hold the request for chunks that the setup sends, and the two messages it receives.

A work request is posted to the send queue, finishes there, and its completion waits in the
completion queue until the handler polls it. The command of a transfer is released behind
the poll, so a queue never has more transfers posted and not polled than commands.

## Main results

* `Traffic.queues_never_overflow` — the bounds of both queues, in every run and for every
  number of cores
-/

namespace SystemDev.Octopus

open SystemDev.Library

/-- `RDMA_READ_WRITE_QUEUE_DEPTH`. -/
def rdmaReadWriteQueueDepth : ℕ := 16

/-- The `txdepth` of the session, for the number of online cores. -/
def txdepth (onlineCores : ℕ) : ℕ := rdmaReadWriteQueueDepth * onlineCores + 1

/-- `init_attr.cap.max_send_wr` of `octopus_create_qp`. -/
def maxSendWr (onlineCores : ℕ) : ℕ := txdepth onlineCores

/-- `init_attr.cqe` of `octopus_create_rdma_queues`. -/
def cqe (onlineCores : ℕ) : ℕ := txdepth onlineCores * 2

variable {c m : ℕ}

/-- `rmem_rdma_queue_list`: one queue for each of `c` cores, each with `m` submitters. -/
abbrev Queues (c m : ℕ) := Fin c → Pool rmemQueueDepth m

/-- The poll of a completion. -/
def PoolOp.isPoll {depth : ℕ} : PoolOp depth m → Bool
  | .complete _ _ => true
  | _ => false

namespace Queues

/-- `init_rdma_command_queue_list`. -/
def init (c m : ℕ) : Queues c m := fun _ => Pool.init rmemQueueDepth m

/-- No handler call is between a poll and the end of its dispatch. -/
def Idle (s : Queues c m) : Prop := ∀ q, (s q).handler = .idle

instance (s : Queues c m) : Decidable s.Idle := inferInstanceAs (Decidable (∀ _, _))

/-- One atomic step of a queue. A completion is polled when the one before it is handled. -/
def step (s : Queues c m) (q : Fin c) (op : PoolOp rmemQueueDepth m) : Option (Queues c m) :=
  if op.isPoll ∧ ¬ s.Idle then none else ((s q).step op).map (Function.update s q)

variable {s t : Queues c m} {q : Fin c} {op : PoolOp rmemQueueDepth m}

theorem step_cases (h : s.step q op = some t) :
    (op.isPoll → s.Idle) ∧ ∃ p, (s q).step op = some p ∧ t = Function.update s q p := by
  rw [step] at h
  split_ifs at h with hbusy
  obtain ⟨p, hp, hrest⟩ := Option.map_eq_some_iff.mp h
  exact ⟨fun hpoll => not_not.mp fun hidle => hbusy ⟨hpoll, hidle⟩, p, hp, hrest.symm⟩

/-- The counts of every queue. -/
def Tallied (s : Queues c m) : Prop := ∀ q, (s q).Tallied

theorem tallied_init (c m : ℕ) : (init c m).Tallied := fun _ =>
  ⟨⟨_, ownedBy_init rmemQueueDepth m⟩, counted_init rmemQueueDepth m⟩

theorem Tallied.of_step (h : s.Tallied) (hstep : s.step q op = some t) : t.Tallied := by
  obtain ⟨-, p, hp, rfl⟩ := step_cases hstep
  intro r
  by_cases hr : r = q
  · subst hr
    rw [Function.update_self]
    exact (h r).of_step hp
  · rw [Function.update_of_ne hr]
    exact h r

/-- The transfers that are posted and not polled. -/
def outstanding (s : Queues c m) : ℕ := ∑ q, (s q).outstanding.length

/-- A queue has no more transfers under way than commands. -/
theorem Tallied.outstanding_le (h : s.Tallied) : s.outstanding ≤ rmemQueueDepth * c := by
  have hqueue : ∀ q, (s q).outstanding.length ≤ rmemQueueDepth := by
    intro q
    obtain ⟨⟨owner, hown⟩, -⟩ := h q
    have hcard := hown.card_free
    omega
  calc s.outstanding ≤ ∑ _q : Fin c, rmemQueueDepth :=
        Finset.sum_le_sum fun q _ => hqueue q
    _ = rmemQueueDepth * c := by
        rw [Finset.sum_const_nat fun _ _ => rfl, Finset.card_univ, Fintype.card_fin, Nat.mul_comm]

end Queues

/-- The transfers that a step posts. -/
def Pool.postings {depth : ℕ} (s : Pool depth m) : PoolOp depth m → List (Posting depth)
  | .post t ret =>
    match s.submitters t with
    | .stored rq k => if ret = 0 then [⟨k, rq⟩] else []
    | _ => []
  | _ => []

theorem Pool.length_outstanding_of_step {depth : ℕ} {s t : Pool depth m} {op : PoolOp depth m}
    (h : s.step op = some t) :
    t.outstanding.length + op.isPoll.toNat =
      s.outstanding.length + (s.postings op).length := by
  cases Pool.step_effect h with
  | complete here mem =>
    have hlen := List.length_erase_of_mem mem
    have hpos := List.length_pos_of_mem mem
    simp only [PoolOp.isPoll, Pool.postings, Bool.toNat_true, List.length_nil]
    omega
  | post here => simp [PoolOp.isPoll, Pool.postings, here]
  | postFail here refused => simp [PoolOp.isPoll, Pool.postings, here, refused, Pool.move]
  | _ => rfl

/-- A step moves the transfers under way by what it posts and what it polls. -/
theorem Queues.outstanding_of_step {s t : Queues c m} {q : Fin c}
    {op : PoolOp rmemQueueDepth m} (h : s.step q op = some t) :
    t.outstanding + op.isPoll.toNat = s.outstanding + ((s q).postings op).length := by
  obtain ⟨-, p, hp, rfl⟩ := Queues.step_cases h
  have hlen := Pool.length_outstanding_of_step hp
  have hsum := sum_apply_update (fun p : Pool rmemQueueDepth m => p.outstanding.length) s q p
  simp only [Queues.outstanding]
  omega

/-! ### The send queue and the completion queue -/

/-- A work request of the send queue. -/
inductive SendWr (c : ℕ)
  | command (q : Fin c) (w : Posting rmemQueueDepth)
  | chunkRequest
  deriving DecidableEq

/-- An entry of the completion queue. -/
inductive Completion (c : ℕ)
  | send (wr : SendWr c)
  | recv
  deriving DecidableEq

/-- Whether a work request is a transfer. -/
def SendWr.isCommand : SendWr c → Bool
  | command _ _ => true
  | chunkRequest => false

/-- Whether a completion is one of a transfer. -/
def Completion.isCommand : Completion c → Bool
  | send wr => wr.isCommand
  | recv => false

/-- Whether a completion is one of the send queue. -/
def Completion.isSend : Completion c → Bool
  | send _ => true
  | recv => false

@[simp] theorem Completion.isCommand_send (wr : SendWr c) :
    (Completion.send wr).isCommand = wr.isCommand := rfl

@[simp] theorem Completion.isCommand_recv : (Completion.recv : Completion c).isCommand = false :=
  rfl

@[simp] theorem Completion.isSend_send (wr : SendWr c) : (Completion.send wr).isSend = true := rfl

@[simp] theorem Completion.isSend_recv : (Completion.recv : Completion c).isSend = false := rfl

/-- How far `octopus_RDMA_connect` is with its messages: it posts a receive before it
connects, and another one before its request. -/
inductive Exchange
  | start
  | connecting
  | requesting
  | requested
  deriving DecidableEq

/-- The receives that have been posted. -/
def Exchange.receives : Exchange → ℕ
  | start => 0
  | connecting => 1
  | requesting | requested => 2

/-- The requests that have been sent. -/
def Exchange.requests : Exchange → ℕ
  | requested => 1
  | _ => 0

/-- The queues of all cores on one queue pair. `sq` holds the work requests that are posted
and not finished, `recvs` counts the posted receives, and `cq` holds the completions that
are not polled. -/
structure Traffic (c m : ℕ) where
  queues : Queues c m
  exchange : Exchange
  sq : List (SendWr c)
  recvs : ℕ
  cq : List (Completion c)

namespace Traffic

/-- What can happen next: a step of a submitter or of the handler at a queue, the messages
of the setup, a work request finishes, a message arrives, or the handler polls. -/
inductive Op (c m : ℕ)
  | queue (q : Fin c) (op : PoolOp rmemQueueDepth m)
  | postRecv
  | sendRequest
  | finish (wr : SendWr c)
  | arrive
  | poll (success : Bool)

/-- The queues before the connection is made. -/
def init (c m : ℕ) : Traffic c m where
  queues := Queues.init c m
  exchange := .start
  sq := []
  recvs := 0
  cq := []

/-- One step. -/
def step (s : Traffic c m) : Op c m → Option (Traffic c m)
  | .queue q op =>
    -- completions are polled from the completion queue
    if op.isPoll then none
    else (s.queues.step q op).map fun queues =>
      { s with queues := queues, sq := s.sq ++ ((s.queues q).postings op).map (.command q) }
  | .postRecv =>
    match s.exchange with
    | .start => some { s with exchange := .connecting, recvs := s.recvs + 1 }
    | .connecting => some { s with exchange := .requesting, recvs := s.recvs + 1 }
    | _ => none
  | .sendRequest =>
    match s.exchange with
    | .requesting => some { s with exchange := .requested, sq := s.sq ++ [.chunkRequest] }
    | _ => none
  | .finish wr =>
    if wr ∈ s.sq then some { s with sq := s.sq.erase wr, cq := s.cq ++ [.send wr] } else none
  | .arrive =>
    if s.recvs = 0 then none
    else some { s with recvs := s.recvs - 1, cq := s.cq ++ [.recv] }
  | .poll success =>
    match s.cq with
    | [] => none
    | .send (.command q w) :: rest =>
      (s.queues.step q (.complete w success)).map fun queues =>
        { s with queues := queues, cq := rest }
    | _ :: rest => if s.queues.Idle then some { s with cq := rest } else none

/-- The send work requests that are posted and not polled as completed. -/
def unpolledSends (s : Traffic c m) : ℕ := s.sq.length + s.cq.countP Completion.isSend

/-! ### Conservation -/

/-- Every transfer that is posted and not polled is in one of the two queues, and the
messages of the setup are there at most once. -/
structure Balanced (s : Traffic c m) : Prop where
  tallied : s.queues.Tallied
  commands : s.sq.countP SendWr.isCommand + s.cq.countP Completion.isCommand =
    s.queues.outstanding
  requests : s.sq.countP (fun wr => !wr.isCommand) +
    s.cq.countP (fun e => e.isSend && !e.isCommand) ≤ s.exchange.requests
  receives : s.recvs + s.cq.countP (fun e => !e.isSend) ≤ s.exchange.receives

variable {s t : Traffic c m} {op : Op c m} {ops : List (Op c m)}

theorem balanced_init (c m : ℕ) : (init c m).Balanced where
  tallied := Queues.tallied_init c m
  commands := by simp [init, Queues.outstanding, Queues.init, Pool.init]
  requests := Nat.le_refl 0
  receives := Nat.le_refl 0

/-- A transfer is posted, or the handler goes on. -/
theorem Balanced.of_queue {q : Fin c} {op : PoolOp rmemQueueDepth m} (h : s.Balanced)
    (hstep : s.step (.queue q op) = some t) : t.Balanced := by
  rw [step] at hstep
  split_ifs at hstep with hpoll
  obtain ⟨queues, hqueues, rfl⟩ := Option.map_eq_some_iff.mp hstep
  have hmoved := Queues.outstanding_of_step hqueues
  rw [Bool.eq_false_of_not_eq_true hpoll, Bool.toNat_false, Nat.add_zero] at hmoved
  have hcommand : ∀ ws : List (Posting rmemQueueDepth),
      (ws.map (SendWr.command q)).countP SendWr.isCommand = ws.length := by
    intro ws
    rw [List.countP_map]
    exact List.countP_eq_length.mpr fun _ _ => rfl
  have hother : ∀ ws : List (Posting rmemQueueDepth),
      (ws.map (SendWr.command q)).countP (fun wr => !wr.isCommand) = 0 := by
    intro ws
    rw [List.countP_map]
    exact List.countP_eq_zero.mpr fun _ _ => nofun
  refine ⟨h.tallied.of_step hqueues, ?_, ?_, h.receives⟩
  · have hcommands := h.commands
    dsimp only
    rw [List.countP_append, hcommand, hmoved]
    omega
  · rw [List.countP_append, hother]
    exact h.requests

/-- A work request leaves the send queue and its completion enters the other. -/
theorem Balanced.of_finish {wr : SendWr c} (h : s.Balanced)
    (hstep : s.step (.finish wr) = some t) : t.Balanced := by
  rw [step] at hstep
  split_ifs at hstep with hmem
  obtain rfl := Option.some_inj.mp hstep
  have hcommands := h.commands
  have hrequests := h.requests
  have hreceives := h.receives
  have hperm := List.perm_cons_erase hmem
  have hcommand := hperm.countP_eq SendWr.isCommand
  have hother := hperm.countP_eq fun wr => !wr.isCommand
  refine ⟨h.tallied, ?_, ?_, ?_⟩
  · cases hwr : wr.isCommand <;> simp [hwr] at hcommand ⊢ <;> omega
  · cases hwr : wr.isCommand <;> simp [hwr] at hother ⊢ <;> omega
  · simpa using hreceives

/-- The handler polls one completion. -/
theorem Balanced.of_poll {success : Bool} (h : s.Balanced)
    (hstep : s.step (.poll success) = some t) : t.Balanced := by
  have hcommands := h.commands
  have hrequests := h.requests
  have hreceives := h.receives
  rw [step] at hstep
  split at hstep
  case h_1 => cases hstep
  case h_2 q w rest hcq =>
    obtain ⟨queues, hqueues, rfl⟩ := Option.map_eq_some_iff.mp hstep
    have hmoved := Queues.outstanding_of_step hqueues
    change queues.outstanding + 1 = s.queues.outstanding + 0 at hmoved
    have hcommand : (SendWr.command q w).isCommand = true := rfl
    simp only [hcq, List.countP_cons, Completion.isCommand_send, Completion.isSend_send,
      hcommand] at hcommands hrequests hreceives
    refine ⟨h.tallied.of_step hqueues, ?_, ?_, ?_⟩
    · dsimp only
      rw [if_pos trivial] at hcommands
      omega
    · simpa using hrequests
    · simpa using hreceives
  case h_3 e rest hother hcq =>
    split_ifs at hstep
    obtain rfl := Option.some_inj.mp hstep
    have hnot : e.isCommand = false := by
      cases e with
      | recv => rfl
      | send wr =>
        cases wr with
        | chunkRequest => rfl
        | command q w => exact absurd rfl (hother q w)
    simp only [hcq, List.countP_cons] at hcommands hrequests hreceives
    refine ⟨h.tallied, ?_, ?_, ?_⟩
    · simpa [hnot] using hcommands
    · exact Nat.le_trans (Nat.add_le_add_left (Nat.le_add_right _ _) _) hrequests
    · exact Nat.le_trans (Nat.add_le_add_left (Nat.le_add_right _ _) _) hreceives

theorem Balanced.of_step (h : s.Balanced) (hstep : s.step op = some t) : t.Balanced := by
  have hrequests := h.requests
  have hreceives := h.receives
  cases op with
  | queue q op => exact h.of_queue hstep
  | postRecv =>
    rw [step] at hstep
    split at hstep
    case h_1 hex | h_2 hex =>
      obtain rfl := Option.some_inj.mp hstep
      rw [hex] at hrequests hreceives
      refine ⟨h.tallied, h.commands, hrequests, ?_⟩
      simp only [Exchange.receives] at hreceives ⊢
      omega
    case h_3 => cases hstep
  | sendRequest =>
    rw [step] at hstep
    split at hstep
    case h_1 hex =>
      obtain rfl := Option.some_inj.mp hstep
      rw [hex] at hrequests hreceives
      refine ⟨h.tallied, ?_, ?_, hreceives⟩
      · simpa [SendWr.isCommand] using h.commands
      · simp only [Exchange.requests, List.countP_append] at hrequests ⊢
        change _ + 1 + _ ≤ 1
        omega
    case h_2 => cases hstep
  | finish wr => exact h.of_finish hstep
  | arrive =>
    rw [step] at hstep
    split_ifs at hstep with hnone
    obtain rfl := Option.some_inj.mp hstep
    refine ⟨h.tallied, ?_, ?_, ?_⟩
    · simpa using h.commands
    · simpa using hrequests
    · rw [List.countP_append]
      change s.recvs - 1 + (_ + 1) ≤ s.exchange.receives
      omega
  | poll success => exact h.of_poll hstep

/-- The completions of the send queue are those of transfers and of the request. -/
theorem countP_isSend (cq : List (Completion c)) :
    cq.countP Completion.isSend =
      cq.countP Completion.isCommand + cq.countP (fun e => e.isSend && !e.isCommand) := by
  induction cq with
  | nil => rfl
  | cons e cq ih =>
    rw [List.countP_cons, List.countP_cons, List.countP_cons, ih]
    cases e with
    | recv => simp
    | send wr => cases hwr : wr.isCommand <;> simp [hwr] <;> omega

/-- In every run, for every number of online cores, the send queue and the completion queue
have room: the sends that are posted and not polled fit into the first, the completions that
are not polled into the second. -/
theorem queues_never_overflow (hc : 1 ≤ c) (h : run Traffic.step (init c m) ops = some s) :
    s.unpolledSends ≤ maxSendWr c ∧ s.cq.length ≤ cqe c := by
  have hs : s.Balanced :=
    run_keeps (fun _ _ _ hs hstep => Balanced.of_step hs hstep) (balanced_init c m) h
  have hbound : s.queues.outstanding ≤ 16 * c := hs.tallied.outstanding_le
  have hcommands := hs.commands
  have hrequests := hs.requests
  have hreceives := hs.receives
  have hone : s.exchange.requests ≤ 1 := by cases s.exchange <;> decide
  have htwo : s.exchange.receives ≤ 2 := by cases s.exchange <;> decide
  have hsq := countP_add_countP_not SendWr.isCommand s.sq
  have hcq := countP_add_countP_not Completion.isSend s.cq
  have hsend := countP_isSend s.cq
  have hdepth : txdepth c = 16 * c + 1 := rfl
  rw [unpolledSends, maxSendWr, cqe, hdepth]
  constructor
  · omega
  · omega

theorem rmemQueueDepth_pos : 0 < rmemQueueDepth := by decide

/-- The only core, and the only thread that submits on it. -/
def onlyCore : Fin 1 := Fin.last 0

/-- One core sends its request, gets both messages and has a write under way. -/
def oneCore : List (Op 1 1) :=
  [.postRecv, .arrive, .postRecv, .sendRequest, .finish .chunkRequest, .arrive,
    .queue onlyCore (.enter onlyCore pageWrite), .queue onlyCore (.scan onlyCore),
    .queue onlyCore (.test onlyCore), .queue onlyCore (.storeRq onlyCore),
    .queue onlyCore (.post onlyCore 0),
    .finish (.command onlyCore ⟨⟨0, rmemQueueDepth_pos⟩, pageWrite⟩), .poll true]

theorem queues_never_overflow_oneCore :
    ((run Traffic.step (init 1 1) oneCore).any fun s => s.unpolledSends = 2) ∧
      ∀ s ∈ run Traffic.step (init 1 1) oneCore,
        s.unpolledSends ≤ maxSendWr 1 ∧ s.cq.length ≤ cqe 1 := by
  refine ⟨by decide +kernel, fun s hs => ?_⟩
  exact queues_never_overflow (Nat.le_refl 1) hs

end Traffic

end SystemDev.Octopus
