import SystemDev.Octopus.Link

/-!
# Receives for the server's messages

The client posts a receive before it connects and another one before it asks for chunks,
and no more: the one behind a handled message is commented out. `FREE_SIZE` and the answer
to the request have these two. The memory monitor of the server sends `EVICT` to a client
that holds chunks without having been asked, and no receive is left for it.

A receive is reserved for every message that the server may post on its own: the size, once
a connection was asked for, and an answer for every request. `due` counts them.

## Main results

* `Link.messages_are_covered` — without evictions every message finds a posted receive, and
  an eviction behind the size and the answer finds none
-/

namespace SystemDev.Octopus.Link

open SystemDev.Library SystemDev.Rdma

/-- A message that the server posts in this step has a receive: the messages sent and not
consumed, this one included, are no more than the receives posted and not completed. -/
def Covered (s : Link) (op : Op) : Prop :=
  ∀ t, s.step op = some t → s.sent < t.sent → t.toClient.length ≤ t.recvs

/-- The memory monitor posts no `EVICT` and no `STOP`. -/
def NoEviction (_ : Link) : Op → Prop
  | .evict _ | .stop _ => False
  | _ => True

instance (s : Link) : (op : Op) → Decidable (s.NoEviction op)
  | .evict _ | .stop _ => .isFalse id
  | .call _ | .wake | .signal | .cm | .handler _ | .connected _ | .receive | .answer _
  | .deliver | .sendDone => .isTrue trivial

variable {s t : Link} {op : Op} {ops : List Op}

/-! ### A receive for every message that is due -/

/-- The size is due as soon as a connection was asked for. -/
def sizeDue (connected : Bool) : Handshake → ℕ
  | .connecting | .established => (!connected).toNat
  | _ => 0

/-- The messages that the server may post with no further step of the client. -/
def due (s : Link) : ℕ :=
  sizeDue s.server.connected s.handshake + s.server.answering.isSome.toNat + s.toServer.length

/-- The receive that a verb of the setup posts. -/
def posted : Pc → ℕ
  | .postRecv | .postRecvChunks => 1
  | _ => 0

/-- The receive that the setup thread has posted for its next verb. -/
def reserved : Pc → ℕ
  | .rdmaConnect | .sendRequest => 1
  | _ => 0

/-- Every message under way or due has a receive. -/
def Reserving (s : Link) : Prop :=
  s.toClient.length + s.due + reserved s.client.driver.pc ≤ s.recvs

@[simp] theorem verb_recvs (s : Link) (pc : Pc) : (s.verb pc).recvs = s.recvs + posted pc := by
  cases pc <;> rfl

@[simp] theorem verb_toClient (s : Link) (pc : Pc) : (s.verb pc).toClient = s.toClient := by
  cases pc <;> rfl

@[simp] theorem verb_sent (s : Link) (pc : Pc) : (s.verb pc).sent = s.sent := by
  cases pc <;> rfl

@[simp] theorem verb_server (s : Link) (pc : Pc) : (s.verb pc).server = s.server := by
  cases pc <;> rfl

/-- A verb makes a message due only when a receive is reserved for it. -/
theorem verb_due (s : Link) (pc : Pc) : (s.verb pc).due ≤ s.due + reserved pc := by
  cases pc with
  | resolveAddr =>
    change 0 + _ + _ ≤ _
    simp only [due, verb, reserved]
    omega
  | rdmaConnect =>
    have hone := Bool.toNat_le (!s.server.connected)
    change (!s.server.connected).toNat + _ + _ ≤ _
    simp only [due, verb, reserved]
    omega
  | sendRequest =>
    simp only [due, verb, reserved, List.length_append, List.length_singleton]
    omega
  | _ => exact Nat.le_refl _

theorem reserved_of_onward {c d : Connect} (h : c.Onward d) : reserved d.pc ≤ posted c.pc := by
  cases hpc : d.pc with
  | rdmaConnect => rw [h.toConnect hpc]; exact Nat.le_refl 1
  | sendRequest => rw [h.toRequest hpc]; exact Nat.le_refl 1
  | _ => exact Nat.zero_le _

/-- The verb behind a receive is reached only when posting the receive succeeded. -/
theorem reserved_of_failed {c d : Connect} {ret : ℤ} (h : c.call ret = some d)
    (hfail : ¬ (ret = 0 ∧ d.pc ≠ .crashed)) : reserved d.pc = 0 := by
  have hle := reserved_of_onward (Connect.onward_of_call h)
  cases hpc : c.pc with
  | postRecv | postRecvChunks =>
    simp only [Connect.call, hpc, Connect.checked] at h
    split_ifs at h with hmissing hret
    · obtain rfl := Option.some_inj.mp h
      rfl
    · obtain rfl := Option.some_inj.mp h
      rfl
    · obtain rfl := Option.some_inj.mp h
      exact absurd ⟨not_not.mp hret, fun hpc => by cases hpc⟩ hfail
  | _ =>
    rw [hpc] at hle
    exact Nat.le_zero.mp hle

theorem Reserving.of_call {ret : ℤ} (h : s.Reserving) (hstep : s.call ret = some t) :
    t.Reserving := by
  obtain ⟨driver, hdriver, ⟨-, -, rfl⟩ | ⟨hfail, rfl⟩⟩ := call_cases hstep
  all_goals rw [Reserving] at h ⊢
  · have hnext := reserved_of_onward (Connect.onward_of_call hdriver)
    have hdue := verb_due (s.withDriver driver) s.client.driver.pc
    rw [verb_driver, verb_toClient, verb_recvs]
    change _ ≤ s.due + _ at hdue
    change s.toClient.length + _ + reserved driver.pc ≤ s.recvs + _
    omega
  · have hnext := reserved_of_failed hdriver hfail
    change s.toClient.length + s.due + reserved driver.pc ≤ s.recvs
    omega

/-- A step of the setup thread at a wait. -/
theorem Reserving.of_leaveWait {driver : Connect} (h : s.Reserving)
    (hdriver : s.client.driver.leaveWait = some driver) : (s.withDriver driver).Reserving := by
  have hnext := reserved_of_onward (Connect.onward_of_leaveWait hdriver)
  have hnone : posted s.client.driver.pc = 0 := by
    cases hpc : s.client.driver.pc with
    | postRecv | postRecvChunks => simp [Connect.leaveWait, hpc] at hdriver
    | _ => rfl
  rw [Reserving] at h ⊢
  change s.toClient.length + s.due + reserved driver.pc ≤ s.recvs
  omega

/-- Every step but an eviction keeps the receives reserved. -/
theorem Reserving.of_step (h : s.Reserving) (hop : s.NoEviction op) (hstep : s.step op = some t) :
    t.Reserving := by
  cases op with
  | call ret => exact h.of_call hstep
  | wake =>
    obtain ⟨driver, hdriver, rfl⟩ := leaveWait_cases (.inl rfl) hstep
    exact h.of_leaveWait hdriver
  | signal =>
    obtain ⟨driver, hdriver, rfl⟩ := leaveWait_cases (.inr rfl) hstep
    exact h.of_leaveWait hdriver
  | cm =>
    obtain ⟨event, handshake, hnext, rfl⟩ := cm_cases hstep
    obtain ⟨-, -, hpc, -⟩ := state_of_nextEvent s.client.driver hnext
    have hdue : { s.withDriver (s.client.driver.cmSwitch event) with
        handshake := handshake }.due ≤ s.due := by
      cases hold : s.handshake <;> rw [hold] at hnext <;> cases hnext
      all_goals simp [due, withDriver, hold, sizeDue]
    rw [Reserving] at h ⊢
    change s.toClient.length + _ + reserved (s.client.driver.cmSwitch event).pc ≤ s.recvs
    rw [hpc]
    omega
  | handler op =>
    obtain ⟨hof, client, hclient, rfl⟩ := handler_cases hstep
    obtain ⟨hpc, -⟩ := CqHandler.driver_of_step hof hclient
    rw [Reserving] at h ⊢
    change s.toClient.length + s.due + reserved client.driver.pc ≤ s.recvs
    rw [hpc]
    exact h
  | connected msg =>
    obtain ⟨hshake, hconn, -, rfl⟩ := connected_cases hstep
    have hsize : sizeDue false s.handshake = 1 := by
      rcases List.mem_pair.mp hshake with hold | hold <;> rw [hold] <;> rfl
    have hnone : sizeDue true s.handshake = 0 := by cases s.handshake <;> rfl
    rw [Reserving] at h ⊢
    simp only [due, hconn, hsize, hnone, post, List.length_append, List.length_singleton] at h ⊢
    omega
  | receive =>
    obtain ⟨type, rest, server, hqueue, hidle, rfl, hconn, -⟩ := receive_cases hstep
    have hone := Bool.toNat_le server.answering.isSome
    rw [Reserving] at h ⊢
    simp only [due, hqueue, hidle, hconn, List.length_cons, Option.isSome_none,
      Bool.toNat_false] at h ⊢
    omega
  | answer msg =>
    obtain ⟨type, hanswering, -, rfl⟩ := answer_cases hstep
    rw [Reserving] at h ⊢
    simp only [due, hanswering, post, List.length_append, List.length_singleton,
      Option.isSome_some, Option.isSome_none, Bool.toNat_true, Bool.toNat_false] at h ⊢
    omega
  | evict msg => exact hop.elim
  | stop msg => exact hop.elim
  | deliver =>
    obtain ⟨msg, rest, hqueue, hrecvs, rfl⟩ := deliver_cases hstep
    rw [Reserving] at h ⊢
    rw [hqueue, List.length_cons] at h
    change rest.length + s.due + reserved s.client.driver.pc ≤ s.recvs - 1
    omega
  | sendDone =>
    obtain ⟨-, rfl⟩ := sendDone_cases hstep
    exact h

theorem reserving_init : init.Reserving := Nat.le_refl 0

theorem Reserving.covered (h : s.Reserving) (hop : s.NoEviction op) : s.Covered op := by
  intro t hstep _
  have ht := h.of_step hop hstep
  rw [Reserving] at ht
  omega

/-! ### No receive for an eviction -/

/-- The receives that the setup thread has posted at most. -/
def receivesBefore (pc : Pc) : ℕ :=
  (if Pc.postRecv.rank < pc.rank then 1 else 0) +
    if Pc.postRecvChunks.rank < pc.rank then 1 else 0

theorem receivesBefore_le (pc : Pc) : receivesBefore pc ≤ 2 := by
  rw [receivesBefore]
  split_ifs <;> decide

theorem receivesBefore_of_lt {pc next : Pc} (h : pc.rank < next.rank) :
    receivesBefore pc + posted pc ≤ receivesBefore next := by
  have hmono : receivesBefore pc ≤ receivesBefore next := by
    simp only [receivesBefore]
    split_ifs <;> omega
  cases pc with
  | postRecv =>
    have hnext : 1 ≤ receivesBefore next := by
      rw [receivesBefore, if_pos h]
      exact Nat.le_add_right _ _
    exact hnext
  | postRecvChunks =>
    have hnext : receivesBefore next = 2 := by
      have hfirst : Pc.postRecv.rank < next.rank := Nat.lt_trans (by decide) h
      rw [receivesBefore, if_pos h, if_pos hfirst]
    rw [hnext]
    decide
  | _ => exact hmono

/-- The messages that were sent, against the receives that were posted for them: those under
way and those consumed, and at least the size and an answer that the server is done with. -/
structure Tallied (s : Link) : Prop where
  receives : s.recvs + s.sent ≤ s.toClient.length + receivesBefore s.client.driver.pc
  sent : s.server.connected.toNat + (s.server.mapped && s.server.answering.isNone).toNat ≤ s.sent

theorem tallied_init : init.Tallied := ⟨Nat.le_refl 0, Nat.le_refl 0⟩

/-- The setup thread moves on. -/
theorem Tallied.of_onward {driver : Connect} (h : s.Tallied)
    (hon : s.client.driver.Onward driver) : (s.withDriver driver).Tallied := by
  have hnext := receivesBefore_of_lt hon.rank_lt
  have hreceives := h.receives
  refine ⟨?_, h.sent⟩
  change s.recvs + s.sent ≤ s.toClient.length + receivesBefore driver.pc
  omega

/-- The server posts a message that is not among those counted, or counts it. -/
theorem Tallied.post (h : s.Tallied) (msg : Message chunkPositions) {server : Peer}
    (hserver : server.connected.toNat + (server.mapped && server.answering.isNone).toNat ≤
      s.server.connected.toNat + (s.server.mapped && s.server.answering.isNone).toNat + 1) :
    Tallied { s.post msg with server := server } := by
  have hreceives := h.receives
  have hsent := h.sent
  refine ⟨?_, ?_⟩
  · simp only [Link.post, List.length_append, List.length_singleton]
    omega
  · simp only [Link.post]
    omega

theorem Tallied.of_call {ret : ℤ} (h : s.Tallied) (hstep : s.call ret = some t) :
    t.Tallied := by
  have hreceives := h.receives
  obtain ⟨driver, hdriver, ⟨-, -, rfl⟩ | ⟨-, rfl⟩⟩ := call_cases hstep
  · have hnext := receivesBefore_of_lt (Connect.onward_of_call hdriver).rank_lt
    refine ⟨?_, ?_⟩
    · rw [verb_driver, verb_toClient, verb_recvs, verb_sent]
      change s.recvs + _ + s.sent ≤ s.toClient.length + receivesBefore driver.pc
      omega
    · rw [verb_server, verb_sent]
      exact h.sent
  · exact h.of_onward (Connect.onward_of_call hdriver)

/-- A request that the server takes up is not answered yet. -/
theorem Tallied.of_receive (h : s.Tallied) (hstep : s.receive = some t) : t.Tallied := by
  have hsent := h.sent
  obtain ⟨type, rest, server, -, hidle, rfl, hconn, hsome | hmapped⟩ := receive_cases hstep
  all_goals refine ⟨h.receives, ?_⟩
  · have hnone : server.answering.isNone = false := by
      rw [← Option.not_isSome, hsome]
      rfl
    simp only [hnone, hconn, Bool.and_false, Bool.toNat_false]
    omega
  · rw [hidle] at hsent
    have hle : (server.mapped && server.answering.isNone).toNat ≤
        (s.server.mapped && (none : Option MessageType).isNone).toNat := by
      rw [hmapped]
      cases s.server.mapped <;> simp [Bool.toNat_le]
    simp only [hconn]
    omega

theorem Tallied.of_step (h : s.Tallied) (hstep : s.step op = some t) : t.Tallied := by
  have hreceives := h.receives
  have hsent := h.sent
  cases op with
  | call ret => exact h.of_call hstep
  | wake =>
    obtain ⟨driver, hdriver, rfl⟩ := leaveWait_cases (.inl rfl) hstep
    exact h.of_onward (Connect.onward_of_leaveWait hdriver)
  | signal =>
    obtain ⟨driver, hdriver, rfl⟩ := leaveWait_cases (.inr rfl) hstep
    exact h.of_onward (Connect.onward_of_leaveWait hdriver)
  | cm =>
    obtain ⟨event, handshake, hnext, rfl⟩ := cm_cases hstep
    obtain ⟨-, -, hpc, -⟩ := state_of_nextEvent s.client.driver hnext
    refine ⟨?_, hsent⟩
    change s.recvs + s.sent ≤
      s.toClient.length + receivesBefore (s.client.driver.cmSwitch event).pc
    rw [hpc]
    exact hreceives
  | handler op =>
    obtain ⟨hof, client, hclient, rfl⟩ := handler_cases hstep
    obtain ⟨hpc, -⟩ := CqHandler.driver_of_step hof hclient
    refine ⟨?_, hsent⟩
    change s.recvs + s.sent ≤ s.toClient.length + receivesBefore client.driver.pc
    rw [hpc]
    exact hreceives
  | connected msg =>
    obtain ⟨-, hconn, -, rfl⟩ := connected_cases hstep
    refine h.post msg ?_
    rw [hconn, Bool.toNat_false, Bool.toNat_true]
    dsimp only
    omega
  | receive => exact h.of_receive hstep
  | answer msg =>
    obtain ⟨type, -, -, rfl⟩ := answer_cases hstep
    have hone := Bool.toNat_le (s.server.mapped && (none : Option MessageType).isNone)
    refine h.post msg ?_
    dsimp only
    omega
  | evict msg =>
    obtain ⟨-, -, -, rfl⟩ := evict_cases hstep
    exact h.post msg (Nat.le_succ _)
  | stop msg =>
    obtain ⟨-, -, -, rfl⟩ := stop_cases hstep
    exact h.post msg (Nat.le_succ _)
  | deliver =>
    obtain ⟨msg, rest, hqueue, hrecvs, rfl⟩ := deliver_cases hstep
    refine ⟨?_, hsent⟩
    rw [hqueue, List.length_cons] at hreceives
    change s.recvs - 1 + s.sent ≤ rest.length + receivesBefore s.client.driver.pc
    omega
  | sendDone =>
    obtain ⟨-, rfl⟩ := sendDone_cases hstep
    exact ⟨hreceives, hsent⟩

/-- An eviction behind the size and the answer is the third message for two receives. -/
theorem Tallied.evict_not_covered (h : s.Tallied) {msg : Message chunkPositions}
    (hconn : s.server.connected = true) (hdone : s.server.answering = none)
    (hstep : s.step (.evict msg) = some t) : ¬ s.Covered (.evict msg) := by
  intro hcovered
  obtain ⟨hmapped, -, -, rfl⟩ := evict_cases hstep
  have hle := hcovered _ hstep (Nat.lt_succ_self s.sent)
  have htwo := receivesBefore_le s.client.driver.pc
  have hreceives := h.receives
  have hsent := h.sent
  simp only [hconn, hmapped, hdone, Option.isNone_none, Bool.and_self, Bool.toNat_true] at hsent
  simp only [Link.post, List.length_append, List.length_singleton] at hle
  omega

/-- In every run without evictions each message of the server finds a posted receive. An
`EVICT` that is posted when the size was sent and the request answered finds none, in any
run. -/
theorem messages_are_covered (h : run Link.step init ops = some s) :
    (EachStep Link.step NoEviction init ops → EachStep Link.step Covered init ops) ∧
      ∀ msg t, s.server.connected = true → s.server.answering = none →
        s.step (.evict msg) = some t → ¬ s.Covered (.evict msg) := by
  constructor
  · intro hquiet
    have hiff : EachStep Link.step Covered init ops ↔
        EachStep Link.step (fun _ _ => True) init ops :=
      eachStep_iff (fun _ _ _ hs hop hstep => Reserving.of_step hs hop hstep)
        (fun _ _ hs hop => iff_true_intro (Reserving.covered hs hop)) reserving_init hquiet
    exact hiff.mpr (eachStep_of_forall fun _ _ => trivial)
  · intro msg t hconn hdone hstep
    have hs : s.Tallied := run_keeps (fun _ _ _ hs hstep => hs.of_step hstep) tallied_init h
    exact hs.evict_not_covered hconn hdone hstep

/-- The whole exchange of the setup. -/
def exchange : List Op :=
  untilConnect ++ [.cm, .wake, .call 0, .connected (freeSizeMessage 1), .deliver,
    .handler .enter, .handler (.notify 0), .handler .poll, .handler (.dispatch true 0),
    .handler .poll, .wake, .call 0, .call 0, .receive, .answer chunksMessage, .deliver]

theorem messages_are_covered_exchange :
    (run Link.step init exchange).isSome ∧ EachStep Link.step Covered init exchange := by
  have hruns : (run Link.step init exchange).isSome := by decide
  obtain ⟨s, hs⟩ := Option.isSome_iff_exists.mp hruns
  exact ⟨hruns, (messages_are_covered hs).1 (by decide)⟩

/-- The server evicts behind the exchange, when the client has no receive left. -/
theorem eviction_finds_no_receive :
    ∃ s t, run Link.step init exchange = some s ∧
      s.step (.evict ⟨fun _ => 0, fun _ => 0, 1, .evict⟩) = some t ∧ s.sent < t.sent ∧
      ¬ t.toClient.length ≤ t.recvs := by
  refine ⟨_, _, rfl, rfl, by decide, by decide⟩

end SystemDev.Octopus.Link
