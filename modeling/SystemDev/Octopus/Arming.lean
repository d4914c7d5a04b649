import SystemDev.Octopus.Link

/-!
# The first notification

The setup thread posts a receive, connects, and asks for the first notification only after
the connection is made. The server sends `FREE_SIZE` as soon as it hears of the connection
itself. When the message arrives before the first `ib_req_notify_cq`, its completion raises
no handler call, and asking afterwards announces only the next completion, which never comes:
the setup thread waits for the message that is already there.

## Main results

* `Link.stranded_iff_early` — while the setup thread waits for the free size, the message is
  stranded exactly when a completion was added before the first notification was asked for
-/

namespace SystemDev.Octopus.Link

open SystemDev.Library SystemDev.Rdma

/-- The setup thread is blocked on `FREE_MEM_RECV`, the completion of a `FREE_SIZE` message
is in the queue, and no handler call is running or pending. -/
structure Stranded (s : Link) : Prop where
  waits : s.client.driver.pc = .waitFreeMem
  blocked : s.client.driver.session.state ≠ .freeMemRecv
  queued : ∃ msg : Message chunkPositions, msg.type = .freeSize ∧ recvWc msg ∈ s.client.cq.entries
  quiet : s.client.Quiet

/-- A completion is added only after the first `ib_req_notify_cq` has succeeded. -/
def ArrivesArmed (s : Link) : Op → Prop
  | .deliver | .sendDone => s.client.driver.armed = true
  | _ => True

instance (s : Link) : (op : Op) → Decidable (s.ArrivesArmed op)
  | .deliver | .sendDone => inferInstanceAs (Decidable (_ = _))
  | .call _ | .wake | .signal | .cm | .handler _ | .connected _ | .receive | .answer _
  | .evict _ | .stop _ => .isTrue trivial

variable {s t : Link} {op : Op} {ops : List Op} {Q : Prop}

/-! ### When the queue is armed first -/

/-- The handler of a queue that was armed while it was empty: it hears of the next
completion, unless it has taken its error exit. -/
structure Attended (c : CqHandler) : Prop where
  unarmed : c.driver.pc.rank ≤ Pc.reqNotifyCq.rank → c.driver.armed = false
  error : c.driver.session.state = .error → c.pc = .collecting
  before : c.driver.armed = false → c.cq = .empty ∧ c.pc = .idle
  after : c.driver.armed = true → match c.pc with
    | .idle => c.cq.Settled
    | .polling | .dispatching _ => c.cq.Heard
    | .arming | .collecting => True

/-- The setup thread moves on without a word to the queue, or another thread changes the
session state. -/
theorem Attended.of_driver {c : CqHandler} {driver : Connect} (h : Attended c)
    (hrank : c.driver.pc.rank ≤ driver.pc.rank) (harmed : driver.armed = c.driver.armed)
    (hstate : driver.session.state = .error → c.driver.session.state = .error) :
    Attended { c with driver := driver } where
  unarmed hle := harmed.trans (h.unarmed (hrank.trans hle))
  error herror := h.error (hstate herror)
  before := harmed ▸ h.before
  after := harmed ▸ h.after

theorem Attended.of_onward {driver : Connect} (h : Attended s.client)
    (hon : s.client.driver.Onward driver) (harmed : driver.armed = s.client.driver.armed) :
    Attended (s.withDriver driver).client :=
  h.of_driver hon.rank_lt.le harmed (hon.state_eq (by decide))

/-- The first arming finds an empty queue. -/
theorem Attended.of_notify {ret : ℤ} (h : Attended s.client) (hstep : s.call ret = some t)
    (hpc : s.client.driver.pc = .reqNotifyCq) : Attended t.client := by
  obtain ⟨driver, hdriver, hcases⟩ := call_cases hstep
  have hon := Connect.onward_of_call hdriver
  have hunarmed := h.unarmed (by rw [hpc])
  have harmed := Connect.armed_of_call hdriver hpc hunarmed
  obtain ⟨hcq, hidle⟩ := h.before hunarmed
  have hstate : driver.session.state = .error → s.client.pc = .collecting :=
    fun herror => h.error (hon.state_eq (by decide) herror)
  have hbehind : ¬ driver.pc.rank ≤ Pc.reqNotifyCq.rank := by
    have hlt := hon.rank_lt
    rw [hpc] at hlt
    exact Nat.not_le.mpr hlt
  rcases hcases with ⟨hret, hcrash, rfl⟩ | ⟨hfail, rfl⟩
  · have hyes := harmed.mpr ⟨hret, hcrash⟩
    rw [hpc]
    refine ⟨fun hle => absurd hle hbehind, hstate, fun hno => ?_, fun _ => ?_⟩
    · exact absurd (hyes.symm.trans hno) Bool.true_eq_false.mp
    · simp only [verb, withDriver, hidle, hcq]
      exact NotifyQueue.settled_arm_empty
  · -- the thread has returned or crashed, and the queue stays as it is
    exact ⟨fun hle => absurd hle hbehind, hstate, fun _ => ⟨hcq, hidle⟩,
      fun hyes => absurd (harmed.mp hyes) hfail⟩

theorem Attended.of_call {ret : ℤ} (h : Attended s.client) (hstep : s.call ret = some t) :
    Attended t.client := by
  by_cases hpc : s.client.driver.pc = .reqNotifyCq
  · exact h.of_notify hstep hpc
  · obtain ⟨driver, hdriver, hcases⟩ := call_cases hstep
    have hon := Connect.onward_of_call hdriver
    rcases hcases with ⟨-, -, rfl⟩ | ⟨-, rfl⟩
    · rw [verb_client _ hpc]
      exact h.of_onward hon (hon.armed hpc)
    · exact h.of_onward hon (hon.armed hpc)

/-- A completion is added to a queue that was armed. -/
theorem Attended.complete {wc : Wc chunkPositions} (h : Attended s.client)
    (harmed : s.client.driver.armed = true) : Attended (s.complete wc).client where
  unarmed := h.unarmed
  error := h.error
  before hno := absurd hno (by simp [Link.complete, harmed])
  after := by
    intro hyes
    have hafter := h.after hyes
    simp only [Link.complete] at hafter ⊢
    split <;> simp_all only [NotifyQueue.Settled.add, NotifyQueue.Heard.add]

/-- The handler leaves the session in `ERROR` by its error exit only. -/
theorem error_of_handler {c d : CqHandler} {op : CqHandler.Op} (hop : op.OfHandler)
    (hstep : c.step op = some d)
    (h : c.driver.session.state = .error → c.pc = .collecting)
    (herror : d.driver.session.state = .error) : d.pc = .collecting := by
  cases op with
  | add wc => exact hop.elim
  | enter =>
    obtain ⟨hpc, -, ⟨hold, -⟩ | ⟨hold, rfl⟩⟩ := CqHandler.enter_cases hstep
    · cases hpc.symm.trans (h hold)
    · exact absurd herror hold
  | notify ret =>
    obtain ⟨hpc, ⟨-, rfl⟩ | ⟨-, rfl⟩⟩ := CqHandler.notify_cases hstep
    · rfl
    · cases hpc.symm.trans (h herror)
  | poll =>
    obtain ⟨hpc, ⟨-, rfl⟩ | ⟨wc, rest, -, ⟨-, rfl⟩ | ⟨-, rfl⟩⟩⟩ := CqHandler.poll_cases hstep
    · cases hpc.symm.trans (h herror)
    · rfl
    · cases hpc.symm.trans (h herror)
  | dispatch kzalloc ret =>
    obtain ⟨wc, p, hpc, hp, ⟨-, rfl⟩ | ⟨hret, rfl⟩⟩ := CqHandler.dispatch_cases hstep
    · rfl
    · refine absurd herror (CqHandler.state_of_switch hp hret fun hold => ?_)
      cases hpc.symm.trans (h hold)

theorem Attended.of_handler {c d : CqHandler} {op : CqHandler.Op} (h : Attended c)
    (hop : op.OfHandler) (hstep : c.step op = some d) : Attended d := by
  obtain ⟨hdriverPc, hdriverArmed⟩ := CqHandler.driver_of_step hop hstep
  -- before the first arming there is no call to take a step
  have harmed : c.driver.armed = true := by
    by_contra hno
    obtain ⟨hcq, hidle⟩ := h.before (by simpa using hno)
    exact CqHandler.not_quiet_of_step hop hstep ⟨hidle, by rw [hcq]; rfl⟩
  have hafter := h.after harmed
  refine ⟨fun hle => ?_, error_of_handler hop hstep h.error, fun hno => ?_, fun _ => ?_⟩
  · rw [hdriverArmed]
    exact h.unarmed (hdriverPc ▸ hle)
  · rw [hdriverArmed, harmed] at hno
    cases hno
  · cases op with
    | add wc => exact hop.elim
    | enter =>
      obtain ⟨hpc, -, ⟨hold, -⟩ | ⟨-, rfl⟩⟩ := CqHandler.enter_cases hstep
      · cases hpc.symm.trans (h.error hold)
      · trivial
    | notify ret =>
      obtain ⟨hpc, ⟨-, rfl⟩ | ⟨-, rfl⟩⟩ := CqHandler.notify_cases hstep
      · trivial
      · exact NotifyQueue.heard_arm
    | poll =>
      obtain ⟨hpc, ⟨hempty, rfl⟩ | ⟨wc, rest, -, ⟨-, rfl⟩ | ⟨-, rfl⟩⟩⟩ :=
        CqHandler.poll_cases hstep
      all_goals rw [hpc] at hafter
      · exact hafter.settled hempty
      · trivial
      · exact hafter.drop
    | dispatch kzalloc ret =>
      obtain ⟨wc, p, hpc, hp, ⟨-, rfl⟩ | ⟨-, rfl⟩⟩ := CqHandler.dispatch_cases hstep
      · trivial
      · rw [hpc] at hafter
        exact hafter

/-- Every step keeps the handler attended, when no completion comes too early. -/
theorem Attended.of_step (h : Attended s.client) (hop : s.ArrivesArmed op)
    (hstep : s.step op = some t) : Attended t.client := by
  cases op with
  | call ret => exact h.of_call hstep
  | wake =>
    obtain ⟨driver, hdriver, rfl⟩ := leaveWait_cases (.inl rfl) hstep
    exact h.of_onward (Connect.onward_of_leaveWait hdriver) (Connect.armed_of_leaveWait hdriver)
  | signal =>
    obtain ⟨driver, hdriver, rfl⟩ := leaveWait_cases (.inr rfl) hstep
    exact h.of_onward (Connect.onward_of_leaveWait hdriver) (Connect.armed_of_leaveWait hdriver)
  | cm =>
    obtain ⟨event, handshake, hnext, rfl⟩ := cm_cases hstep
    obtain ⟨herror, -, hpc, harmed⟩ := state_of_nextEvent s.client.driver hnext
    exact h.of_driver (Nat.le_of_eq (congrArg Pc.rank hpc.symm)) harmed fun h => absurd h herror
  | handler op =>
    obtain ⟨hof, client, hclient, rfl⟩ := handler_cases hstep
    exact h.of_handler hof hclient
  | connected msg =>
    obtain ⟨-, -, -, rfl⟩ := connected_cases hstep
    exact h
  | receive =>
    obtain ⟨-, -, -, -, -, rfl, -, -⟩ := receive_cases hstep
    exact h
  | answer msg =>
    obtain ⟨-, -, -, rfl⟩ := answer_cases hstep
    exact h
  | evict msg =>
    obtain ⟨-, -, -, rfl⟩ := evict_cases hstep
    exact h
  | stop msg =>
    obtain ⟨-, -, -, rfl⟩ := stop_cases hstep
    exact h
  | deliver =>
    obtain ⟨msg, rest, -, -, rfl⟩ := deliver_cases hstep
    exact h.complete hop
  | sendDone =>
    obtain ⟨-, rfl⟩ := sendDone_cases hstep
    exact h.complete hop

theorem attended_init : Attended init.client where
  unarmed _ := rfl
  error := nofun
  before _ := ⟨rfl, rfl⟩
  after := nofun

theorem Attended.not_stranded (h : Attended s.client) : ¬ s.Stranded := by
  intro hstranded
  obtain ⟨msg, -, hqueued⟩ := hstranded.queued
  obtain ⟨hidle, hpending⟩ := hstranded.quiet
  have hempty : s.client.cq.entries = [] := by
    cases harmed : s.client.driver.armed with
    | false =>
      rw [(h.before harmed).1]
      rfl
    | true =>
      have hsettled := h.after harmed
      rw [hidle] at hsettled
      exact (hsettled hpending).1
  rw [hempty] at hqueued
  cases hqueued

/-! ### When a completion comes too early -/

/-- The setup up to the wait for the free size. The server has nothing to answer, at most
`FREE_SIZE` is under way, and no handler runs before the queue is armed. `Q` says that no
completion came too early; when one did, it is still there and nothing announces it. -/
structure Waiting (s : Link) (Q : Prop) : Prop where
  sends : s.sends = 0
  toServer : s.toServer = []
  server : s.server.answering = none ∧ s.server.mapped = false ∧ s.server.evicting = false
  once : s.toClient.length ≤ s.server.connected.toNat
  freeSize : ∀ msg ∈ s.toClient, msg.type = .freeSize
  unarmed : s.client.driver.armed = false → s.client.Quiet ∧ s.client.cq.armed = false ∧
    s.client.driver.session.state ≠ .freeMemRecv
  armed : s.client.driver.pc = .waitFreeMem ↔ s.client.driver.armed = true
  early : ¬ Q → s.server.connected = true ∧ s.toClient = [] ∧ s.client.Quiet ∧
    s.client.driver.session.state ≠ .freeMemRecv ∧
    ∃ msg, msg.type = .freeSize ∧ recvWc msg ∈ s.client.cq.entries

theorem waiting_init : init.Waiting True where
  sends := rfl
  toServer := rfl
  server := ⟨rfl, rfl, rfl⟩
  once := Nat.le_refl 0
  freeSize := nofun
  unarmed _ := ⟨⟨rfl, rfl⟩, rfl, nofun⟩
  armed := ⟨nofun, nofun⟩
  early hnot := absurd trivial hnot

/-- Server and network stand still, and the client takes nothing from the queue. -/
theorem Waiting.of_client (h : s.Waiting Q)
    (hlink : t.sends = s.sends ∧ t.toServer = s.toServer ∧ t.server = s.server ∧
      t.toClient = s.toClient)
    (hentries : t.client.cq.entries = s.client.cq.entries)
    (hquiet : s.client.Quiet → t.client.Quiet)
    (hstate : s.client.driver.session.state ≠ .freeMemRecv →
      t.client.driver.session.state ≠ .freeMemRecv)
    (hunarmed : t.client.driver.armed = false →
      s.client.driver.armed = false ∧ t.client.cq.armed = s.client.cq.armed)
    (harmed : t.client.driver.pc = .waitFreeMem ↔ t.client.driver.armed = true) :
    t.Waiting (Q ∧ True) := by
  obtain ⟨hsends, htoServer, hserver, htoClient⟩ := hlink
  refine ⟨hsends.trans h.sends, htoServer.trans h.toServer, hserver ▸ h.server, ?_, ?_, ?_,
    harmed, ?_⟩
  · rw [htoClient, hserver]
    exact h.once
  · rw [htoClient]
    exact h.freeSize
  · intro hno
    obtain ⟨hold, hcq⟩ := hunarmed hno
    obtain ⟨hq, hcqOld, hs⟩ := h.unarmed hold
    exact ⟨hquiet hq, hcq.trans hcqOld, hstate hs⟩
  · intro hnot
    obtain ⟨hconn, hnone, hq, hs, hqueued⟩ := h.early fun hQ => hnot ⟨hQ, trivial⟩
    rw [hserver, htoClient, hentries]
    exact ⟨hconn, hnone, hquiet hq, hstate hs, hqueued⟩

/-- Before the queue is armed, the verbs reach neither the server nor what is under way. -/
theorem verb_link (s : Link) {pc : Pc} (h : pc.rank ≤ Pc.reqNotifyCq.rank) :
    (s.verb pc).sends = s.sends ∧ (s.verb pc).toServer = s.toServer ∧
      (s.verb pc).server = s.server ∧ (s.verb pc).toClient = s.toClient := by
  cases pc <;> first | exact ⟨rfl, rfl, rfl, rfl⟩ | exact absurd h (by decide)

/-- A step of the setup thread that leaves the queue unarmed. -/
theorem Waiting.of_onward {driver : Connect} (h : s.Waiting Q)
    (hon : s.client.driver.Onward driver) (harmed : driver.armed = s.client.driver.armed)
    (hold : s.client.driver.armed = false)
    (hlink : t.sends = s.sends ∧ t.toServer = s.toServer ∧ t.server = s.server ∧
      t.toClient = s.toClient)
    (hclient : t.client = (s.withDriver driver).client) : t.Waiting (Q ∧ True) := by
  refine h.of_client hlink (by rw [hclient]; rfl) (fun hq => by rw [hclient]; exact hq) ?_ ?_ ?_
  all_goals rw [hclient]
  · exact mt (hon.state_eq (by decide))
  · exact fun hno => ⟨hold, rfl⟩
  · refine iff_of_false (fun hpc => ?_) (by simp [withDriver, harmed, hold])
    rw [(hon.toNotify hpc).2, hold] at harmed
    cases harmed

/-- The queue is armed, whatever is in it. -/
theorem Waiting.of_notify {driver : Connect} (h : s.Waiting Q)
    (hon : s.client.driver.Onward driver) (hpc : driver.pc = .waitFreeMem) :
    ((s.withDriver driver).verb .reqNotifyCq).Waiting (Q ∧ True) := by
  have harmed : driver.armed = true := (hon.toNotify hpc).2
  refine h.of_client ⟨rfl, rfl, rfl, rfl⟩ rfl (fun hq => hq) ?_ ?_ (iff_of_true hpc harmed)
  · exact mt (hon.state_eq (by decide))
  · intro hno
    exact absurd (harmed.symm.trans hno) Bool.true_eq_false.mp

theorem Waiting.unarmed_of_rank (h : s.Waiting Q)
    (hrank : s.client.driver.pc.rank < Pc.waitFreeMem.rank) : s.client.driver.armed = false := by
  cases harmed : s.client.driver.armed with
  | false => rfl
  | true =>
    rw [h.armed.mpr harmed] at hrank
    exact absurd hrank (Nat.lt_irrefl _)

theorem Waiting.of_call {ret : ℤ} (h : s.Waiting Q) (hstep : s.call ret = some t)
    (hrank : t.client.driver.pc.rank ≤ Pc.waitFreeMem.rank) : t.Waiting (Q ∧ True) := by
  obtain ⟨driver, hdriver, hcases⟩ := call_cases hstep
  have hon := Connect.onward_of_call hdriver
  have hnew : t.client.driver = driver := by
    rcases hcases with ⟨-, -, rfl⟩ | ⟨-, rfl⟩
    · rw [verb_driver]
      rfl
    · rfl
  rw [hnew] at hrank
  have hlt := Nat.lt_of_lt_of_le hon.rank_lt hrank
  have hold := h.unarmed_of_rank hlt
  by_cases hpc : s.client.driver.pc = .reqNotifyCq
  · have hnext : Pc.reqNotifyCq.rank < driver.pc.rank := hpc ▸ hon.rank_lt
    have hwait : driver.pc = .waitFreeMem :=
      Connect.eq_of_rank_eq (Nat.le_antisymm hrank hnext) (hrank.trans (by decide))
    have harmed := Connect.armed_of_call hdriver hpc hold
    rcases hcases with ⟨-, -, rfl⟩ | ⟨hfail, -⟩
    · rw [hpc]
      exact h.of_notify hon hwait
    · exact absurd (harmed.mp (hon.toNotify hwait).2) hfail
  · rcases hcases with ⟨-, -, rfl⟩ | ⟨-, rfl⟩
    · exact h.of_onward hon (hon.armed hpc) hold (verb_link _ (Nat.le_of_lt_succ hlt))
        (verb_client _ hpc)
    · exact h.of_onward hon (hon.armed hpc) hold ⟨rfl, rfl, rfl, rfl⟩ rfl

/-- The only message there is arrives. -/
theorem Waiting.of_deliver (h : s.Waiting Q) (hstep : s.step .deliver = some t) :
    t.Waiting (Q ∧ s.client.driver.armed = true) := by
  obtain ⟨msg, rest, hqueue, -, rfl⟩ := deliver_cases hstep
  have honce := h.once
  have htype := h.freeSize
  rw [hqueue] at honce htype
  have hrest : rest = [] ∧ s.server.connected = true := by
    have hle := Bool.toNat_le s.server.connected
    rw [List.length_cons] at honce
    refine ⟨List.length_eq_zero_iff.mp (by omega), ?_⟩
    cases hconn : s.server.connected with
    | true => rfl
    | false =>
      rw [hconn, Bool.toNat_false] at honce
      omega
  -- no completion came before, or none would be under way
  have hQ : Q := by
    by_contra hnot
    have hnone := (h.early hnot).2.1
    rw [hqueue] at hnone
    cases hnone
  have hquiet : s.client.driver.armed = false →
      (s.complete (recvWc msg)).client.Quiet ∧
        s.client.driver.session.state ≠ .freeMemRecv := by
    intro hno
    obtain ⟨⟨hidle, hpending⟩, hcq, hs⟩ := h.unarmed hno
    exact ⟨⟨hidle, by simp [Link.complete, NotifyQueue.add, hcq, hpending]⟩, hs⟩
  refine ⟨h.sends, h.toServer, h.server, ?_, ?_, fun hno => ?_, h.armed, fun hnot => ?_⟩
  · simp [hrest.1]
  · simp [hrest.1]
  · exact ⟨(hquiet hno).1, rfl, (hquiet hno).2⟩
  · have hno : s.client.driver.armed = false := by
      cases harmed : s.client.driver.armed with
      | false => rfl
      | true => exact absurd ⟨hQ, harmed⟩ hnot
    exact ⟨hrest.2, hrest.1, (hquiet hno).1, (hquiet hno).2, msg, htype msg List.mem_cons_self,
      List.mem_append_right _ List.mem_cons_self⟩

/-- A handler call runs on an armed queue, to which no completion came too early. -/
theorem Waiting.of_handler {client : CqHandler} {op : CqHandler.Op} (h : s.Waiting Q)
    (hop : op.OfHandler) (hclient : s.client.step op = some client) :
    Waiting { s with client := client } (Q ∧ True) := by
  obtain ⟨hpc, harmed⟩ := CqHandler.driver_of_step hop hclient
  have hbusy := CqHandler.not_quiet_of_step hop hclient
  refine ⟨h.sends, h.toServer, h.server, h.once, h.freeSize, fun hno => ?_, ?_, fun hnot => ?_⟩
  · exact absurd (h.unarmed (harmed.symm.trans hno)).1 hbusy
  · simpa [hpc, harmed] using h.armed
  · exact absurd (h.early fun hQ => hnot ⟨hQ, trivial⟩).2.2.1 hbusy

/-- The server hears of the connection and sends its only message. -/
theorem Waiting.of_connected {msg : Message chunkPositions} (h : s.Waiting Q)
    (hconn : s.server.connected = false) (htype : msg.type = .freeSize) :
    Waiting { s.post msg with server := { s.server with connected := true } } (Q ∧ True) := by
  have hnone : s.toClient = [] := by
    have honce := h.once
    rw [hconn] at honce
    exact List.length_eq_zero_iff.mp (Nat.le_zero.mp honce)
  refine ⟨h.sends, h.toServer, h.server, ?_, ?_, h.unarmed, h.armed, fun hnot => ?_⟩
  · simp [post, hnone]
  · simp [post, hnone, htype]
  · have hearly := (h.early fun hQ => hnot ⟨hQ, trivial⟩).1
    exact absurd (hearly.symm.trans hconn) Bool.true_eq_false.mp

/-- What every run keeps up to the wait for the free size. -/
theorem Waiting.of_step
    (h : s.client.driver.pc.rank ≤ Pc.waitFreeMem.rank → s.Waiting Q)
    (hstep : s.step op = some t) :
    t.client.driver.pc.rank ≤ Pc.waitFreeMem.rank → t.Waiting (Q ∧ s.ArrivesArmed op) := by
  intro hrank
  have hleave : op = .wake ∨ op = .signal → t.Waiting (Q ∧ True) := by
    intro hop
    obtain ⟨driver, hdriver, rfl⟩ := leaveWait_cases hop hstep
    have hon := Connect.onward_of_leaveWait hdriver
    have hwaiting := h (hon.rank_le hrank)
    have hold := hwaiting.unarmed_of_rank (Nat.lt_of_lt_of_le hon.rank_lt hrank)
    exact hwaiting.of_onward hon (Connect.armed_of_leaveWait hdriver) hold ⟨rfl, rfl, rfl, rfl⟩
      rfl
  cases op with
  | call ret =>
    obtain ⟨driver, hdriver, hcases⟩ := call_cases hstep
    refine (h ?_).of_call hstep hrank
    refine (Connect.onward_of_call hdriver).rank_le ?_
    rcases hcases with ⟨-, -, rfl⟩ | ⟨-, rfl⟩
    · simpa [withDriver] using hrank
    · exact hrank
  | wake => exact hleave (.inl rfl)
  | signal => exact hleave (.inr rfl)
  | cm =>
    obtain ⟨event, handshake, hnext, rfl⟩ := cm_cases hstep
    obtain ⟨-, hstate, hpc, harmed⟩ := state_of_nextEvent s.client.driver hnext
    have hwaiting := h (by simpa [withDriver, hpc] using hrank)
    refine hwaiting.of_client ⟨rfl, rfl, rfl, rfl⟩ rfl (fun hq => hq) (fun _ => hstate) ?_ ?_
    · exact fun hno => ⟨harmed.symm.trans hno, rfl⟩
    · simpa [withDriver, hpc, harmed] using hwaiting.armed
  | handler op =>
    obtain ⟨hof, client, hclient, rfl⟩ := handler_cases hstep
    obtain ⟨hpc, -⟩ := CqHandler.driver_of_step hof hclient
    exact (h (by simpa [hpc] using hrank)).of_handler hof hclient
  | connected msg =>
    obtain ⟨-, hconn, htype, rfl⟩ := connected_cases hstep
    exact (h hrank).of_connected hconn htype
  | receive =>
    obtain ⟨type, rest, server, hqueue, -, rfl, -⟩ := receive_cases hstep
    cases hqueue.symm.trans (h hrank).toServer
  | answer msg =>
    obtain ⟨type, hanswering, -, rfl⟩ := answer_cases hstep
    cases hanswering.symm.trans (h hrank).server.1
  | evict msg =>
    obtain ⟨hmapped, -, -, rfl⟩ := evict_cases hstep
    cases hmapped.symm.trans (h hrank).server.2.1
  | stop msg =>
    obtain ⟨hevicting, -, -, rfl⟩ := stop_cases hstep
    cases hevicting.symm.trans (h hrank).server.2.2
  | deliver =>
    obtain ⟨msg, rest, -, -, rfl⟩ := deliver_cases hstep
    exact (h hrank).of_deliver hstep
  | sendDone =>
    obtain ⟨hsends, rfl⟩ := sendDone_cases hstep
    exact absurd (h hrank).sends (Nat.ne_of_gt hsends)

/-- In every run whose completions are added after the first `ib_req_notify_cq` the message
is not stranded; and while the setup thread waits for it, it is stranded in every other
run. -/
theorem stranded_iff_early (h : run Link.step init ops = some s) :
    (EachStep Link.step ArrivesArmed init ops → ¬ s.Stranded) ∧
      (s.client.driver.pc = .waitFreeMem →
        (s.Stranded ↔ ¬ EachStep Link.step ArrivesArmed init ops)) := by
  have hattended : EachStep Link.step ArrivesArmed init ops → ¬ s.Stranded := by
    intro hearly
    have hs := run_invariant
      (fun (s : Link) _ _ (hs : Attended s.client) hop hstep => hs.of_step hop hstep)
      attended_init hearly h
    exact hs.not_stranded
  refine ⟨hattended, fun hpc => ⟨fun hstranded hearly => hattended hearly hstranded, ?_⟩⟩
  intro hnot
  have hany : EachStep Link.step (fun _ _ => True) init ops :=
    eachStep_of_forall fun _ _ => trivial
  have hwaiting : s.client.driver.pc.rank ≤ Pc.waitFreeMem.rank →
      s.Waiting (True ∧ EachStep Link.step ArrivesArmed init ops) :=
    run_history (J := fun s Q => s.client.driver.pc.rank ≤ Pc.waitFreeMem.rank → s.Waiting Q)
      (fun _ _ _ _ hJ _ hstep => Waiting.of_step hJ hstep) (fun _ => waiting_init) hany h
  obtain ⟨-, -, hquiet, hstate, hqueued⟩ := (hwaiting (by rw [hpc])).early fun hyes => hnot hyes.2
  exact ⟨hpc, hstate, hqueued, hquiet⟩

/-- The message arrives when the setup thread already waits for it. -/
theorem stranded_iff_early_lateMessage :
    let ops := untilConnect ++ [.cm, .wake, .call 0, .connected (freeSizeMessage 1), .deliver]
    ((run Link.step init ops).any fun s => s.client.driver.pc = .waitFreeMem) ∧
      ∀ s ∈ run Link.step init ops, ¬ s.Stranded := by
  refine ⟨by decide, fun s hs => ?_⟩
  exact (stranded_iff_early hs).1 (by decide)

/-- The server hears of the connection first, and its message arrives before the client has
heard of it. -/
theorem free_size_is_stranded :
    let ops := untilConnect ++ [.connected (freeSizeMessage 1), .deliver, .cm, .wake, .call 0]
    ∃ s, run Link.step init ops = some s ∧ s.Stranded := by
  refine ⟨_, rfl, rfl, nofun, ⟨freeSizeMessage 1, rfl, List.mem_cons_self⟩, rfl, rfl⟩

end SystemDev.Octopus.Link
