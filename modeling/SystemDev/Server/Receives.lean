import SystemDev.Server.Threads

/-!
# Every message is read once

Two threads read the messages of a connection, and there is one buffer for them. It is not
overwritten: a receive is posted when the connection is built and then only by the thread that has
read a message, so that at any time the receive is posted, or completed, or in the hands of one
thread, or waiting behind the semaphore of `evict_mem`.

`poll_cq` asks for the next event before it takes completions, so no completion is left in the queue
while the thread waits. When it does wait, a connection has its receive posted unless its last
message is an `ACTIVITY` that no eviction has collected.

Both results are about the server up to the end of a run: until then no client has disconnected,
`ibv_poll_cq` has not failed, and the queue has not run over.

## Main results

* `Threads.messages_read_once` — what arrived at a connection was read once and in order, by
  `evict_mem` the `ACTIVITY` messages and by `handle_cqe` the others, up to the message that is
  still in the buffer
* `Threads.waiting_server_listens` — while the server waits for events, every connection listens or
  is held by an `ACTIVITY`
-/

namespace SystemDev.Server

open SystemDev.Library SystemDev.Rdma

variable {n : ℕ}

/-! ### Who holds the receive of a connection -/

/-- The receive of `c` is in the hands of `poll_cq`. -/
def PollPc.holds (c : ℕ) : PollPc → ℕ
  | .handle d | .answer d | .postReceives d => if d = c then 1 else 0
  | _ => 0

/-- `poll_cq` holds a message of `c` that it has not read. -/
def PollPc.unread (c : ℕ) : PollPc → ℕ
  | .handle d => if d = c then 1 else 0
  | _ => 0

/-- The receive of `c` is in the hands of `evict_mem`. -/
def EvictPc.holds (c : ℕ) : EvictPc → ℕ
  | .collect d _ _ | .postReceives d _ _ => if d = c then 1 else 0
  | _ => 0

/-- `evict_mem` holds a message of `c` that it has not read. -/
def EvictPc.unread (c : ℕ) : EvictPc → ℕ
  | .collect d _ _ => if d = c then 1 else 0
  | _ => 0

/-- A completed receive of `c`. -/
def Cqe.receiveOf (c : ℕ) (wc : Cqe) : Bool := wc.recv && wc.conn == c

/-- A completed receive of `c` that brought a message. -/
def Cqe.messageOf (c : ℕ) (wc : Cqe) : Bool := wc.success && wc.receiveOf c

/-- How many receives of a connection are neither posted nor behind the semaphore, how many of them
hold a message that was not read, and how many of those are in the hands of `evict_mem`. -/
structure Holders where
  held : ℕ
  unread : ℕ
  collecting : ℕ

/-- The holders of the receive of `c`. -/
def holders (q : NotifyQueue Cqe) (poller : PollPc) (monitor : EvictPc) (c : ℕ) : Holders where
  held := q.entries.countP (Cqe.receiveOf c) + poller.holds c + monitor.holds c
  unread := q.entries.countP (Cqe.messageOf c) + poller.unread c + monitor.unread c
  collecting := monitor.unread c

section Holders

variable {q : NotifyQueue Cqe} {poller : PollPc} {monitor : EvictPc} {c d : ℕ}

@[simp] theorem holders_arm : holders q.arm poller monitor c = holders q poller monitor c := rfl

@[simp] theorem holders_start : holders q.start poller monitor c = holders q poller monitor c := rfl

/-- A completed send is no receive. -/
@[simp] theorem holders_add_send {success : Bool} :
    holders (q.add ⟨d, success, false⟩) poller monitor c = holders q poller monitor c := by
  simp [holders, Cqe.messageOf, Cqe.receiveOf, List.countP_append]

theorem holders_add_other {wc : Cqe} (h : c ≠ wc.conn) :
    holders (q.add wc) poller monitor c = holders q poller monitor c := by
  simp [holders, Cqe.messageOf, Cqe.receiveOf, List.countP_append, h.symm]

theorem holders_add_message :
    holders (q.add ⟨c, true, true⟩) poller monitor c =
      { holders q poller monitor c with
        held := (holders q poller monitor c).held + 1
        unread := (holders q poller monitor c).unread + 1 } := by
  simp [holders, Cqe.messageOf, Cqe.receiveOf, List.countP_append, Nat.add_right_comm]

theorem holders_add_flushed :
    holders (q.add ⟨c, false, true⟩) poller monitor c =
      { holders q poller monitor c with held := (holders q poller monitor c).held + 1 } := by
  simp [holders, Cqe.messageOf, Cqe.receiveOf, List.countP_append, Nat.add_right_comm]

/-- A completion goes from the queue into the hands of `poll_cq`. -/
theorem holders_take {wc : Cqe} {rest : List Cqe} (hq : q.entries = wc :: rest)
    (hsuccess : wc.success = true)
    (hpoller : poller = if wc.recv then .handle wc.conn else .pollCq) :
    holders q.drop poller monitor c = holders q .pollCq monitor c := by
  subst hpoller
  obtain ⟨d, success, recv⟩ := wc
  subst hsuccess
  cases recv with
  | false => simp [holders, hq, Cqe.messageOf, Cqe.receiveOf]
  | true =>
    by_cases hd : d = c
    · simp [holders, hq, Cqe.messageOf, Cqe.receiveOf, PollPc.holds, PollPc.unread, hd]
    · simp [holders, hq, Cqe.messageOf, Cqe.receiveOf, PollPc.holds, PollPc.unread, hd]

/-- `poll_cq` holds the receive of `c`, or none. -/
def PollPc.On (c : ℕ) : PollPc → Prop
  | .handle d | .answer d | .postReceives d => d = c
  | _ => True

/-- `evict_mem` holds the receive of `c`, or none. -/
def EvictPc.On (c : ℕ) : EvictPc → Prop
  | .collect d _ _ | .postReceives d _ _ => d = c
  | _ => True

theorem PollPc.On.holds_eq_zero (h : poller.On c) (hd : d ≠ c) :
    poller.holds d = 0 ∧ poller.unread d = 0 := by
  cases poller with
  | handle | answer | postReceives =>
    obtain rfl := h
    simp [PollPc.holds, PollPc.unread, hd.symm]
  | getEvent | reqNotify | pollCq => exact ⟨rfl, rfl⟩

theorem EvictPc.On.holds_eq_zero (h : monitor.On c) (hd : d ≠ c) :
    monitor.holds d = 0 ∧ monitor.unread d = 0 := by
  cases monitor with
  | collect | postReceives =>
    obtain rfl := h
    simp [EvictPc.holds, EvictPc.unread, hd.symm]
  | idle | sendEvict | waitEvict | sendStop | waitStop => exact ⟨rfl, rfl⟩

/-- What `poll_cq` does with the receive of `c` does not move that of `d`. -/
theorem holders_poller_other {poller' : PollPc} (h : poller.On c) (h' : poller'.On c)
    (hd : d ≠ c) : holders q poller' monitor d = holders q poller monitor d := by
  simp only [holders, h.holds_eq_zero hd, h'.holds_eq_zero hd]

/-- What `evict_mem` does with the receive of `c` does not move that of `d`. -/
theorem holders_monitor_other {monitor' : EvictPc} (h : monitor.On c) (h' : monitor'.On c)
    (hd : d ≠ c) : holders q poller monitor' d = holders q poller monitor d := by
  simp only [holders, h.holds_eq_zero hd, h'.holds_eq_zero hd]

/-- `poll_cq` has an unread message besides what `evict_mem` holds. -/
theorem holders_handle_unread :
    (holders q (.handle c) monitor c).collecting < (holders q (.handle c) monitor c).unread := by
  simp only [holders, PollPc.unread, if_pos]
  omega

/-- Between reading a message and posting the receive, `poll_cq` holds the buffer only. -/
theorem holders_served :
    holders q (.postReceives c) monitor c =
      { holders q (.handle c) monitor c with
        unread := (holders q (.handle c) monitor c).unread - 1 } := by
  simp [holders, PollPc.holds, PollPc.unread]

/-- `poll_cq` has given the message away. -/
theorem holders_raised :
    holders q .pollCq monitor c =
      { holders q (.handle c) monitor c with
        held := (holders q (.handle c) monitor c).held - 1
        unread := (holders q (.handle c) monitor c).unread - 1 } := by
  simp [holders, PollPc.holds, PollPc.unread]

theorem holders_reposted :
    holders q .pollCq monitor c =
      { holders q (.postReceives c) monitor c with
        held := (holders q (.postReceives c) monitor c).held - 1 } := by
  simp [holders, PollPc.holds, PollPc.unread]

/-- `evict_mem` has taken a message over. -/
theorem holders_lowered {todo conns : List ℕ} :
    holders q poller (.collect c todo conns) c =
      { held := (holders q poller (.waitEvict (c :: todo) conns) c).held + 1
        unread := (holders q poller (.waitEvict (c :: todo) conns) c).unread + 1
        collecting := (holders q poller (.waitEvict (c :: todo) conns) c).collecting + 1 } := by
  simp [holders, EvictPc.holds, EvictPc.unread]

theorem holders_collecting_pos {todo conns : List ℕ} :
    0 < (holders q poller (.collect c todo conns) c).collecting := by
  simp [holders, EvictPc.unread]

theorem holders_collected {todo conns : List ℕ} :
    holders q poller (.postReceives c todo conns) c =
      { holders q poller (.collect c todo conns) c with
        unread := (holders q poller (.collect c todo conns) c).unread - 1
        collecting := (holders q poller (.collect c todo conns) c).collecting - 1 } := by
  simp [holders, EvictPc.holds, EvictPc.unread]

theorem holders_repostedCollected {todo conns : List ℕ} :
    holders q poller (.waitEvict todo conns) c =
      { holders q poller (.postReceives c todo conns) c with
        held := (holders q poller (.postReceives c todo conns) c).held - 1 } := by
  simp [holders, EvictPc.holds, EvictPc.unread]

theorem EvictPc.unread_le_holds (monitor : EvictPc) (c : ℕ) :
    monitor.unread c ≤ monitor.holds c := by
  cases monitor <;> simp [EvictPc.unread, EvictPc.holds]

theorem PollPc.unread_le_holds (poller : PollPc) (c : ℕ) : poller.unread c ≤ poller.holds c := by
  cases poller <;> simp [PollPc.unread, PollPc.holds]

theorem countP_messageOf_le (c : ℕ) (l : List Cqe) :
    l.countP (Cqe.messageOf c) ≤ l.countP (Cqe.receiveOf c) := by
  refine List.countP_mono_left fun wc _ hwc => ?_
  rw [Cqe.messageOf, Bool.and_eq_true] at hwc
  exact hwc.2

/-- A thread that is about to post the receive has read its message. -/
theorem holders_repost_unread :
    (holders q (.postReceives c) monitor c).unread <
      (holders q (.postReceives c) monitor c).held := by
  have hq := countP_messageOf_le c q.entries
  have hmonitor := EvictPc.unread_le_holds monitor c
  simp only [holders, PollPc.unread, PollPc.holds, if_pos]
  omega

theorem holders_repostCollected_unread {todo conns : List ℕ} :
    (holders q poller (.postReceives c todo conns) c).unread <
      (holders q poller (.postReceives c todo conns) c).held := by
  have hq := countP_messageOf_le c q.entries
  have hpoller := PollPc.unread_le_holds poller c
  simp only [holders, EvictPc.unread, EvictPc.holds, if_pos]
  omega

end Holders

/-- What holds of a connection. There is one receive, and at most one message that was not read. -/
structure ConnInv (k : ConnQueues n) (h : Holders) : Prop where
  unread_le : h.unread ≤ h.held
  collecting_le : h.collecting ≤ h.unread
  token : k.posted + k.evictSem + h.held = k.built.toNat
  record : k.arrived = k.read.map Prod.snd ++ List.replicate (k.evictSem + h.unread) k.recvMsg
  activity : 0 < k.evictSem + h.collecting → k.recvMsg.type = .activity
  readers : ∀ p ∈ k.read, p.1 = .evictMem ↔ p.2.type = .activity

namespace ConnInv

variable {k : ConnQueues n} {h : Holders}

theorem token_le (inv : ConnInv k h) : k.posted + k.evictSem + h.held ≤ 1 := by
  rw [inv.token]
  cases k.built <;> decide

/-- `build_connection`. -/
theorem build (inv : ConnInv k h) (hnew : k.built = false) :
    ConnInv { k with built := true, posted := k.posted + 1 } h where
  unread_le := inv.unread_le
  collecting_le := inv.collecting_le
  token := by
    have htoken := inv.token
    rw [hnew, Bool.toNat_false] at htoken
    dsimp only
    rw [Bool.toNat_true]
    omega
  record := inv.record
  activity := inv.activity
  readers := inv.readers

/-- A thread posts the receive. -/
theorem post (inv : ConnInv k h) (hheld : h.unread < h.held) :
    ConnInv { k with posted := k.posted + 1 } { h with held := h.held - 1 } where
  unread_le := by
    dsimp only
    omega
  collecting_le := inv.collecting_le
  token := by
    -- from the thread to the adapter
    have htoken := inv.token
    dsimp only
    omega
  record := inv.record
  activity := inv.activity
  readers := inv.readers

/-- A message arrives in the buffer that was posted. -/
theorem arrive (inv : ConnInv k h) (hposted : k.posted ≠ 0) (msg : Message n) :
    ConnInv
      { k with posted := k.posted - 1, recvMsg := msg, arrived := k.arrived ++ [msg] }
      { h with held := h.held + 1, unread := h.unread + 1 } := by
  have htoken := inv.token_le
  have hunread := inv.unread_le
  have hcollecting := inv.collecting_le
  -- the buffer is with the adapter, so that every earlier message was read
  have hnone : k.evictSem + h.unread = 0 := by omega
  have hrecord := inv.record
  rw [hnone, List.replicate_zero, List.append_nil] at hrecord
  have hone : k.evictSem + (h.unread + 1) = 1 := by omega
  exact
    { unread_le := Nat.succ_le_succ hunread
      collecting_le := Nat.le_succ_of_le hcollecting
      token := by
        have htoken := inv.token
        dsimp only
        omega
      record := by
        dsimp only
        rw [hone, List.replicate_one, hrecord]
      activity := by
        dsimp only
        omega
      readers := inv.readers }

/-- A receive completes without a message. -/
theorem flush (inv : ConnInv k h) (hposted : k.posted ≠ 0) :
    ConnInv { k with posted := k.posted - 1 } { h with held := h.held + 1 } where
  unread_le := Nat.le_succ_of_le inv.unread_le
  collecting_le := inv.collecting_le
  token := by
    -- from the adapter to the thread, with nothing to read
    have htoken := inv.token
    dsimp only
    omega
  record := inv.record
  activity := inv.activity
  readers := inv.readers

/-- A thread reads the message; `collecting` is what `evict_mem` holds afterwards. -/
theorem readBy (inv : ConnInv k h) {r : Reader} {collecting : ℕ} (hunread : 0 < h.unread)
    (hreader : r = .evictMem ↔ k.recvMsg.type = .activity) (hlast : collecting ≤ h.unread - 1) :
    ConnInv { k with read := k.read ++ [(r, k.recvMsg)] }
      { h with unread := h.unread - 1, collecting := collecting } := by
  have htoken := inv.token_le
  have hunread_le := inv.unread_le
  have hrecord := inv.record
  -- it was the only one
  have hone : k.evictSem + h.unread = 1 := by omega
  have hnone : k.evictSem + (h.unread - 1) = 0 := by omega
  rw [hone, List.replicate_one] at hrecord
  exact
    { unread_le := by
        dsimp only
        omega
      collecting_le := hlast
      token := inv.token
      record := by
        dsimp only
        rw [hnone, List.replicate_zero, List.append_nil, List.map_append, hrecord]
        rfl
      activity := by
        dsimp only
        omega
      readers := by
        intro p hp
        rcases List.mem_append.mp hp with hold | hnew
        · exact inv.readers p hold
        · rw [List.mem_singleton.mp hnew]
          exact hreader }

/-- `handle_cqe` leaves an `ACTIVITY` message to `evict_mem`. -/
theorem raise (inv : ConnInv k h) (hunread : h.collecting < h.unread)
    (htype : k.recvMsg.type = .activity) :
    ConnInv { k with evictSem := k.evictSem + 1 }
      { h with held := h.held - 1, unread := h.unread - 1 } where
  unread_le := Nat.sub_le_sub_right inv.unread_le 1
  collecting_le := by
    dsimp only
    omega
  token := by
    -- from `poll_cq` to the semaphore
    have htoken := inv.token
    have hle := inv.unread_le
    dsimp only
    omega
  record := by
    have hsame : k.evictSem + 1 + (h.unread - 1) = k.evictSem + h.unread := by omega
    dsimp only
    rw [hsame]
    exact inv.record
  activity := fun _ => htype
  readers := inv.readers

/-- `evict_mem` takes a message over from the semaphore. -/
theorem lower (inv : ConnInv k h) (hsem : k.evictSem ≠ 0) :
    ConnInv { k with evictSem := k.evictSem - 1 }
      { held := h.held + 1, unread := h.unread + 1, collecting := h.collecting + 1 } where
  unread_le := Nat.succ_le_succ inv.unread_le
  collecting_le := Nat.succ_le_succ inv.collecting_le
  token := by
    -- from the semaphore to `evict_mem`
    have htoken := inv.token
    dsimp only
    omega
  record := by
    have hsame : k.evictSem - 1 + (h.unread + 1) = k.evictSem + h.unread := by omega
    dsimp only
    rw [hsame]
    exact inv.record
  activity := fun _ => inv.activity (by omega)
  readers := inv.readers

/-- The other fields do not matter. -/
theorem congr (inv : ConnInv k h) (connected : Bool) (sends stopSem : ℕ) :
    ConnInv { k with connected := connected, sends := sends, stopSem := stopSem } h :=
  ⟨inv.unread_le, inv.collecting_le, inv.token, inv.record, inv.activity, inv.readers⟩

end ConnInv

/-- What `poll_cq` relies on where it stands: nothing is left in the queue without an event to come,
and from `ibv_req_notify_cq` on the next completion raises one. -/
def PollPc.Watches (q : NotifyQueue Cqe) : PollPc → Prop
  | .getEvent => q.Settled
  | .reqNotify => True
  | _ => q.Heard

namespace Threads

variable {s t : Threads n} {c : ℕ} {ok : Bool}

/-- What holds in every state. -/
structure Inv (s : Threads n) : Prop where
  conns : ∀ c, ConnInv (s.conn c) (holders s.cq s.poller s.monitor c)
  queue : s.poller.Watches s.cq

theorem inv_init (mem : ℕ → Message n) : Inv (init mem) where
  conns c :=
    { unread_le := by simp [init, holders, NotifyQueue.empty, PollPc.unread, EvictPc.unread]
      collecting_le := by simp [init, holders, EvictPc.unread]
      token := by simp [init, holders, NotifyQueue.empty, PollPc.holds, EvictPc.holds]
      record := by simp [init, holders, NotifyQueue.empty, PollPc.unread, EvictPc.unread]
      activity := by simp [init, holders, EvictPc.unread]
      readers := by simp [init] }
  queue := NotifyQueue.settled_arm_empty

theorem Inv.stop (h : Inv s) (ending : Ending) : Inv (s.stop ending) := ⟨h.conns, h.queue⟩

theorem Inv.die (h : Inv s) : Inv s.die := h.stop .died

/-- One connection is written, and the receives of the others stay where they are. -/
theorem conns_update {f : ℕ → ConnQueues n} {H H' : ℕ → Holders} {k : ConnQueues n}
    (h : ∀ c, ConnInv (f c) (H c)) (hother : ∀ d, d ≠ c → H' d = H d) (hc : ConnInv k (H' c)) :
    ∀ d, ConnInv (Function.update f c k d) (H' d) := by
  intro d
  by_cases hd : d = c
  · subst hd
    rw [Function.update_self]
    exact hc
  · rw [Function.update_of_ne hd, hother d hd]
    exact h d

theorem Watches.add {q : NotifyQueue Cqe} {pc : PollPc} (h : pc.Watches q) (wc : Cqe) :
    pc.Watches (q.add wc) := by
  cases pc with
  | getEvent => exact NotifyQueue.Settled.add h
  | reqNotify => trivial
  | pollCq | handle | answer | postReceives => exact NotifyQueue.Heard.add h

/-! ### The main thread and the adapter -/

theorem Inv.buildConnection (h : Inv s) (ht : s.buildConnection c ok = some t) : Inv t := by
  rw [Threads.buildConnection] at ht
  split_ifs at ht with hbuilt hok
  · rw [Threads.postReceives, putConn_conn_self, putConn_putConn] at ht
    obtain rfl := Option.some_inj.mp ht
    have hnew : (s.conn c).built = false := by simpa using hbuilt
    exact ⟨conns_update h.conns (fun _ _ => rfl) ((h.conns c).build hnew), h.queue⟩
  · obtain rfl := Option.some_inj.mp ht
    exact h.die

/-- A message is sent from a state that holds the receives as before. -/
theorem Inv.sendMessage (h : Inv s) (ht : s.sendMessage c ok = some t) : Inv t := by
  rw [Threads.sendMessage] at ht
  split_ifs at ht with hconnected hok
  · obtain rfl := Option.some_inj.mp ht
    exact ⟨conns_update h.conns (fun _ _ => rfl) ((h.conns c).congr _ _ _), h.queue⟩
  · obtain rfl := Option.some_inj.mp ht
    exact h.die

theorem Inv.rdmaConnected (h : Inv s) (ht : s.rdmaConnected c ok = some t) : Inv t := by
  rw [Threads.rdmaConnected] at ht
  split_ifs at ht with hbuilt
  have hconnected : Inv (s.putConn c { s.conn c with connected := true }) :=
    ⟨conns_update h.conns (fun _ _ => rfl) ((h.conns c).congr _ _ _), h.queue⟩
  exact hconnected.sendMessage ht

theorem Inv.disconnect (h : Inv s) (ht : s.disconnect c = some t) : Inv t := by
  rw [Threads.disconnect] at ht
  split_ifs at ht
  obtain rfl := Option.some_inj.mp ht
  exact h.stop _

/-- A completion is added, or the run ends. -/
theorem Inv.complete (h : Inv s) {wc : Cqe} {k : ConnQueues n}
    (hk : ConnInv k (holders (s.cq.add wc) s.poller s.monitor wc.conn)) :
    Inv (s.complete wc k) := by
  rw [Threads.complete]
  split_ifs
  · exact ⟨conns_update h.conns (fun d hd => holders_add_other hd) hk, Watches.add h.queue _⟩
  · exact h.stop _

theorem Inv.arrive (h : Inv s) {msg : Message n} (ht : s.arrive c msg = some t) : Inv t := by
  rw [Threads.arrive] at ht
  split_ifs at ht with hposted
  obtain rfl := Option.some_inj.mp ht
  refine h.complete ?_
  rw [holders_add_message]
  exact (h.conns c).arrive hposted msg

theorem Inv.sent (h : Inv s) {success : Bool} (ht : s.sent c success = some t) : Inv t := by
  rw [Threads.sent] at ht
  split_ifs at ht with hsends
  obtain rfl := Option.some_inj.mp ht
  refine h.complete ?_
  rw [holders_add_send]
  exact (h.conns c).congr _ _ _

theorem Inv.flush (h : Inv s) (ht : s.flush c = some t) : Inv t := by
  rw [Threads.flush] at ht
  split_ifs at ht with hposted
  obtain rfl := Option.some_inj.mp ht
  refine h.complete ?_
  rw [holders_add_flushed]
  exact (h.conns c).flush hposted

/-! ### `poll_cq` -/

theorem Inv.getEvent (h : Inv s) (ht : s.getEvent = some t) : Inv t := by
  rw [Threads.getEvent] at ht
  split at ht
  case h_1 hpc =>
    split_ifs at ht
    obtain rfl := Option.some_inj.mp ht
    have hconns := h.conns
    rw [hpc] at hconns
    exact ⟨hconns, trivial⟩
  case h_2 => cases ht

theorem Inv.reqNotify (h : Inv s) (ht : s.reqNotify ok = some t) : Inv t := by
  rw [Threads.reqNotify] at ht
  split at ht
  case h_1 hpc =>
    split_ifs at ht
    · obtain rfl := Option.some_inj.mp ht
      have hconns := h.conns
      rw [hpc] at hconns
      exact ⟨hconns, NotifyQueue.heard_arm⟩
    · obtain rfl := Option.some_inj.mp ht
      exact h.die
  case h_2 => cases ht

theorem Inv.pollCq (h : Inv s) (ht : s.pollCq = some t) : Inv t := by
  rw [Threads.pollCq] at ht
  split at ht
  case h_1 hpc =>
    have hconns := h.conns
    have hheard := h.queue
    rw [hpc] at hconns hheard
    split at ht
    case h_1 hempty =>
      obtain rfl := Option.some_inj.mp ht
      exact ⟨hconns, NotifyQueue.Heard.settled hheard hempty⟩
    case h_2 wc rest hentries =>
      by_cases hsuccess : wc.success = true
      · rw [if_neg (not_not.mpr hsuccess)] at ht
        obtain rfl := Option.some_inj.mp ht
        refine ⟨fun c => ?_, ?_⟩
        · dsimp only
          rw [holders_take hentries hsuccess rfl]
          exact hconns c
        · cases wc.recv <;> exact NotifyQueue.Heard.drop hheard
      · rw [if_pos hsuccess] at ht
        obtain rfl := Option.some_inj.mp ht
        exact h.die
  case h_2 => cases ht

theorem Inv.pollError (h : Inv s) (ht : s.pollError = some t) : Inv t := by
  rw [Threads.pollError] at ht
  split at ht
  case h_1 =>
    obtain rfl := Option.some_inj.mp ht
    exact h.stop _
  case h_2 => cases ht

theorem Inv.handle (h : Inv s) (ht : s.handle = some t) : Inv t := by
  rw [Threads.handle] at ht
  split at ht
  case h_1 c hpc =>
    have hconns := h.conns
    have hheard := h.queue
    rw [hpc] at hconns hheard
    have hother {poller' : PollPc} (hon : poller'.On c) (d : ℕ) (hd : d ≠ c) :
        holders s.cq poller' s.monitor d = holders s.cq (.handle c) s.monitor d :=
      holders_poller_other rfl hon hd
    -- what is read here is no `ACTIVITY` message
    have hread (htype : (s.conn c).recvMsg.type ≠ .activity) :=
      (hconns c).readBy (r := .handleCqe) (Nat.zero_lt_of_lt holders_handle_unread)
        (iff_of_false (by decide) htype) (Nat.le_sub_one_of_lt holders_handle_unread)
    rw [← holders_served] at hread
    dsimp only at ht
    split at ht
    case h_4 htype =>
      obtain rfl := Option.some_inj.mp ht
      refine ⟨conns_update hconns (hother trivial) ?_, hheard⟩
      rw [holders_raised]
      exact (hconns c).raise holders_handle_unread htype
    case h_5 htype =>
      obtain rfl := Option.some_inj.mp ht
      have hdone := hread (by simp [htype])
      exact ⟨conns_update hconns (hother rfl) (hdone.congr _ _ _), hheard⟩
    case h_6 =>
      obtain rfl := Option.some_inj.mp ht
      exact h.die
    all_goals
      rename_i htype
      obtain rfl := Option.some_inj.mp ht
      exact ⟨conns_update hconns (hother rfl) (hread (by simp [htype])), hheard⟩
  case h_2 => cases ht

theorem Inv.answer (h : Inv s) (ht : s.answer ok = some t) : Inv t := by
  rw [Threads.answer] at ht
  split at ht
  case h_1 c hpc =>
    have hconns := h.conns
    have hheard := h.queue
    rw [hpc] at hconns hheard
    have hmoved : Inv { s with poller := .postReceives c } := ⟨hconns, hheard⟩
    exact hmoved.sendMessage ht
  case h_2 => cases ht

theorem Inv.repost (h : Inv s) (ht : s.repost ok = some t) : Inv t := by
  rw [Threads.repost] at ht
  split at ht
  case h_1 c hpc =>
    have hconns := h.conns
    have hheard := h.queue
    rw [hpc] at hconns hheard
    split_ifs at ht
    · obtain rfl := Option.some_inj.mp ht
      have hpost := (hconns c).post holders_repost_unread
      rw [← holders_reposted] at hpost
      exact ⟨conns_update hconns (fun d => holders_poller_other rfl trivial) hpost, hheard⟩
    · obtain rfl := Option.some_inj.mp ht
      exact h.die
  case h_2 => cases ht

/-! ### `evict_mem` -/

/-- `evict_mem` goes on and holds what it held. -/
theorem Inv.goOn (h : Inv s) {monitor' : EvictPc}
    (hholds : ∀ c, monitor'.holds c = s.monitor.holds c)
    (hunread : ∀ c, monitor'.unread c = s.monitor.unread c) :
    Inv { s with monitor := monitor' } where
  conns c := by
    have hsame : holders s.cq s.poller monitor' c = holders s.cq s.poller s.monitor c := by
      simp only [holders, hholds, hunread]
    dsimp only
    rw [hsame]
    exact h.conns c
  queue := h.queue

theorem Inv.evict (h : Inv s) {conns : List ℕ} (ht : s.evict conns = some t) : Inv t := by
  rw [Threads.evict] at ht
  split at ht
  case h_1 hpc =>
    split_ifs at ht
    obtain rfl := Option.some_inj.mp ht
    exact h.goOn (by simp [hpc, EvictPc.holds]) (by simp [hpc, EvictPc.unread])
  case h_2 => cases ht

theorem Inv.sendEvict (h : Inv s) (ht : s.sendEvict ok = some t) : Inv t := by
  rw [Threads.sendEvict] at ht
  split at ht
  case h_1 c todo conns hpc =>
    have hmoved : Inv { s with monitor := .sendEvict todo conns } :=
      h.goOn (by simp [hpc, EvictPc.holds]) (by simp [hpc, EvictPc.unread])
    exact hmoved.sendMessage ht
  case h_2 conns hpc =>
    obtain rfl := Option.some_inj.mp ht
    exact h.goOn (by simp [hpc, EvictPc.holds]) (by simp [hpc, EvictPc.unread])
  case h_3 => cases ht

theorem Inv.waitEvict (h : Inv s) (ht : s.waitEvict = some t) : Inv t := by
  rw [Threads.waitEvict] at ht
  split at ht
  case h_1 c todo conns hpc =>
    have hconns := h.conns
    rw [hpc] at hconns
    dsimp only at ht
    split_ifs at ht with hsem
    obtain rfl := Option.some_inj.mp ht
    have hlower := (hconns c).lower hsem
    rw [← holders_lowered] at hlower
    exact ⟨conns_update hconns (fun d => holders_monitor_other trivial rfl) hlower, h.queue⟩
  case h_2 conns hpc =>
    obtain rfl := Option.some_inj.mp ht
    exact h.goOn (by simp [hpc, EvictPc.holds]) (by simp [hpc, EvictPc.unread])
  case h_3 => cases ht

theorem Inv.collect (h : Inv s) (ht : s.collect = some t) : Inv t := by
  rw [Threads.collect] at ht
  split at ht
  case h_1 c todo conns hpc =>
    have hconns := h.conns
    rw [hpc] at hconns
    obtain rfl := Option.some_inj.mp ht
    have hactivity := (hconns c).activity (Nat.add_pos_right _ holders_collecting_pos)
    have hread := (hconns c).readBy (r := .evictMem)
      (Nat.lt_of_lt_of_le holders_collecting_pos (hconns c).collecting_le)
      (iff_of_true rfl hactivity) (Nat.sub_le_sub_right (hconns c).collecting_le 1)
    rw [← holders_collected] at hread
    exact ⟨conns_update hconns (fun d => holders_monitor_other rfl rfl) hread, h.queue⟩
  case h_2 => cases ht

theorem Inv.repostCollected (h : Inv s) (ht : s.repostCollected ok = some t) : Inv t := by
  rw [Threads.repostCollected] at ht
  split at ht
  case h_1 c todo conns hpc =>
    have hconns := h.conns
    rw [hpc] at hconns
    split_ifs at ht
    · obtain rfl := Option.some_inj.mp ht
      have hpost := (hconns c).post holders_repostCollected_unread
      rw [← holders_repostedCollected] at hpost
      exact ⟨conns_update hconns (fun d => holders_monitor_other rfl trivial) hpost, h.queue⟩
    · obtain rfl := Option.some_inj.mp ht
      exact h.die
  case h_2 => cases ht

theorem Inv.sendStop (h : Inv s) {count : ℤ} (ht : s.sendStop count ok = some t) : Inv t := by
  rw [Threads.sendStop] at ht
  split at ht
  case h_1 c todo hpc =>
    refine Inv.sendMessage (h.goOn ?_ ?_) ht
    · split_ifs <;> simp [hpc, EvictPc.holds]
    · split_ifs <;> simp [hpc, EvictPc.unread]
  case h_2 hpc =>
    obtain rfl := Option.some_inj.mp ht
    exact h.goOn (by simp [hpc, EvictPc.holds]) (by simp [hpc, EvictPc.unread])
  case h_3 => cases ht

theorem Inv.waitStop (h : Inv s) (ht : s.waitStop = some t) : Inv t := by
  rw [Threads.waitStop] at ht
  split at ht
  case h_1 c todo hpc =>
    have hconns := h.conns
    rw [hpc] at hconns
    dsimp only at ht
    split_ifs at ht
    obtain rfl := Option.some_inj.mp ht
    exact ⟨conns_update hconns (fun d => holders_monitor_other trivial trivial)
      ((hconns c).congr _ _ _), h.queue⟩
  case h_2 => cases ht

/-! ### Every run -/

theorem inv_step (h : Inv s) {a : Act n} (ht : step s a = some t) : Inv t := by
  rw [step.eq_def] at ht
  split_ifs at ht
  cases a with
  | buildConnection => exact h.buildConnection ht
  | rdmaConnected => exact h.rdmaConnected ht
  | disconnect => exact h.disconnect ht
  | arrive => exact h.arrive ht
  | sent => exact h.sent ht
  | flush => exact h.flush ht
  | getEvent => exact h.getEvent ht
  | reqNotify => exact h.reqNotify ht
  | pollCq => exact h.pollCq ht
  | pollError => exact h.pollError ht
  | handle => exact h.handle ht
  | answer => exact h.answer ht
  | repost => exact h.repost ht
  | evict => exact h.evict ht
  | sendEvict => exact h.sendEvict ht
  | waitEvict => exact h.waitEvict ht
  | collect => exact h.collect ht
  | repostCollected => exact h.repostCollected ht
  | sendStop => exact h.sendStop ht
  | waitStop => exact h.waitStop ht

theorem inv_run {mem : ℕ → Message n} {acts : List (Act n)}
    (h : run step (init mem) acts = some t) : Inv t :=
  run_keeps (fun _ _ _ hs hstep => inv_step hs hstep) (inv_init mem) h

/-- There is a message of `c` that was not read: its completion is in the queue, a thread has taken
it and not read it, or it waits behind the semaphore. -/
def Unread (s : Threads n) (c : ℕ) : Prop :=
  (∃ wc ∈ s.cq.entries, wc.messageOf c = true) ∨ 0 < s.poller.unread c ∨ 0 < s.monitor.unread c ∨
    0 < (s.conn c).evictSem

instance (s : Threads n) (c : ℕ) : Decidable (s.Unread c) :=
  inferInstanceAs (Decidable (_ ∨ _))

theorem unread_iff (s : Threads n) (c : ℕ) :
    s.Unread c ↔ 0 < (s.conn c).evictSem + (holders s.cq s.poller s.monitor c).unread := by
  rw [Unread, ← List.countP_pos_iff]
  simp only [holders]
  omega

/-- The message that was not read. -/
def inBuffer (s : Threads n) (c : ℕ) : List (Message n) :=
  if s.Unread c then [(s.conn c).recvMsg] else []

theorem Inv.replicate_eq (h : Inv s) (c : ℕ) :
    List.replicate ((s.conn c).evictSem + (holders s.cq s.poller s.monitor c).unread)
      (s.conn c).recvMsg = s.inBuffer c := by
  have htoken := (h.conns c).token_le
  have hle := (h.conns c).unread_le
  rw [inBuffer]
  split_ifs with hunread
  · have hone : (s.conn c).evictSem + (holders s.cq s.poller s.monitor c).unread = 1 := by
      have hpos := (unread_iff s c).mp hunread
      omega
    rw [hone, List.replicate_one]
  · rw [Nat.eq_zero_of_not_pos (mt (unread_iff s c).mpr hunread), List.replicate_zero]

/-- In every interleaving of the threads and the adapter, up to its end, and whatever the clients
send: what arrived at a connection was read once and in the order of arrival, up to one message that
is still in the buffer; `evict_mem` read the `ACTIVITY` messages and `handle_cqe` the
others; and the buffer is with the adapter only when nothing in it is unread. -/
theorem messages_read_once {mem : ℕ → Message n} {acts : List (Act n)}
    (h : run step (init mem) acts = some t) (c : ℕ) :
    (t.conn c).arrived = (t.conn c).read.map Prod.snd ++ t.inBuffer c ∧
      (∀ p ∈ (t.conn c).read, p.1 = .evictMem ↔ p.2.type = .activity) ∧
      (0 < (t.conn c).posted → t.inBuffer c = []) := by
  have hinv := inv_run h
  refine ⟨?_, (hinv.conns c).readers, fun hposted => ?_⟩
  · rw [← hinv.replicate_eq]
    exact (hinv.conns c).record
  · have htoken := (hinv.conns c).token_le
    have hle := (hinv.conns c).unread_le
    rw [inBuffer, if_neg]
    intro hunread
    have hpos := (unread_iff t c).mp hunread
    omega

/-- While `poll_cq` waits and no event is to come, up to the end of a run, the queue is empty and
armed. Each connection then has one receive posted and all its messages read, or its last message
is an `ACTIVITY` and nothing more can arrive before `evict_mem` has collected it. -/
theorem waiting_server_listens {mem : ℕ → Message n} {acts : List (Act n)}
    (h : run step (init mem) acts = some t) (hpoller : t.poller = .getEvent)
    (hevent : t.cq.pending = 0) :
    t.cq.entries = [] ∧ t.cq.armed = true ∧
      ∀ c, (t.conn c).built = true → t.monitor.holds c = 0 →
        ((t.conn c).posted = 1 ∧ (t.conn c).arrived = (t.conn c).read.map Prod.snd) ∨
        ((t.conn c).posted = 0 ∧ (t.conn c).evictSem = 1 ∧ (t.conn c).recvMsg.type = .activity ∧
          (t.conn c).arrived = (t.conn c).read.map Prod.snd ++ [(t.conn c).recvMsg]) := by
  have hinv := inv_run h
  have hsettled := hinv.queue
  rw [hpoller] at hsettled
  obtain ⟨hempty, harmed⟩ := hsettled hevent
  refine ⟨hempty, harmed, fun c hbuilt hmonitor => ?_⟩
  have hconn := hinv.conns c
  -- nobody holds the receive, so it is posted or behind the semaphore
  have hheld : (holders t.cq t.poller t.monitor c).held = 0 := by
    simp [holders, hempty, hpoller, hmonitor, PollPc.holds]
  have hunread : (holders t.cq t.poller t.monitor c).unread = 0 :=
    Nat.eq_zero_of_le_zero (hheld ▸ hconn.unread_le)
  have htoken := hconn.token
  have hrecord := hconn.record
  rw [hbuilt, Bool.toNat_true, hheld, Nat.add_zero] at htoken
  rw [hunread, Nat.add_zero] at hrecord
  rcases Nat.eq_zero_or_pos (t.conn c).evictSem with hsem | hsem
  · rw [hsem, List.replicate_zero, List.append_nil] at hrecord
    exact .inl ⟨by omega, hrecord⟩
  · have hone : (t.conn c).evictSem = 1 := by omega
    rw [hone, List.replicate_one] at hrecord
    exact .inr ⟨by omega, hone, hconn.activity (Nat.add_pos_left hsem _), hrecord⟩

/-! ### Two runs -/

/-- A message without chunks. -/
def plainMessage (type : MessageType) : Message n := ⟨fun _ => 0, fun _ => 0, 0, type⟩

/-- One client asks for the free size, and is then told to give a chunk back: its `ACTIVITY`
arrives while `poll_cq` is still in its loop, and is read by `evict_mem`. -/
def evictionActs : List (Act 1) :=
  [.buildConnection 0 true, .rdmaConnected 0 true, .arrive 0 (plainMessage .query), .getEvent,
    .reqNotify true, .pollCq, .handle, .answer true, .repost true, .evict [0], .sendEvict true,
    .sendEvict true, .arrive 0 (plainMessage .activity), .pollCq, .handle, .waitEvict, .collect,
    .repostCollected true, .waitEvict, .sendStop 1 true, .arrive 0 (plainMessage .done), .pollCq,
    .handle]

theorem evictionActs_read_once :
    ∃ t, run step (init fun _ => plainMessage .query) evictionActs = some t ∧
      (t.conn 0).read.map (fun p => (p.1, p.2.type)) =
        [(.handleCqe, .query), (.evictMem, .activity), (.handleCqe, .done)] ∧
      (t.conn 0).arrived = (t.conn 0).read.map Prod.snd ++ t.inBuffer 0 :=
  have hrun : run step (init fun _ => plainMessage .query) evictionActs = some _ := rfl
  ⟨_, hrun, by decide, (messages_read_once hrun 0).1⟩

/-- An `ACTIVITY` that nobody asked for. -/
def unaskedActs : List (Act 1) :=
  [.buildConnection 0 true, .arrive 0 (plainMessage .activity), .getEvent, .reqNotify true, .pollCq,
    .handle, .pollCq]

theorem unaskedActs_deaf :
    ∃ t, run step (init fun _ => plainMessage .query) unaskedActs = some t ∧
      t.poller = .getEvent ∧ t.cq.pending = 0 ∧ t.cq.entries = [] ∧ (t.conn 0).posted = 0 := by
  have hrun : run step (init fun _ => plainMessage .query) unaskedActs = some _ := rfl
  obtain ⟨hempty, -, hconns⟩ := waiting_server_listens hrun rfl rfl
  refine ⟨_, hrun, rfl, rfl, hempty, ?_⟩
  rcases hconns 0 rfl rfl with ⟨-, hread⟩ | ⟨hposted, -⟩
  · exact absurd (congrArg List.length hread) (by decide)
  · exact hposted

end Threads

end SystemDev.Server
