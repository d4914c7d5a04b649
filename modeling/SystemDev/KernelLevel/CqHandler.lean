import SystemDev.Library.Notify
import SystemDev.Library.Run
import SystemDev.Octopus.ChunkList
import SystemDev.Rdma.Completion

/-!
# The completion queue handler of the first kernel client

The client of `Kernel_Level_RDMA_connection` shares its session data with the Octopus
client. Its handler differs: a call takes one completion, handles it, and asks for the next
notification last. A completion that is added between the one that raised the call and that
request raises no call of its own.

The two counts that matter are the queue and the calls that have still to take a completion.
Every call was raised by a completion, so a call never finds the queue empty; and the queue
is longer than the calls by the completions that were added while it was not armed. A completion
that the handler does not accept puts the session into `ERROR`, although it is a successful one.

## Main results

* `CqHandler.loses_none_iff_served` — a quiet handler has taken every completion and is in no
  error exactly when each completion was added to an armed queue and accepted
-/

namespace SystemDev.KernelLevel

open SystemDev.Library SystemDev.Rdma SystemDev.Octopus

/-- The loop of `bind_remote_memory_chunks` over the positions still ahead. Here the test
for a full table comes behind the write. -/
def bindLoop {n : ℕ} (msg : Message n) :
    List (Fin n) → RemoteMappingChunkList → Option RemoteMappingChunkList
  | [], l => some l
  | i :: is, l => do
    let l ←
      if msg.rkey i = 0 then some l
      else if l.chunkPtr < l.remoteChunk.length then
        some { l with
          remoteChunk := l.remoteChunk.set l.chunkPtr (boundChunk msg i)
          chunkPtr := l.chunkPtr + 1 }
      else none
    if l.chunkNum ≤ l.chunkPtr then some l else bindLoop msg is l

/-- `bind_remote_memory_chunks`. -/
def bindRemoteMemoryChunks {n : ℕ} (msg : Message n) (l : RemoteMappingChunkList) :
    Option RemoteMappingChunkList :=
  bindLoop msg (List.finRange n) l

/-- `handle_recv_wr` on the message in `recv_buf`. A single chunk is only printed. -/
def handleRecvWr (kzalloc : Bool) (byteLen : ℕ) (recvBuf : Message chunkPositions)
    (s : RdmaSessionContext) : Option (RdmaSessionContext × ℤ) :=
  if byteLen ≠ sizeofMessage then some (s, -1)
  else if s.state.value < SessionState.connected.value then some (s, -1)
  else
    match recvBuf.type with
    | .freeSize => do
      let freed := (recvBuf.sizeGb % 2 ^ 32).toNat
      let l ← initRemoteChunkList kzalloc { s.remoteChunkList with remoteFreeSizeGb := freed }
      some ({ state := .freeMemRecv, remoteChunkList := l }, 0)
    | .sendChunks => do
      let l ← bindRemoteMemoryChunks recvBuf s.remoteChunkList
      some ({ state := .testDone, remoteChunkList := l }, 0)
    | .sendSingleChunk => some ({ s with state := .testDone }, 0)
    | .evict => some ({ s with state := .recvEvict }, 0)
    | .stop => some ({ s with state := .recvStop }, 0)
    | _ => some (s, -1)

/-- The `switch` over the opcode: the session and the return value that is tested. -/
def switch (s : RdmaSessionContext) (kzalloc : Bool) (wc : Wc chunkPositions) :
    Option (RdmaSessionContext × ℤ) :=
  match wc.opcode with
  | .recv byteLen recvBuf => handleRecvWr kzalloc byteLen recvBuf s
  | .send | .rdmaRead | .rdmaWrite => some (s, 0)
  -- goes to the error exit, where `ret` still is the 1 of `ib_poll_cq`
  | .other => some (s, 1)

/-- Where a call of `octopus_cq_event_handler` stands. -/
inductive HandlerPc
  | idle
  | polling
  | dispatching (wc : Wc chunkPositions)
  | arming

/-- The completion queue with its handler. -/
structure CqHandler where
  session : RdmaSessionContext
  cq : NotifyQueue (Wc chunkPositions)
  pc : HandlerPc

namespace CqHandler

/-- What can happen next: a completion is added, or the handler takes a step. -/
inductive Op
  | add (wc : Wc chunkPositions)
  | enter
  | poll
  | dispatch (kzalloc : Bool)
  | notify (ret : ℤ)

/-- The first arming, on an empty queue. -/
def armed (session : RdmaSessionContext) : CqHandler where
  session := session
  cq := NotifyQueue.empty.arm
  pc := .idle

/-- The error exit of the handler. -/
def err (s : CqHandler) : CqHandler :=
  { s with session := { s.session with state := .error }, pc := .idle }

/-- A pending call starts. -/
def enter (s : CqHandler) : Option CqHandler :=
  match s.pc with
  | .idle =>
    if s.cq.pending = 0 then none
    else
      let s := { s with cq := s.cq.start }
      if s.session.state = .error then some s else some { s with pc := .polling }
  | _ => none

/-- The call takes one completion and tests its status; an empty queue is an error. -/
def poll (s : CqHandler) : Option CqHandler :=
  match s.pc with
  | .polling =>
    match s.cq.entries with
    | [] => some s.err
    | wc :: _ =>
      let s := { s with cq := s.cq.drop }
      if wc.status ≠ wcSuccess then s.err else some { s with pc := .dispatching wc }
  | _ => none

/-- The call handles the completion that it has taken. -/
def dispatch (s : CqHandler) (kzalloc : Bool) : Option CqHandler :=
  match s.pc with
  | .dispatching wc => do
    let (session, ret) ← switch s.session kzalloc wc
    let s := { s with session := session }
    if ret ≠ 0 then s.err else some { s with pc := .arming }
  | _ => none

/-- The call asks for the next notification and returns. -/
def notify (s : CqHandler) (ret : ℤ) : Option CqHandler :=
  match s.pc with
  | .arming => if ret ≠ 0 then s.err else some { s with cq := s.cq.arm, pc := .idle }
  | _ => none

/-- One step of the handler, or of the verbs layer that adds completions. -/
def step (s : CqHandler) : Op → Option CqHandler
  | .add wc => some { s with cq := s.cq.add wc }
  | .enter => s.enter
  | .poll => s.poll
  | .dispatch kzalloc => s.dispatch kzalloc
  | .notify ret => s.notify ret

/-- No handler call is running or pending. -/
def Quiet (s : CqHandler) : Prop := s.pc = .idle ∧ s.cq.pending = 0

/-- The completions that are added are successful ones. -/
def Op.Successful : Op → Prop
  | .add wc => wc.status = wcSuccess
  | _ => True

instance : (op : Op) → Decidable op.Successful
  | .add wc => inferInstanceAs (Decidable (wc.status = wcSuccess))
  | .enter | .poll | .dispatch _ | .notify _ => .isTrue trivial

/-- The types of the messages that the client handles. -/
def expectedTypes : List MessageType := [.freeSize, .sendChunks, .sendSingleChunk, .evict, .stop]

/-- The handler accepts a completion: the opcode is known, and a received message has the length
of one, is of a type that the client handles, and finds the session connected. -/
def Accepts (session : RdmaSessionContext) (wc : Wc chunkPositions) : Prop :=
  match wc.opcode with
  | .recv byteLen recvBuf =>
    byteLen = sizeofMessage ∧ SessionState.connected.value ≤ session.state.value ∧
      recvBuf.type ∈ expectedTypes
  | .send | .rdmaRead | .rdmaWrite => True
  | .other => False

instance (session : RdmaSessionContext) (wc : Wc chunkPositions) : Decidable (Accepts session wc) :=
  match h : wc.opcode with
  | .recv byteLen recvBuf =>
    decidable_of_iff (byteLen = sizeofMessage ∧
      SessionState.connected.value ≤ session.state.value ∧ recvBuf.type ∈ expectedTypes)
      (by simp [Accepts, h])
  | .send | .rdmaRead | .rdmaWrite => .isTrue (by simp [Accepts, h])
  | .other => .isFalse (by simp [Accepts, h])

/-- A completion is added only while the queue is armed, the one that a call has taken is accepted,
and the call can arm the queue again. -/
def Served (s : CqHandler) : Op → Prop
  | .add _ => s.cq.armed = true
  | .dispatch _ =>
    match s.pc with
    | .dispatching wc => Accepts s.session wc
    | _ => True
  | .notify ret => ret = 0
  | .enter | .poll => True

instance (s : CqHandler) : (op : Op) → Decidable (s.Served op)
  | .add _ => inferInstanceAs (Decidable (_ = _))
  | .dispatch kzalloc =>
    match h : s.pc with
    | .dispatching wc => decidable_of_iff (Accepts s.session wc) (by simp [Served, h])
    | .idle | .polling | .arming => .isTrue (by simp [Served, h])
  | .notify ret => inferInstanceAs (Decidable (ret = 0))
  | .enter => .isTrue trivial
  | .poll => .isTrue trivial

/-- Every completion is seen: none is in the queue when no handler call is running or
pending, and the session is not in `ERROR`. -/
structure SeesAll (s : CqHandler) : Prop where
  seen : ¬ (s.cq.entries ≠ [] ∧ s.Quiet)
  state : s.session.state ≠ .error

/-! ### Inversion of the handler's steps -/

section Inversion

variable {s t : CqHandler} {kzalloc : Bool} {ret : ℤ}

theorem enter_cases (h : s.enter = some t) :
    s.pc = .idle ∧ 0 < s.cq.pending ∧
      ((s.session.state = .error ∧ t = { s with cq := s.cq.start }) ∨
        (s.session.state ≠ .error ∧ t = { s with cq := s.cq.start, pc := .polling })) := by
  rw [enter] at h
  split at h
  case h_1 hpc =>
    dsimp only at h
    split_ifs at h with hnone herror
    · exact ⟨hpc, Nat.pos_of_ne_zero hnone, .inl ⟨herror, (Option.some_inj.mp h).symm⟩⟩
    · exact ⟨hpc, Nat.pos_of_ne_zero hnone, .inr ⟨herror, (Option.some_inj.mp h).symm⟩⟩
  case h_2 => cases h

theorem poll_cases (h : s.poll = some t) :
    s.pc = .polling ∧ ((s.cq.entries = [] ∧ t = s.err) ∨
      ∃ wc rest, s.cq.entries = wc :: rest ∧
        ((wc.status ≠ wcSuccess ∧ t = { s with cq := s.cq.drop }.err) ∨
          (wc.status = wcSuccess ∧ t = { s with cq := s.cq.drop, pc := .dispatching wc }))) := by
  rw [poll] at h
  split at h
  case h_1 hpc =>
    refine ⟨hpc, ?_⟩
    split at h
    case h_1 hempty => exact .inl ⟨hempty, (Option.some_inj.mp h).symm⟩
    case h_2 wc rest hentries =>
      refine .inr ⟨wc, rest, hentries, ?_⟩
      dsimp only at h
      split_ifs at h with hstatus
      · exact .inl ⟨hstatus, (Option.some_inj.mp h).symm⟩
      · exact .inr ⟨not_not.mp hstatus, (Option.some_inj.mp h).symm⟩
  case h_2 => cases h

theorem dispatch_cases (h : s.dispatch kzalloc = some t) :
    ∃ wc p, s.pc = .dispatching wc ∧ switch s.session kzalloc wc = some p ∧
      ((p.2 ≠ 0 ∧ t = { s with session := p.1 }.err) ∨
        (p.2 = 0 ∧ t = { s with session := p.1, pc := .arming })) := by
  rw [dispatch] at h
  split at h
  case h_1 wc hpc =>
    obtain ⟨p, hp, hrest⟩ := Option.bind_eq_some_iff.mp h
    refine ⟨wc, p, hpc, hp, ?_⟩
    dsimp only at hrest
    split_ifs at hrest with hret
    · exact .inl ⟨hret, (Option.some_inj.mp hrest).symm⟩
    · exact .inr ⟨not_not.mp hret, (Option.some_inj.mp hrest).symm⟩
  case h_2 => cases h

theorem notify_cases (h : s.notify ret = some t) :
    s.pc = .arming ∧ ((ret ≠ 0 ∧ t = s.err) ∨
      (ret = 0 ∧ t = { s with cq := s.cq.arm, pc := .idle })) := by
  rw [notify] at h
  split at h
  case h_1 hpc =>
    split_ifs at h with hret
    · exact ⟨hpc, .inl ⟨hret, (Option.some_inj.mp h).symm⟩⟩
    · exact ⟨hpc, .inr ⟨not_not.mp hret, (Option.some_inj.mp h).symm⟩⟩
  case h_2 => cases h

end Inversion

/-! ### Calls against completions -/

/-- Only the error exit of the handler puts the session into `ERROR`. -/
theorem state_of_switch {s : RdmaSessionContext} {kzalloc : Bool} {wc : Wc chunkPositions}
    {p : RdmaSessionContext × ℤ} (h : switch s kzalloc wc = some p) (hs : s.state ≠ .error) :
    p.1.state ≠ .error := by
  rw [switch] at h
  split at h
  case h_1 =>
    rw [KernelLevel.handleRecvWr] at h
    split_ifs at h
    case pos | pos =>
      obtain rfl := Option.some_inj.mp h
      exact hs
    case neg =>
      split at h
      case h_1 | h_2 =>
        obtain ⟨l, -, hrest⟩ := Option.bind_eq_some_iff.mp h
        obtain rfl := Option.some_inj.mp hrest
        exact SessionState.noConfusion
      case h_6 =>
        obtain rfl := Option.some_inj.mp h
        exact hs
      all_goals
        obtain rfl := Option.some_inj.mp h
        exact SessionState.noConfusion
  all_goals
    obtain rfl := Option.some_inj.mp h
    exact hs

/-- The return value that is tested is zero exactly for the completions that are accepted. -/
theorem switch_eq_zero_iff {s : RdmaSessionContext} {kzalloc : Bool} {wc : Wc chunkPositions}
    {p : RdmaSessionContext × ℤ} (h : switch s kzalloc wc = some p) :
    p.2 = 0 ↔ Accepts s wc := by
  obtain ⟨wrId, status, opcode⟩ := wc
  cases opcode with
  | recv byteLen recvBuf =>
    change KernelLevel.handleRecvWr kzalloc byteLen recvBuf s = some p at h
    change _ ↔ byteLen = sizeofMessage ∧ _ ∧ recvBuf.type ∈ expectedTypes
    rw [KernelLevel.handleRecvWr] at h
    split_ifs at h with hlength hconnected
    · obtain rfl := Option.some_inj.mp h
      simp [hlength]
    · obtain rfl := Option.some_inj.mp h
      simp [Nat.not_le.mpr hconnected]
    · rw [and_iff_right (not_not.mp hlength), and_iff_right (Nat.not_lt.mp hconnected)]
      split at h
      case h_1 htype | h_2 htype =>
        obtain ⟨l, -, hrest⟩ := Option.bind_eq_some_iff.mp h
        obtain rfl := Option.some_inj.mp hrest
        simp [htype, expectedTypes]
      case h_6 hfree hchunks hsingle hevict hstop =>
        obtain rfl := Option.some_inj.mp h
        refine iff_of_false (Int.negSucc_ne_zero 0) ?_
        rw [expectedTypes]
        simp only [List.mem_cons, List.not_mem_nil, or_false, not_or]
        exact ⟨hfree, hchunks, hsingle, hevict, hstop⟩
      all_goals
        rename_i htype
        obtain rfl := Option.some_inj.mp h
        simp [htype, expectedTypes]
  | send | rdmaRead | rdmaWrite =>
    obtain rfl := Option.some_inj.mp h
    exact iff_of_true rfl trivial
  | other =>
    obtain rfl := Option.some_inj.mp h
    exact iff_of_false Int.one_ne_zero id

/-- The calls that have still to take a completion: those pending, and one that has started
and not polled. -/
def awaited (s : CqHandler) : ℕ :=
  s.cq.pending +
    match s.pc with
    | .polling => 1
    | _ => 0

/-- What a run keeps; `Q` says that every step so far was served. A session in `ERROR` has no
running call, and got there by a step that was not served. -/
structure Counted (s : CqHandler) (Q : Prop) : Prop where
  status : ∀ wc ∈ s.cq.entries, wc.status = wcSuccess
  failed : s.session.state = .error → s.pc = .idle ∧ ¬ Q
  awaited_le : s.session.state ≠ .error → s.awaited ≤ s.cq.entries.length
  none_missed : s.session.state ≠ .error → (Q ↔ s.awaited = s.cq.entries.length)

section Run

variable {s t : CqHandler} {op : Op} {session : RdmaSessionContext} {ops : List Op} {Q : Prop}

theorem counted_armed (hs : session.state ≠ .error) : (armed session).Counted True where
  status := by simp [armed, NotifyQueue.empty]
  failed := fun herror => absurd herror hs
  awaited_le := fun _ => Nat.le_refl 0
  none_missed := fun _ => iff_of_true trivial rfl

/-- A completion raises a call exactly when it is added to an armed queue. -/
theorem Counted.add {wc : Wc chunkPositions} (hs : s.Counted Q) (hwc : wc.status = wcSuccess) :
    Counted { s with cq := s.cq.add wc } (Q ∧ s.cq.armed = true) where
  status := by
    intro w hw
    rcases List.mem_append.mp hw with hold | hnew
    · exact hs.status w hold
    · rw [List.mem_singleton.mp hnew]
      exact hwc
  failed := fun herror => ⟨(hs.failed herror).1, fun hQ => (hs.failed herror).2 hQ.1⟩
  awaited_le := by
    intro hstate
    have hle := hs.awaited_le hstate
    have htoNat := Bool.toNat_le s.cq.armed
    simp only [awaited, NotifyQueue.add, List.length_append, List.length_singleton] at hle ⊢
    omega
  none_missed := by
    intro hstate
    have hle := hs.awaited_le hstate
    have hiff := hs.none_missed hstate
    simp only [awaited, NotifyQueue.add, List.length_append, List.length_singleton] at hle hiff ⊢
    cases s.cq.armed with
    | false =>
      simp only [Bool.false_eq_true, and_false, Bool.toNat_false, false_iff]
      omega
    | true =>
      simp only [and_true, Bool.toNat_true, hiff]
      omega

/-- A served step that moves a call, or takes the completion of one, keeps both counts. -/
theorem Counted.of_counts (hs : s.Counted Q) {R : Prop} (hR : R) (hold : s.session.state ≠ .error)
    (hstate : t.session.state ≠ .error) (hstatus : ∀ wc ∈ t.cq.entries, wc ∈ s.cq.entries)
    (hcounts : t.awaited + s.cq.entries.length = s.awaited + t.cq.entries.length) :
    t.Counted (Q ∧ R) where
  status := fun wc hwc => hs.status wc (hstatus wc hwc)
  failed := fun herror => absurd herror hstate
  awaited_le := by
    intro _
    have hle := hs.awaited_le hold
    omega
  none_missed := by
    intro _
    rw [and_iff_left hR, hs.none_missed hold]
    omega

/-- The error exit. -/
theorem Counted.err (hs : s.Counted Q) {session : RdmaSessionContext} {R : Prop} (hR : ¬ R) :
    ({ s with session := session }.err).Counted (Q ∧ R) where
  status := hs.status
  failed := fun _ => ⟨rfl, fun hQ => hR hQ.2⟩
  awaited_le := fun hstate => absurd rfl hstate
  none_missed := fun hstate => absurd rfl hstate

/-- Every step keeps the counts, or goes to the error exit without having been served. -/
theorem Counted.step (hs : s.Counted Q) (hgood : op.Successful) (h : s.step op = some t) :
    t.Counted (Q ∧ s.Served op) := by
  -- a call that has started finds no error
  have hrunning : s.pc ≠ .idle → s.session.state ≠ .error := fun hpc herror =>
    hpc (hs.failed herror).1
  cases op with
  | add wc =>
    obtain rfl := Option.some_inj.mp h
    exact hs.add hgood
  | enter =>
    obtain ⟨hpc, hpending, ⟨herror, rfl⟩ | ⟨hstate, rfl⟩⟩ := enter_cases h
    · exact ⟨hs.status, fun _ => ⟨hpc, fun hQ => (hs.failed herror).2 hQ.1⟩,
        fun hstate => absurd herror hstate, fun hstate => absurd herror hstate⟩
    · refine hs.of_counts trivial hstate hstate (fun _ hwc => hwc) ?_
      simp only [awaited, hpc, NotifyQueue.start]
      omega
  | poll =>
    obtain ⟨hpc, ⟨hempty, -⟩ | ⟨wc, rest, hentries, ⟨hstatus, -⟩ | ⟨-, rfl⟩⟩⟩ := poll_cases h
    · -- the call was raised by a completion that is still there
      have hle := hs.awaited_le (hrunning (by simp [hpc]))
      simp only [awaited, hpc, hempty, List.length_nil] at hle
      omega
    · exact absurd (hs.status wc (by simp [hentries])) hstatus
    · have hstate := hrunning (by simp [hpc])
      refine hs.of_counts trivial hstate hstate (fun _ hwc => List.mem_of_mem_tail hwc) ?_
      simp only [awaited, hpc, NotifyQueue.drop, hentries, List.tail_cons, List.length_cons]
      omega
  | dispatch kzalloc =>
    obtain ⟨wc, p, hpc, hp, hend⟩ := dispatch_cases h
    have hserved : s.Served (.dispatch kzalloc) ↔ p.2 = 0 := by
      rw [switch_eq_zero_iff hp, Served, hpc]
    obtain ⟨hret, rfl⟩ | ⟨hret, rfl⟩ := hend
    · exact hs.err (mt hserved.mp hret)
    · have hstate := hrunning (by simp [hpc])
      refine hs.of_counts (hserved.mpr hret) hstate (state_of_switch hp hstate)
        (fun _ hwc => hwc) ?_
      simp only [awaited, hpc]
  | notify ret =>
    obtain ⟨hpc, ⟨hret, rfl⟩ | ⟨hret, rfl⟩⟩ := notify_cases h
    · exact hs.err hret
    · have hstate := hrunning (by simp [hpc])
      refine hs.of_counts hret hstate hstate (fun _ hwc => hwc) ?_
      simp only [awaited, hpc, NotifyQueue.arm]

theorem Counted.quiet (hs : s.Counted Q) (hquiet : s.Quiet) : s.SeesAll ↔ Q := by
  constructor
  · intro hsees
    have hempty : s.cq.entries = [] := by
      by_contra hleft
      exact hsees.seen ⟨hleft, hquiet⟩
    rw [hs.none_missed hsees.state, awaited, hquiet.1, hquiet.2, hempty]
    rfl
  · intro hQ
    have hstate : s.session.state ≠ .error := fun herror => (hs.failed herror).2 hQ
    refine ⟨fun hleft => hleft.1 ?_, hstate⟩
    have hcounts := (hs.none_missed hstate).mp hQ
    rw [awaited, hquiet.1, hquiet.2] at hcounts
    exact List.length_eq_zero_iff.mp hcounts.symm

/-- When everything so far was served, every completion is seen. -/
theorem Counted.seesAll (hs : s.Counted Q) (hQ : Q) : s.SeesAll where
  seen := fun hleft => ((hs.quiet hleft.2).mpr hQ).seen hleft
  state := fun herror => (hs.failed herror).2 hQ

/-- In every run with successful completions: when each is added to an armed queue and accepted,
and the queue can be armed, every completion is seen in every state; and a quiet handler has seen
all of them, without an error, only then. -/
theorem loses_none_iff_served (hs : session.state ≠ .error)
    (hgood : ∀ op ∈ ops, Op.Successful op)
    (h : run CqHandler.step (armed session) ops = some s) :
    (EachStep CqHandler.step Served (armed session) ops →
      EveryState CqHandler.step SeesAll (armed session) ops) ∧
    (s.Quiet → (s.SeesAll ↔ EachStep CqHandler.step Served (armed session) ops)) := by
  have hsuccess : EachStep CqHandler.step (fun _ op => op.Successful) (armed session) ops :=
    eachStep_of_mem hgood
  constructor
  · intro hserved
    have keep : ∀ (s : CqHandler) op t, s.Counted True → Op.Successful op → s.Served op →
        CqHandler.step s op = some t → t.Counted True := by
      intro s op t hJ hop hserved ht
      have hnext := hJ.step hop ht
      rwa [true_and, eq_true hserved] at hnext
    exact everyState_of_eachStep keep (fun s hJ => hJ.seesAll trivial) (counted_armed hs) hsuccess
      hserved
  · intro hquiet
    have hcounted : s.Counted (True ∧ EachStep CqHandler.step Served (armed session) ops) :=
      run_history (fun _ _ _ _ hJ hop hstep => hJ.step hop hstep) (counted_armed hs) hsuccess h
    rw [hcounted.quiet hquiet, true_and]

/-- Two completions one after the other, each added to an armed queue: a request is sent, and its
answer binds a chunk. -/
theorem loses_none_iff_served_twoInTurn :
    let session : RdmaSessionContext := ⟨.freeMemRecv, ⟨[emptyChunk], 1, 1, 0⟩⟩
    let answer : Message chunkPositions :=
      ⟨fun _ => 5, fun i => if i.val = 0 then 7 else 0, 1, .sendChunks⟩
    let ops : List Op := [.add ⟨0, wcSuccess, .send⟩, .enter, .poll, .dispatch true, .notify 0,
      .add ⟨0, wcSuccess, .recv sizeofMessage answer⟩, .enter, .poll, .dispatch true, .notify 0]
    (run CqHandler.step (armed session) ops).isSome ∧
      EveryState CqHandler.step SeesAll (armed session) ops := by
  intro session answer ops
  have hends : (run CqHandler.step (armed session) ops).isSome := by decide
  obtain ⟨s, hs⟩ := Option.isSome_iff_exists.mp hends
  exact ⟨hends, (loses_none_iff_served (by decide) (by decide) hs).1 (by decide)⟩

/-- The completion of a request and that of its answer are added before the handler runs.
The call takes the first, and nothing announces the second. -/
theorem answer_stays_in_queue :
    let session : RdmaSessionContext := ⟨.freeMemRecv, ⟨[], 0, 0, 0⟩⟩
    let answer : Message chunkPositions := ⟨fun _ => 0, fun _ => 0, 0, .sendChunks⟩
    let ops : List Op := [.add ⟨0, wcSuccess, .send⟩,
      .add ⟨0, wcSuccess, .recv sizeofMessage answer⟩, .enter, .poll, .dispatch true, .notify 0]
    (∀ op ∈ ops, Op.Successful op) ∧
      ∃ s, run CqHandler.step (armed session) ops = some s ∧ ¬ s.SeesAll := by
  refine ⟨by decide, _, rfl, ?_⟩
  intro hsees
  exact hsees.seen ⟨List.cons_ne_nil _ _, rfl, rfl⟩

end Run

end CqHandler

end SystemDev.KernelLevel
