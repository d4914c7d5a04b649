import SystemDev.KernelLevel.CqHandler

/-!
# The chunk table of the first kernel client

The binding loop of this client writes first and tests for a full table behind the write.
A message that finds room cannot overrun the table, since the test leaves the loop at its
last entry. A message that finds none is saved only by the test behind the first position:
it writes outside exactly if that position is marked. A table without entries is full from
the start, and the cursor survives between messages.

## Main results

* `bindLoop_of_room`, `bindLoop_of_full` — the loop by what it finds
* `table_not_overrun_iff` — the sequences of messages that stay inside the table
-/

namespace SystemDev.KernelLevel

open SystemDev.Library SystemDev.Rdma SystemDev.Octopus

/-- The table as this client keeps it: the counted length is the allocated one, and the
cursor does not pass it. -/
structure Sized (l : RemoteMappingChunkList) : Prop where
  num_eq : l.chunkNum = l.remoteChunk.length
  ptr_le : l.chunkPtr ≤ l.remoteChunk.length

/-- The first position of the message is marked. -/
def MarksFirst {n : ℕ} (msg : Message n) : Prop := ∃ i : Fin n, (i : ℕ) = 0 ∧ msg.rkey i ≠ 0

instance {n : ℕ} (msg : Message n) : Decidable (MarksFirst msg) :=
  inferInstanceAs (Decidable (∃ _ : Fin n, _ ∧ _))

section Bind

variable {n : ℕ} (msg : Message n) {l : RemoteMappingChunkList}

/-- A loop that starts with room stays inside. -/
theorem bindLoop_of_room (is : List (Fin n)) (h : Sized l)
    (hroom : l.chunkPtr < l.remoteChunk.length) :
    ∃ l', bindLoop msg is l = some l' ∧ Sized l' := by
  induction is generalizing l with
  | nil => exact ⟨l, rfl, h⟩
  | cons i is ih =>
    rw [bindLoop]
    by_cases hzero : msg.rkey i = 0
    · have hopen : ¬ l.chunkNum ≤ l.chunkPtr := by
        rw [h.num_eq]
        exact not_le.mpr hroom
      simp only [hzero, if_true, Option.bind_eq_bind, Option.bind_some, hopen, if_false]
      exact ih h hroom
    · have hnext : Sized { l with
          remoteChunk := l.remoteChunk.set l.chunkPtr (boundChunk msg i)
          chunkPtr := l.chunkPtr + 1 } :=
        ⟨by simpa using h.num_eq, by simpa using Nat.succ_le_of_lt hroom⟩
      simp only [hzero, if_false, hroom, if_true, Option.bind_eq_bind, Option.bind_some]
      -- the test behind the write leaves the loop at the last entry
      split_ifs with hfull
      · exact ⟨_, rfl, hnext⟩
      · refine ih hnext ?_
        rw [h.num_eq] at hfull
        simpa using hfull

/-- A loop that starts with a full table ends at its first position. -/
theorem bindLoop_of_full (h : Sized l) (hfull : ¬ l.chunkPtr < l.remoteChunk.length) :
    bindRemoteMemoryChunks msg l = if MarksFirst msg then none else some l := by
  have hnum : l.chunkNum ≤ l.chunkPtr := by
    rw [h.num_eq]
    exact not_lt.mp hfull
  rw [bindRemoteMemoryChunks]
  cases n with
  | zero => simp [bindLoop, MarksFirst]
  | succ n =>
    have hfirst : MarksFirst msg ↔ msg.rkey 0 ≠ 0 := by
      constructor
      · rintro ⟨i, hi, hmarked⟩
        rwa [Fin.ext (a := i) (b := 0) hi] at hmarked
      · intro hmarked
        exact ⟨0, rfl, hmarked⟩
    rw [List.finRange_succ, bindLoop]
    by_cases hzero : msg.rkey 0 = 0
    · rw [if_pos hzero, if_neg fun hmarks => hfirst.mp hmarks hzero]
      exact if_pos hnum
    · rw [if_neg hzero, if_neg hfull, if_pos (hfirst.mpr hzero)]
      rfl

end Bind

/-! ### Sequences of messages -/

/-- `handle_recv_wr` on a message of the right length, with its allocation succeeding. A
write outside the table has no successor. -/
def receive (s : RdmaSessionContext) (msg : Message chunkPositions) : Option RdmaSessionContext :=
  (KernelLevel.handleRecvWr true sizeofMessage msg s).map Prod.fst

/-- A `GOT_CHUNKS` message that marks its first position finds room. -/
def FindsRoom (s : RdmaSessionContext) (msg : Message chunkPositions) : Prop :=
  msg.type = .sendChunks → MarksFirst msg →
    s.remoteChunkList.chunkPtr < s.remoteChunkList.remoteChunk.length

instance (s : RdmaSessionContext) (msg : Message chunkPositions) : Decidable (FindsRoom s msg) :=
  inferInstanceAs (Decidable (_ → _ → _))

/-- A session that accepts messages, with a table of its size. -/
structure Receiving (s : RdmaSessionContext) : Prop where
  connected : SessionState.connected.value ≤ s.state.value
  table : Sized s.remoteChunkList

/-- Binding stays inside exactly if the first position is unmarked or finds room. -/
theorem bindRemoteMemoryChunks_cases {l : RemoteMappingChunkList} (h : Sized l)
    (msg : Message chunkPositions) :
    (∃ l', bindRemoteMemoryChunks msg l = some l' ∧ Sized l' ∧
        (MarksFirst msg → l.chunkPtr < l.remoteChunk.length)) ∨
      (bindRemoteMemoryChunks msg l = none ∧ MarksFirst msg ∧
        ¬ l.chunkPtr < l.remoteChunk.length) := by
  by_cases hroom : l.chunkPtr < l.remoteChunk.length
  · obtain ⟨l', hbind, hsized⟩ := bindLoop_of_room msg (List.finRange _) h hroom
    exact .inl ⟨l', hbind, hsized, fun _ => hroom⟩
  · by_cases hfirst : MarksFirst msg
    · exact .inr ⟨(bindLoop_of_full msg h hroom).trans (if_pos hfirst), hfirst, hroom⟩
    · exact .inl ⟨l, (bindLoop_of_full msg h hroom).trans (if_neg hfirst), h,
        fun hmarks => absurd hmarks hfirst⟩

/-- A message that grants nothing keeps the table. -/
theorem Receiving.of_sameTable {s : RdmaSessionContext} (h : Receiving s) {state : SessionState}
    (hstate : SessionState.connected.value ≤ state.value) {msg : Message chunkPositions}
    (hgrants : msg.type ≠ .sendChunks)
    (hmsg : receive s msg = some { s with state := state }) :
    (∃ t, receive s msg = some t ∧ Receiving t ∧ FindsRoom s msg) ∨
      (receive s msg = none ∧ ¬ FindsRoom s msg) :=
  .inl ⟨_, hmsg, ⟨hstate, h.table⟩, fun hgot => absurd hgot hgrants⟩

/-- A message is handled exactly if it finds room, and leaves a table of its size. -/
theorem Receiving.receive_cases {s : RdmaSessionContext} (h : Receiving s)
    (msg : Message chunkPositions) :
    (∃ t, receive s msg = some t ∧ Receiving t ∧ FindsRoom s msg) ∨
      (receive s msg = none ∧ ¬ FindsRoom s msg) := by
  have hopen := not_lt.mpr h.connected
  cases htype : msg.type with
  | freeSize =>
    refine .inl ⟨_, by simp [receive, KernelLevel.handleRecvWr, hopen, htype,
      initRemoteChunkList]; rfl, ⟨?_, ?_⟩, fun hgot => ?_⟩
    · exact (by decide : SessionState.connected.value ≤ SessionState.freeMemRecv.value)
    · exact ⟨(List.length_replicate).symm, Nat.zero_le _⟩
    · rw [htype] at hgot
      cases hgot
  | sendChunks =>
    rcases bindRemoteMemoryChunks_cases h.table msg with ⟨l, hbind, hsized, hroom⟩ |
      ⟨hbind, hfirst, hfull⟩
    · refine .inl ⟨⟨.testDone, l⟩, ?_, ⟨?_, hsized⟩, fun _ => hroom⟩
      · simp [receive, KernelLevel.handleRecvWr, hopen, htype, hbind]
      · exact (by decide : SessionState.connected.value ≤ SessionState.testDone.value)
    · refine .inr ⟨?_, fun hroom => hfull (hroom htype hfirst)⟩
      simp [receive, KernelLevel.handleRecvWr, hopen, htype, hbind]
  | sendSingleChunk =>
    have hnext : SessionState.connected.value ≤ SessionState.testDone.value := by decide
    exact h.of_sameTable hnext (by simp [htype])
      (by simp [receive, KernelLevel.handleRecvWr, hopen, htype])
  | evict =>
    have hnext : SessionState.connected.value ≤ SessionState.recvEvict.value := by decide
    exact h.of_sameTable hnext (by simp [htype])
      (by simp [receive, KernelLevel.handleRecvWr, hopen, htype])
  | stop =>
    have hnext : SessionState.connected.value ≤ SessionState.recvStop.value := by decide
    exact h.of_sameTable hnext (by simp [htype])
      (by simp [receive, KernelLevel.handleRecvWr, hopen, htype])
  | done | activity | requestChunks | requestSingleChunk | query =>
    exact h.of_sameTable h.connected (by simp [htype])
      (by simp [receive, KernelLevel.handleRecvWr, hopen, htype])

theorem Receiving.isSome_receive_iff {s : RdmaSessionContext} (h : Receiving s)
    (msg : Message chunkPositions) : (receive s msg).isSome ↔ FindsRoom s msg := by
  rcases h.receive_cases msg with ⟨t, ht, -, hroom⟩ | ⟨hnone, hfull⟩
  · exact iff_of_true (by simp [ht]) hroom
  · exact iff_of_false (by simp [hnone]) hfull

theorem Receiving.of_receive {s t : RdmaSessionContext} (h : Receiving s)
    {msg : Message chunkPositions} (hmsg : receive s msg = some t) : Receiving t := by
  rcases h.receive_cases msg with ⟨u, hu, hrec, -⟩ | ⟨hnone, -⟩
  · rw [hmsg] at hu
    obtain rfl := Option.some_inj.mp hu
    exact hrec
  · rw [hmsg] at hnone
    cases hnone

/-- A connected session stays inside its table over a sequence of messages, of any number, in
any order and with any contents, if and only if each `GOT_CHUNKS` message that marks its first
position arrives while the cursor is below the allocated entries. -/
theorem table_not_overrun_iff (s : RdmaSessionContext) (msgs : List (Message chunkPositions))
    (hstate : SessionState.connected.value ≤ s.state.value) (htable : Sized s.remoteChunkList) :
    (run receive s msgs).isSome ↔ EachStep receive FindsRoom s msgs :=
  isSome_run_iff (fun _ _ _ (h : Receiving _) hmsg => h.of_receive hmsg)
    (fun _ msg h => h.isSome_receive_iff msg) ⟨hstate, htable⟩

/-- Two chunks for a table of two entries, in one message. -/
theorem table_not_overrun_twoChunks :
    (run receive ⟨.connected, ⟨[], 0, 0, 0⟩⟩
      [⟨fun _ => 0, fun _ => 0, 2, .freeSize⟩,
        ⟨fun _ => 4096, fun i => if i.val < 2 then 7 else 0, 2, .sendChunks⟩]).isSome :=
  (table_not_overrun_iff _ _ le_rfl ⟨rfl, le_rfl⟩).mpr (by decide)

/-- A server without free chunks reports none, and then sends one that it has got back. The
table has no entries and the first is written. -/
theorem empty_table_is_overrun :
    run receive ⟨.connected, ⟨[], 0, 0, 0⟩⟩
      [⟨fun _ => 0, fun _ => 0, 0, .freeSize⟩,
        ⟨fun _ => 4096, fun i => if i.val = 0 then 7 else 0, 1, .sendChunks⟩] = none := by
  decide

end SystemDev.KernelLevel
