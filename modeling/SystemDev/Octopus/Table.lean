import SystemDev.Library.Run
import SystemDev.Octopus.ChunkList

/-!
# The chunk table over a sequence of messages

`chunk_num` has two meanings. A `FREE_SIZE` message sets it to the length of the table it
allocates, and a message with chunks sets it to the number of chunks received so far,
which is also the bound of the loop that binds the next ones. The representation
invariant covers both: the entries below the cursor are mapped, those behind it are as
the allocation left them.

## Main results

* `Represented.bind` — binding a message keeps the invariant
* `table_is_represented` — the table after every sequence of messages
* `grants_all_bound_iff` — when every granted chunk gets an entry
-/

namespace SystemDev.Octopus

open SystemDev.Library SystemDev.Rdma

/-- The entries below the cursor are mapped with a key, the others are empty. -/
structure Represented (l : RemoteMappingChunkList) : Prop extends TableInv l where
  mapped : ∀ i e, i < l.chunkPtr → l.remoteChunk[i]? = some e →
    e.chunkState = .mapped ∧ e.remoteRkey ≠ 0
  empty : ∀ i e, l.chunkPtr ≤ i → l.remoteChunk[i]? = some e → e = emptyChunk

/-- A marked position is bound to an entry with a key. -/
theorem boundChunk_rkey_ne {n : ℕ} {msg : Message n} {i : Fin n} (h : msg.rkey i ≠ 0) :
    (boundChunk msg i).remoteRkey ≠ 0 := by
  intro hzero
  have hwire : htonl .little (msg.rkey i) = 0 := hzero
  rw [htonl_eq_zero_iff] at hwire
  exact h hwire

/-- The entries that a message brings, as many as fit. -/
def boundChunks {n : ℕ} (msg : Message n) (l : RemoteMappingChunkList) : List RemoteMappingChunk :=
  ((marked msg).map (boundChunk msg)).take (l.chunkNum - l.chunkPtr)

theorem mapped_of_mem_boundChunks {n : ℕ} {msg : Message n} {l : RemoteMappingChunkList}
    {e : RemoteMappingChunk} (h : e ∈ boundChunks msg l) :
    e.chunkState = .mapped ∧ e.remoteRkey ≠ 0 := by
  obtain ⟨i, hi, rfl⟩ := List.mem_map.mp (List.mem_of_mem_take h)
  have hmarked : msg.rkey i ≠ 0 := by simpa [marked] using hi
  exact ⟨rfl, boundChunk_rkey_ne hmarked⟩

/-- Binding a message keeps the invariant and the length of the table. -/
theorem Represented.bind {n : ℕ} (msg : Message n) {l : RemoteMappingChunkList}
    (h : Represented l) :
    ∃ l', bindRemoteMemoryChunks msg l = some l' ∧ Represented l' ∧
      l'.remoteChunk.length = l.remoteChunk.length := by
  have hptr := h.ptr_le
  have hnum := h.num_le
  have hfits : (boundChunks msg l).length ≤ l.chunkNum - l.chunkPtr := List.length_take_le _ _
  have hlength : (overwrite l.remoteChunk l.chunkPtr (boundChunks msg l)).length =
      l.remoteChunk.length := length_overwrite (by omega)
  have hend : l.chunkPtr + (boundChunks msg l).length ≤
      (overwrite l.remoteChunk l.chunkPtr (boundChunks msg l)).length := by
    rw [hlength]
    omega
  refine ⟨_, bindRemoteMemoryChunks_eq msg h.toTableInv, ⟨⟨le_rfl, hend⟩, ?_, ?_⟩, hlength⟩
  · intro i e hi he
    change i < l.chunkPtr + (boundChunks msg l).length at hi
    change (overwrite l.remoteChunk l.chunkPtr (boundChunks msg l))[i]? = some e at he
    rcases Nat.lt_or_ge i l.chunkPtr with hlt | hge
    · rw [getElem?_overwrite_of_not_mem (by omega) (.inl hlt)] at he
      exact h.mapped i e hlt he
    · rw [getElem?_overwrite_of_lt (by omega) hge hi] at he
      exact mapped_of_mem_boundChunks (List.mem_of_getElem? he)
  · intro i e hi he
    change l.chunkPtr + (boundChunks msg l).length ≤ i at hi
    change (overwrite l.remoteChunk l.chunkPtr (boundChunks msg l))[i]? = some e at he
    rw [getElem?_overwrite_of_not_mem (by omega) (.inr hi)] at he
    exact h.empty i e (by omega) he

theorem FreshTable.represented {l : RemoteMappingChunkList} (h : FreshTable l) :
    Represented l where
  toTableInv := h.tableInv
  mapped := by simp [h.cursor]
  empty := by
    intro i e _ he
    rw [h.entries] at he
    exact List.eq_of_mem_replicate (List.mem_of_getElem? he)

/-! ### Sequences of messages -/

/-- `handle_recv_wr` on a message of the right length, with its allocation succeeding. -/
def receive (s : RdmaSessionContext) (msg : Message chunkPositions) : Option RdmaSessionContext :=
  (handleRecvWr true sizeofMessage msg s).map Prod.fst

/-- The entries allocated by the latest `FREE_SIZE` message, `n` before the first one. -/
def allocated (n : ℕ) (msgs : List (Message chunkPositions)) : ℕ :=
  msgs.foldl
    (fun n msg => if msg.type = .freeSize then (msg.sizeGb % 2 ^ 32).toNat / chunkSizeGb else n) n

/-- A session whose handler accepts messages, with a represented table of `n` entries. -/
structure Receiving (n : ℕ) (s : RdmaSessionContext) : Prop where
  connected : SessionState.connected.value ≤ s.state.value
  table : Represented s.remoteChunkList
  length : s.remoteChunkList.remoteChunk.length = n

/-- A `FREE_SIZE` message is accepted whatever the table was before, and allocates it anew. -/
theorem receive_freeSize_fresh {s : RdmaSessionContext} {msg : Message chunkPositions}
    (hstate : SessionState.connected.value ≤ s.state.value) (htype : msg.type = .freeSize) :
    ∃ t, receive s msg = some t ∧ SessionState.connected.value ≤ t.state.value ∧
      FreshTable t.remoteChunkList ∧ t.remoteChunkList.chunkNum = allocated 0 [msg] := by
  have hhandled : receive s msg = some
      { state := .freeMemRecv
        remoteChunkList :=
          { remoteChunk := List.replicate ((msg.sizeGb % 2 ^ 32).toNat / chunkSizeGb) emptyChunk
            remoteFreeSizeGb := (msg.sizeGb % 2 ^ 32).toNat
            chunkNum := (msg.sizeGb % 2 ^ 32).toNat / chunkSizeGb
            chunkPtr := 0 } } := by
    simp [receive, handleRecvWr, not_lt.mpr hstate, htype, initRemoteChunkList]
  have hopen : SessionState.connected.value ≤ SessionState.freeMemRecv.value := by decide
  exact ⟨_, hhandled, hopen, ⟨rfl, rfl⟩, (if_pos htype).symm⟩

theorem receive_freeSize {s : RdmaSessionContext} {msg : Message chunkPositions}
    (hstate : SessionState.connected.value ≤ s.state.value) (htype : msg.type = .freeSize) :
    ∃ t, receive s msg = some t ∧
      Receiving ((msg.sizeGb % 2 ^ 32).toNat / chunkSizeGb) t := by
  obtain ⟨t, ht, hopen, hfresh, hnum⟩ := receive_freeSize_fresh hstate htype
  have hlength : t.remoteChunkList.remoteChunk.length = allocated 0 [msg] := by
    rw [hfresh.entries, List.length_replicate, hnum]
  refine ⟨t, ht, hopen, hfresh.represented, hlength.trans ?_⟩
  exact if_pos htype

/-- A message with chunks is bound. -/
theorem Receiving.bind {n : ℕ} {s : RdmaSessionContext} (h : Receiving n s)
    (msg : Message chunkPositions) (state : SessionState)
    (hstate : SessionState.connected.value ≤ state.value) :
    ∃ l, bindRemoteMemoryChunks msg s.remoteChunkList = some l ∧
      Receiving n { state := state, remoteChunkList := l } := by
  obtain ⟨l, hbind, hrep, hlength⟩ := h.table.bind msg
  exact ⟨l, hbind, hstate, hrep, hlength.trans h.length⟩

/-- Every message leaves a represented table, and only `FREE_SIZE` replaces it. -/
theorem Receiving.of_receive {n : ℕ} {s : RdmaSessionContext} (h : Receiving n s)
    (msg : Message chunkPositions) :
    ∃ t, receive s msg = some t ∧ Receiving (allocated n [msg]) t := by
  have hopen := not_lt.mpr h.connected
  cases htype : msg.type with
  | freeSize =>
    obtain ⟨t, ht, hrec⟩ := receive_freeSize h.connected htype
    exact ⟨t, ht, by simpa [allocated, htype] using hrec⟩
  | sendChunks =>
    obtain ⟨l, hbind, hrec⟩ := h.bind msg .receivedChunks (by decide)
    refine ⟨_, ?_, by simpa [allocated, htype] using hrec⟩
    simp [receive, handleRecvWr, hopen, htype, hbind]
  | sendSingleChunk =>
    obtain ⟨l, hbind, hrec⟩ := h.bind msg s.state h.connected
    refine ⟨_, ?_, by simpa [allocated, htype] using hrec⟩
    simp [receive, handleRecvWr, hopen, htype, hbind]
  | evict =>
    refine ⟨{ s with state := .recvEvict }, ?_, ?_, h.table, ?_⟩
    · simp [receive, handleRecvWr, hopen, htype]
    · exact (by decide : SessionState.connected.value ≤ SessionState.recvEvict.value)
    · simpa [allocated, htype] using h.length
  | stop =>
    refine ⟨{ s with state := .recvStop }, ?_, ?_, h.table, ?_⟩
    · simp [receive, handleRecvWr, hopen, htype]
    · exact (by decide : SessionState.connected.value ≤ SessionState.recvStop.value)
    · simpa [allocated, htype] using h.length
  | done | activity | requestChunks | requestSingleChunk | query =>
    -- refused, and nothing is changed
    refine ⟨s, ?_, h.connected, h.table, ?_⟩
    · simp [receive, handleRecvWr, hopen, htype]
    · simpa [allocated, htype] using h.length

theorem Receiving.of_run {n : ℕ} {s : RdmaSessionContext} (h : Receiving n s)
    (msgs : List (Message chunkPositions)) :
    ∃ t, run receive s msgs = some t ∧ Receiving (allocated n msgs) t := by
  induction msgs generalizing n s with
  | nil => exact ⟨s, rfl, h⟩
  | cons msg msgs ih =>
    obtain ⟨u, hu, hrec⟩ := h.of_receive msg
    obtain ⟨t, ht, hend⟩ := ih hrec
    refine ⟨t, ?_, hend⟩
    rw [run_cons, hu, Option.bind_some]
    exact ht

/-- A connected session that first handles a `FREE_SIZE` message and then any others, of
any number and in any order: no message writes outside the table, which is as long as the
latest `FREE_SIZE` message says and represented after the last message, so after each. -/
theorem table_is_represented (s : RdmaSessionContext) (first : Message chunkPositions)
    (msgs : List (Message chunkPositions))
    (hstate : SessionState.connected.value ≤ s.state.value) (hfirst : first.type = .freeSize) :
    ∃ t, run receive s (first :: msgs) = some t ∧ Represented t.remoteChunkList ∧
      t.remoteChunkList.remoteChunk.length = allocated 0 (first :: msgs) := by
  obtain ⟨u, hu, hrec⟩ := receive_freeSize hstate hfirst
  obtain ⟨t, ht, hend⟩ := hrec.of_run msgs
  refine ⟨t, ?_, hend.table, ?_⟩
  · rw [run_cons, hu, Option.bind_some]
    exact ht
  · rw [hend.length, allocated, allocated, List.foldl_cons, if_pos hfirst]

/-- A server with two chunks reports them, sends one and then the other. -/
def twoChunksInTurn : List (Message chunkPositions) :=
  [⟨fun _ => 0, fun _ => 0, 2, .freeSize⟩,
    ⟨fun _ => 4096, fun i => if i.val = 3 then 7 else 0, 1, .sendSingleChunk⟩,
    ⟨fun _ => 8192, fun i => if i.val = 5 then 9 else 0, 1, .sendChunks⟩]

theorem table_is_represented_twoChunksInTurn :
    ∃ t, run receive ⟨.connected, ⟨[], 0, 0, 0⟩⟩ twoChunksInTurn = some t ∧
      Represented t.remoteChunkList ∧ t.remoteChunkList.remoteChunk.length = 2 := by
  obtain ⟨t, ht, hrep, hlength⟩ := table_is_represented ⟨.connected, ⟨[], 0, 0, 0⟩⟩
    ⟨fun _ => 0, fun _ => 0, 2, .freeSize⟩ twoChunksInTurn.tail le_rfl rfl
  exact ⟨t, ht, hrep, hlength⟩

/-! ### Grants in several messages -/

/-- The entries for the chunks that a sequence of messages grants, message by message. -/
def grantedChunks (msgs : List (Message chunkPositions)) : List RemoteMappingChunk :=
  msgs.flatMap fun msg => (marked msg).map (boundChunk msg)

/-- The entries below the cursor are those of the first chunks granted, as many as a table
of `n` entries holds. -/
structure BindsAll (n : ℕ) (msgs : List (Message chunkPositions)) (l : RemoteMappingChunkList) :
    Prop where
  cursor : l.chunkPtr = min n (grantedChunks msgs).length
  entries : l.remoteChunk.take l.chunkPtr = (grantedChunks msgs).take n

/-- The first message with chunks fills the table, or the later ones grant nothing. -/
def BoundAtOnce (n : ℕ) : List (Message chunkPositions) → Prop
  | [] => True
  | msg :: msgs => n ≤ (marked msg).length ∨ ∀ m ∈ msgs, marked m = []

/-- A message that grants chunks. -/
def Grants (msg : Message chunkPositions) : Prop :=
  msg.type = .sendChunks ∨ msg.type = .sendSingleChunk

/-- The table after a message with chunks was bound. -/
def RemoteMappingChunkList.bound (l : RemoteMappingChunkList) (msg : Message chunkPositions) :
    RemoteMappingChunkList :=
  let l' := l.append (boundChunks msg l)
  { l' with chunkNum := l'.chunkPtr }

theorem receive_grants {s : RdmaSessionContext} {msg : Message chunkPositions}
    (hstate : SessionState.connected.value ≤ s.state.value) (hinv : TableInv s.remoteChunkList)
    (hmsg : Grants msg) :
    ∃ t, receive s msg = some t ∧ SessionState.connected.value ≤ t.state.value ∧
      t.remoteChunkList = s.remoteChunkList.bound msg := by
  have hbind := bindRemoteMemoryChunks_eq msg hinv
  have hopen := not_lt.mpr hstate
  rcases hmsg with htype | htype
  · have hnext : SessionState.connected.value ≤ SessionState.receivedChunks.value := by decide
    refine ⟨⟨.receivedChunks, s.remoteChunkList.bound msg⟩, ?_, hnext, rfl⟩
    simp only [receive, handleRecvWr, hopen, htype, hbind]
    rfl
  · refine ⟨⟨s.state, s.remoteChunkList.bound msg⟩, ?_, hstate, rfl⟩
    simp only [receive, handleRecvWr, hopen, htype, hbind]
    rfl

/-- Once the cursor is at the counted length no further message is bound. -/
theorem bound_of_full {l : RemoteMappingChunkList} (h : l.chunkPtr = l.chunkNum)
    (msg : Message chunkPositions) : l.bound msg = l := by
  have hnone : boundChunks msg l = [] := by
    rw [boundChunks, h, Nat.sub_self, List.take_zero]
  simp only [RemoteMappingChunkList.bound, RemoteMappingChunkList.append, hnone, overwrite_nil,
    List.length_nil, Nat.add_zero]
  cases l with
  | mk entries size num ptr =>
    obtain rfl : ptr = num := h
    rfl

theorem run_grants_of_full {s : RdmaSessionContext} (msgs : List (Message chunkPositions))
    (hstate : SessionState.connected.value ≤ s.state.value) (hinv : TableInv s.remoteChunkList)
    (hfull : s.remoteChunkList.chunkPtr = s.remoteChunkList.chunkNum)
    (hmsgs : ∀ m ∈ msgs, Grants m) :
    ∃ t, run receive s msgs = some t ∧ t.remoteChunkList = s.remoteChunkList := by
  induction msgs generalizing s with
  | nil => exact ⟨s, rfl, rfl⟩
  | cons msg msgs ih =>
    obtain ⟨u, hu, hopen, htable⟩ := receive_grants hstate hinv (hmsgs msg List.mem_cons_self)
    rw [bound_of_full hfull] at htable
    obtain ⟨t, ht, hend⟩ := ih hopen (htable ▸ hinv) (by rw [htable, hfull])
      fun m hm => hmsgs m (List.mem_cons_of_mem msg hm)
    refine ⟨t, ?_, hend.trans htable⟩
    rw [run_cons, hu, Option.bind_some]
    exact ht

/-- The first message bound in a fresh table fills it from the start. -/
theorem FreshTable.bound {l : RemoteMappingChunkList} (h : FreshTable l)
    (msg : Message chunkPositions) :
    TableInv (l.bound msg) ∧ (l.bound msg).chunkPtr = (l.bound msg).chunkNum ∧
      (l.bound msg).chunkPtr = min l.chunkNum (marked msg).length ∧
      (l.bound msg).remoteChunk.take (l.bound msg).chunkPtr =
        ((marked msg).map (boundChunk msg)).take l.chunkNum := by
  have hchunks : boundChunks msg l = ((marked msg).map (boundChunk msg)).take l.chunkNum := by
    rw [boundChunks, h.cursor, Nat.sub_zero]
  have hlength : (boundChunks msg l).length = min l.chunkNum (marked msg).length := by
    rw [hchunks, List.length_take, List.length_map]
  have hptr : (l.bound msg).chunkPtr = (boundChunks msg l).length := by
    change l.chunkPtr + _ = _
    rw [h.cursor, Nat.zero_add]
  have hentries : (l.bound msg).remoteChunk = boundChunks msg l ++
      l.remoteChunk.drop (boundChunks msg l).length := by
    change overwrite l.remoteChunk l.chunkPtr _ = _
    rw [overwrite, h.cursor, List.take_zero, List.nil_append, Nat.zero_add]
  refine ⟨⟨le_rfl, ?_⟩, rfl, hptr.trans hlength, ?_⟩
  · change (l.bound msg).chunkPtr ≤ _
    rw [hptr, hentries, List.length_append]
    exact Nat.le_add_right _ _
  · rw [hptr, hentries, List.take_left, hchunks]

/-- What the first of several messages grants is all that is bound. -/
theorem grantedChunks_cons_take_iff {n : ℕ} {msg : Message chunkPositions}
    {msgs : List (Message chunkPositions)} :
    ((marked msg).map (boundChunk msg)).take n = (grantedChunks (msg :: msgs)).take n ↔
      BoundAtOnce n (msg :: msgs) := by
  have hsplit : grantedChunks (msg :: msgs) =
      (marked msg).map (boundChunk msg) ++ grantedChunks msgs := List.flatMap_cons
  have hnone : grantedChunks msgs = [] ↔ ∀ m ∈ msgs, marked m = [] := by
    simp [grantedChunks, List.flatMap_eq_nil_iff]
  rw [hsplit, List.take_append, List.length_map, List.self_eq_append_right, List.take_eq_nil_iff,
    hnone, Nat.sub_eq_zero_iff_le]
  exact Iff.rfl

/-- A connected session that first handles a `FREE_SIZE` message and then any messages that
grant chunks: all of the chunks that fit are bound if and only if the first of the messages
fills the table or the others grant nothing. -/
theorem grants_all_bound_iff (s : RdmaSessionContext) (first : Message chunkPositions)
    (msgs : List (Message chunkPositions))
    (hstate : SessionState.connected.value ≤ s.state.value) (hfirst : first.type = .freeSize)
    (hmsgs : ∀ m ∈ msgs, Grants m) :
    ∃ t, run receive s (first :: msgs) = some t ∧
      (BindsAll (allocated 0 [first]) msgs t.remoteChunkList ↔
        BoundAtOnce (allocated 0 [first]) msgs) := by
  obtain ⟨u, hu, hopen, hfresh, hnum⟩ := receive_freeSize_fresh hstate hfirst
  cases msgs with
  | nil =>
    refine ⟨u, by rw [run_cons, hu]; rfl, iff_of_true ⟨?_, ?_⟩ trivial⟩
    · simp [grantedChunks, hfresh.cursor]
    · simp [grantedChunks, hfresh.cursor]
  | cons msg msgs =>
    obtain ⟨v, hv, hopen', htable⟩ := receive_grants hopen hfresh.tableInv
      (hmsgs msg List.mem_cons_self)
    obtain ⟨hinv, hfull, hptr, hentries⟩ := hfresh.bound msg
    rw [← htable] at hinv hfull hptr hentries
    obtain ⟨t, ht, hend⟩ := run_grants_of_full msgs hopen' hinv hfull
      fun m hm => hmsgs m (List.mem_cons_of_mem msg hm)
    rw [← hend, hnum] at hptr hentries
    refine ⟨t, ?_, ?_⟩
    · rw [run_cons, hu, Option.bind_some, run_cons, hv, Option.bind_some]
      exact ht
    · rw [← grantedChunks_cons_take_iff]
      constructor
      · intro hbinds
        exact hentries.symm.trans hbinds.entries
      · intro htake
        have hlength := congrArg List.length htake
        rw [List.length_take, List.length_take, List.length_map] at hlength
        exact ⟨hptr.trans hlength, hentries.trans htake⟩

/-- A server with two chunks reports them, sends both, and then sends a third one. -/
def twoChunksAtOnce : List (Message chunkPositions) :=
  [⟨fun _ => 0, fun _ => 0, 2, .freeSize⟩,
    ⟨fun _ => 4096, fun i => if i.val < 2 then 7 else 0, 2, .sendChunks⟩,
    ⟨fun _ => 8192, fun i => if i.val = 5 then 9 else 0, 1, .sendSingleChunk⟩]

theorem grants_all_bound_iff_twoChunksAtOnce :
    ∃ t, run receive ⟨.connected, ⟨[], 0, 0, 0⟩⟩ twoChunksAtOnce = some t ∧
      BindsAll 2 twoChunksAtOnce.tail t.remoteChunkList := by
  have hgrants : ∀ m ∈ twoChunksAtOnce.tail, Grants m := by
    simp [twoChunksAtOnce, Grants]
  have hfits : 2 ≤ (marked (twoChunksAtOnce.tail.head (List.cons_ne_nil _ _))).length := by decide
  obtain ⟨t, ht, hiff⟩ := grants_all_bound_iff ⟨.connected, ⟨[], 0, 0, 0⟩⟩
    ⟨fun _ => 0, fun _ => 0, 2, .freeSize⟩ twoChunksAtOnce.tail le_rfl rfl hgrants
  exact ⟨t, ht, hiff.mpr (.inl hfits)⟩

/-- Of two chunks sent one after the other the second is not bound, though the table has
two entries. -/
theorem second_grant_is_dropped :
    ∃ t, run receive ⟨.connected, ⟨[], 0, 0, 0⟩⟩ twoChunksInTurn = some t ∧
      t.remoteChunkList.remoteChunk.length = 2 ∧ t.remoteChunkList.chunkPtr = 1 ∧
      ¬ BindsAll 2 twoChunksInTurn.tail t.remoteChunkList := by
  have hgranted : (grantedChunks twoChunksInTurn.tail).length = 2 := by decide
  refine ⟨_, rfl, rfl, rfl, fun hbinds => ?_⟩
  have hcursor := hbinds.cursor
  rw [hgranted] at hcursor
  exact absurd hcursor (by decide)

end SystemDev.Octopus
