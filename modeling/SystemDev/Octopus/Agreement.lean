import SystemDev.Octopus.ChunkList
import SystemDev.Server.Ownership

/-!
# Client and server agree on the granted chunks

One Octopus client and the remote memory server exchange `FREE_SIZE`,
`REQUEST_CHUNKS` and `SEND_CHUNKS` over two ordered channels, while the server goes on
serving other connections and growing or shrinking its pool. The client sizes its
table from the `FREE_SIZE` message and drops what the answer carries beyond it; the
server grants from its state at the time of the answer.

## Main results

* `WellOwned.bystander` — other connections' steps leave a connection's record alone
* `Phase.of_step` — the phases of the exchange, with the history of the answer step
* `chunks_agree_iff` — the two tables agree exactly when the answer fits
-/

namespace SystemDev.Server

open SystemDev.Library

variable {cfg : ServerConfig} {s t : RdmaSession cfg} {op : Op cfg} {c : Connection cfg}

/-- The connection an operation works for. -/
def Op.subject : Op cfg → Option ℕ
  | .buildConnection id _ => some id
  | .sendFreeMemSize id => some id
  | .requestChunks id _ _ => some id
  | .requestSingleChunk id _ _ => some id
  | .done id _ => some id
  | .destroyConnection id => some id
  | .expand _ _ => none
  | .evictUnmapped _ => none

theorem WellOwned.conn?_eq_some (h : WellOwned s) {id : ℕ} (hc : c ∈ s.live) (hid : c.id = id) :
    s.conn? id = some c := by
  cases hfind : s.conn? id with
  | none => exact absurd hid (not_mem_live_of_conn?_eq_none hfind c hc)
  | some d =>
    obtain ⟨hd, hdid⟩ := mem_live_of_conn? hfind
    rw [h.eq_of_id hd hc (hdid.trans hid.symm)]

/-- A step that works for another connection, or for none, keeps a connection's object
and the registrations of the chunks it records. -/
theorem WellOwned.bystander (h : WellOwned s) (heff : Effect s op t)
    (hother : op.subject ≠ some c.id) :
    (c ∈ t.live ↔ c ∈ s.live) ∧
      (c ∈ s.live → ∀ i, c.sessChunkMap i ≠ -1 →
        t.rdmaRemote.mrList i = s.rdmaRemote.mrList i) := by
  -- a granted chunk was unmapped before, so `c` does not record it
  have hgrant : ∀ (rkeys : Chunk cfg → BitVec 32) (target amount : ℤ) (d : Connection cfg),
      c ∈ s.live → ∀ i, c.sessChunkMap i ≠ -1 →
        (grantRemote rkeys (granted s.rdmaRemote target) amount d s.rdmaRemote).mrList i =
          s.rdmaRemote.mrList i := by
    intro rkeys target amount d hc i hi
    have hg : i ∉ granted s.rdmaRemote target := by
      intro hg
      have hfree := (free_of_mem_granted hg).2
      rw [(h.recorded c hc i hi).2] at hfree
      exact h.connIndex_ne hc hfree
    simp [grantRemote, hg]
  cases heff with
  | build new idle =>
    refine ⟨List.mem_cons.trans (or_iff_right ?_), fun _ _ _ => rfl⟩
    rintro rfl
    exact hother rfl
  | @reply id d mem same =>
    exact ⟨mem_rewriteKey_iff fun hid => hother (by simp [Op.subject, hid, sendFreeMemSize, same]),
      fun _ _ _ => rfl⟩
  | @grantMany id sizeGb rkeys d k mem same slot =>
    exact ⟨mem_rewriteKey_iff fun hid => hother (by simp [Op.subject, hid, grantConn, same]),
      hgrant rkeys _ _ d⟩
  | @grantOne id sizeGb rkeys d k mem same slot =>
    exact ⟨mem_rewriteKey_iff fun hid => hother (by simp [Op.subject, hid, grantConn, same]),
      hgrant rkeys _ _ d⟩
  | @stop id msg d states mem same own kept =>
    exact ⟨mem_rewriteKey_iff fun hid => hother (by simp [Op.subject, hid, stopConn, same]),
      fun _ _ _ => rfl⟩
  | @destroy id d k running mem same slot =>
    refine ⟨mem_dropKey.trans (and_iff_left ?_), fun _ _ _ => ?_⟩
    · exact fun hid => hother (by simp [Op.subject, hid, same])
    · simp only [releaseRemote]
      split_ifs <;> rfl
  | expand above => exact ⟨Iff.rfl, fun _ _ _ => by rw [freeMemExpand_eq]⟩
  | evict pos => exact ⟨Iff.rfl, fun _ _ _ => by rw [evictUnmapped_eq]⟩

end SystemDev.Server

namespace SystemDev.Octopus

open SystemDev.Library SystemDev.Rdma SystemDev.Server

/-- A server built for this client: both sides have the same `struct message`. -/
abbrev pairedConfig (base : ServerConfig) : ServerConfig :=
  { base with maxFreeMemGb := chunkPositions, max_lt := by decide }

/-- One client, the server and the messages between them. `toServer` carries the type
and the size of each request. `greeted` and `requested` record that the server has run
`on_connection` and that the client's main thread has sent its request. -/
structure System (base : ServerConfig) where
  server : RdmaSession (pairedConfig base)
  client : RdmaSessionContext
  toClient : List (Message chunkPositions)
  toServer : List (MessageType × ℤ)
  greeted : Bool
  requested : Bool

/-- The steps of the system. `server` is an operation that does not concern the
client; the others are the steps of the exchange in the order in which they become
enabled. -/
inductive SystemOp (base : ServerConfig)
  | server (op : Op (pairedConfig base))
  | accept (mem : Connection (pairedConfig base))
  | established
  | sendFreeSize
  | deliver (kzalloc : Bool)
  | request
  | answer (rkeys : Chunk (pairedConfig base) → BitVec 32)

variable {base : ServerConfig}

/-- `octupos_requset_for_chunk`: the type and the size it sends. -/
def octuposRequsetForChunk (numChunk : ℕ) : MessageType × ℤ :=
  (if numChunk = 1 then .requestSingleChunk else .requestChunks, numChunk * chunkSizeGb)

/-- The grant requests of `handle_cqe`. -/
def requestOp (cid : ℕ) (rkeys : Chunk (pairedConfig base) → BitVec 32) :
    MessageType × ℤ → Option (Op (pairedConfig base))
  | (.requestChunks, sizeGb) => some (.requestChunks cid sizeGb rkeys)
  | (.requestSingleChunk, sizeGb) => some (.requestSingleChunk cid sizeGb rkeys)
  | _ => none

/-- Run an operation of the server for the client and put its message on the wire. -/
def System.reply (cid : ℕ) (s : System base) (op : Op (pairedConfig base)) :
    Option (System base) := do
  let v ← step s.server op
  let c ← v.conn? cid
  let m : List (Message chunkPositions) := [c.sendMsg]
  some { s with server := v, toClient := s.toClient ++ m }

/-- One step of the system, for the client behind the connection `cid`. -/
def System.step (cid : ℕ) (s : System base) : SystemOp base → Option (System base)
  | .server op =>
    -- whatever concerns the client itself is a step of the exchange
    if op.subject = some cid then none
    else (Server.step s.server op).map fun v => { s with server := v }
  | .accept mem =>
    (Server.step s.server (.buildConnection cid mem)).map fun v => { s with server := v }
  | .established =>
    if (s.server.conn? cid).isSome ∧ s.client.state = .routeResolved then
      some { s with client := { s.client with state := .connected } }
    else none
  | .sendFreeSize =>
    if s.client.state = .connected ∧ s.greeted = false then
      { s with greeted := true }.reply cid (.sendFreeMemSize cid)
    else none
  | .deliver kzalloc =>
    match s.toClient with
    | [] => none
    | m :: rest => do
      let (client, ret) ← handleRecvWr kzalloc sizeofMessage m s.client
      -- the completion handler marks the session when the message handler fails
      let client := if ret = 0 then client else { client with state := .error }
      some { s with client := client, toClient := rest }
  | .request =>
    if s.client.state = .freeMemRecv ∧ s.requested = false then
      some { s with
        toServer := s.toServer ++ [octuposRequsetForChunk chunkPositions]
        requested := true }
    else none
  | .answer rkeys =>
    match s.toServer with
    | [] => none
    | m :: rest => do
      let op ← requestOp cid rkeys m
      { s with toServer := rest }.reply cid op

/-- The system before the client has connected. -/
def System.init (freeMemG : ℤ) (memalign : Chunk (pairedConfig base) → BitVec 64) :
    System base where
  server := rdmaSessionInit freeMemG memalign
  client := { state := .routeResolved, remoteChunkList := ⟨[], 0, 0, 0⟩ }
  toClient := []
  toServer := []
  greeted := false
  requested := false

/-- What is assumed of the steps: connections are accepted while a slot is idle, other
clients give back only chunks of their own, and `ibv_reg_mr` returns nonzero keys. -/
def System.Admitted (s : System base) : SystemOp base → Prop
  | .server op => OwnDone s.server op
  | .accept _ => ∃ k, s.server.connsState k = .idle
  | .answer rkeys => ∀ i, rkeys i ≠ 0
  | _ => True

/-- The `MAPPED` entries of the client are the registrations of the chunks that the
server records for it, in index order. -/
def System.Agree (cid : ℕ) (s : System base) : Prop :=
  ∃ c, s.server.conn? cid = some c ∧
    (mappedChunks s.client.remoteChunkList).map (fun p => some (IbvMr.mk p.1 p.2)) =
      (heldChunks c).map s.server.rdmaRemote.mrList

/-- When the request is answered, no more chunks are free than the client's table, sized
by the `FREE_SIZE` it was told, has entries. -/
def System.AnswerFits (s : System base) : SystemOp base → Prop
  | .answer _ => (freeChunks s.server.rdmaRemote).length ≤ s.client.remoteChunkList.chunkNum
  | _ => True

instance {s : System base} : ∀ op, Decidable (s.Admitted op)
  | .server op => inferInstanceAs (Decidable (OwnDone s.server op))
  | .accept _ => inferInstanceAs (Decidable (∃ k, s.server.connsState k = .idle))
  | .answer rkeys => inferInstanceAs (Decidable (∀ i, rkeys i ≠ 0))
  | .established => .isTrue trivial
  | .sendFreeSize => .isTrue trivial
  | .deliver _ => .isTrue trivial
  | .request => .isTrue trivial

instance {s : System base} : ∀ op, Decidable (s.AnswerFits op)
  | .answer _ => inferInstanceAs (Decidable (List.length _ ≤ _))
  | .server _ => .isTrue trivial
  | .accept _ => .isTrue trivial
  | .established => .isTrue trivial
  | .sendFreeSize => .isTrue trivial
  | .deliver _ => .isTrue trivial
  | .request => .isTrue trivial

/-! ### Phases of the exchange -/

/-- The server records no chunk for the client. -/
def NoChunks (cid : ℕ) (v : RdmaSession (pairedConfig base)) : Prop :=
  ∀ c ∈ v.live, c.id = cid → heldChunks c = []

/-- A message that carries the registrations of the chunks recorded for `c`. -/
structure Describes (v : RdmaSession (pairedConfig base)) (c : Connection (pairedConfig base))
    (m : Message chunkPositions) : Prop where
  type : m.type = .sendChunks
  marks : marked m = heldChunks c
  region : ∀ i ∈ heldChunks c, v.rdmaRemote.mrList i =
    some ⟨(boundChunk m i).remoteAddr, (boundChunk m i).remoteRkey⟩

/-- The session state, the messages in flight and the two flags. -/
structure System.At (s : System base) (state : SessionState)
    (toClient : List (Message chunkPositions)) (toServer : List (MessageType × ℤ))
    (greeted requested : Bool) : Prop where
  state : s.client.state = state
  toClient : s.toClient = toClient
  toServer : s.toServer = toServer
  greeted : s.greeted = greeted
  requested : s.requested = requested

/-- How far the exchange is. `Q` is the history: whether every step so far met
`AnswerFits`. It is true up to the answer, and from then on says whether the chunks
recorded for the client fit its table. -/
inductive Phase (cid : ℕ) (s : System base) (Q : Prop) : Prop
  | connecting {state : SessionState} (early : state = .routeResolved ∨ state = .connected)
      (pos : s.At state [] [] false false) (none : NoChunks cid s.server) (history : Q)
  | greeting {m : Message chunkPositions} (type : m.type = .freeSize)
      (pos : s.At .connected [m] [] true false) (none : NoChunks cid s.server) (history : Q)
  | sized (fresh : FreshTable s.client.remoteChunkList)
      (pos : s.At .freeMemRecv [] [] true false) (none : NoChunks cid s.server) (history : Q)
  | asking (fresh : FreshTable s.client.remoteChunkList)
      (pos : s.At .freeMemRecv [] [octuposRequsetForChunk chunkPositions] true true)
      (none : NoChunks cid s.server) (history : Q)
  | answered {m : Message chunkPositions} {c : Connection (pairedConfig base)}
      (fresh : FreshTable s.client.remoteChunkList)
      (pos : s.At .freeMemRecv [m] [] true true) (mem : c ∈ s.server.live) (same : c.id = cid)
      (describes : Describes s.server c m)
      (history : Q ↔ (heldChunks c).length ≤ s.client.remoteChunkList.chunkNum)
  | bound {c : Connection (pairedConfig base)} {n : ℕ} (pos : s.At .receivedChunks [] [] true true)
      (mem : c ∈ s.server.live) (same : c.id = cid)
      (entries : (mappedChunks s.client.remoteChunkList).map (fun p => some (IbvMr.mk p.1 p.2)) =
        ((heldChunks c).map s.server.rdmaRemote.mrList).take n)
      (history : Q ↔ (heldChunks c).length ≤ n)

section Steps

variable {cid : ℕ} {s t : System base} {Q : Prop}

theorem System.At.withServer {state : SessionState} {tc : List (Message chunkPositions)}
    {ts : List (MessageType × ℤ)} {g r : Bool} {v : RdmaSession (pairedConfig base)}
    (h : s.At state tc ts g r) : System.At { s with server := v } state tc ts g r :=
  ⟨h.state, h.toClient, h.toServer, h.greeted, h.requested⟩

/-- Operations for other connections do not move the exchange. -/
theorem Phase.of_server (hown : WellOwned s.server) (h : Phase cid s Q)
    {op : Op (pairedConfig base)} {v : RdmaSession (pairedConfig base)}
    (hother : op.subject ≠ some cid) (heff : Effect s.server op v) :
    Phase cid { s with server := v } Q := by
  -- the client's object and the registrations of its chunks survive the step
  have hlive : ∀ c : Connection (pairedConfig base), c.id = cid →
      (c ∈ v.live ↔ c ∈ s.server.live) := by
    rintro c rfl
    exact (hown.bystander heff hother).1
  have hmr : ∀ c ∈ s.server.live, c.id = cid → ∀ i ∈ heldChunks c,
      v.rdmaRemote.mrList i = s.server.rdmaRemote.mrList i := by
    rintro c hc rfl i hi
    exact (hown.bystander heff hother).2 hc i (mem_heldChunks.mp hi)
  have hnone : NoChunks cid s.server → NoChunks cid v :=
    fun hs c hc hid => hs c ((hlive c hid).mp hc) hid
  cases h with
  | connecting early pos none history =>
    exact .connecting early pos.withServer (hnone none) history
  | greeting type pos none history => exact .greeting type pos.withServer (hnone none) history
  | sized fresh pos none history => exact .sized fresh pos.withServer (hnone none) history
  | asking fresh pos none history => exact .asking fresh pos.withServer (hnone none) history
  | @answered m c fresh pos mem same describes history =>
    refine .answered fresh pos.withServer ((hlive c same).mpr mem) same ?_ history
    exact ⟨describes.type, describes.marks,
      fun i hi => (hmr c mem same i hi).trans (describes.region i hi)⟩
  | @bound c n pos mem same entries history =>
    refine .bound pos.withServer ((hlive c same).mpr mem) same ?_ history
    rw [List.map_congr_left (hmr c mem same)]
    exact entries

/-- A new connection records no chunk. -/
theorem Phase.of_accept (hown : WellOwned s.server) (h : Phase cid s Q)
    {mem : Connection (pairedConfig base)} {v : RdmaSession (pairedConfig base)}
    (hidle : ∃ k, s.server.connsState k = .idle)
    (hstep : Server.step s.server (.buildConnection cid mem) = some v) :
    Phase cid { s with server := v } Q := by
  have hop : OwnDone s.server (.buildConnection cid mem) := hidle
  have heff := step_effect hown hop hstep
  have hnew : ∀ d ∈ s.server.live, d.id ≠ cid := by
    cases heff with
    | build new idle => exact new
  have hnone : NoChunks cid v := by
    cases heff with
    | build new idle =>
      intro d hd hid
      rcases List.mem_cons.mp hd with rfl | hd
      · simp [heldChunks]
      · exact absurd hid (hnew d hd)
  cases h with
  | connecting early pos none history => exact .connecting early pos.withServer hnone history
  | greeting type pos none history => exact .greeting type pos.withServer hnone history
  | sized fresh pos none history => exact .sized fresh pos.withServer hnone history
  | asking fresh pos none history => exact .asking fresh pos.withServer hnone history
  | answered fresh pos mem same describes history => exact absurd same (hnew _ mem)
  | bound pos mem same entries history => exact absurd same (hnew _ mem)

theorem System.exists_of_reply {op : Op (pairedConfig base)} (h : s.reply cid op = some t) :
    ∃ v c, Server.step s.server op = some v ∧ v.conn? cid = some c ∧
      t = { s with
        server := v
        toClient := s.toClient ++ ([c.sendMsg] : List (Message chunkPositions)) } := by
  obtain ⟨v, hv, hrest⟩ := Option.bind_eq_some_iff.mp h
  obtain ⟨c, hc, hrest⟩ := Option.bind_eq_some_iff.mp hrest
  exact ⟨v, c, hv, hc, (Option.some_inj.mp hrest).symm⟩

theorem Phase.of_established (h : Phase cid s Q) (hstate : s.client.state = .routeResolved) :
    Phase cid { s with client := { s.client with state := .connected } } Q := by
  cases h with
  | connecting early pos none history =>
    exact .connecting (Or.inr rfl) ⟨rfl, pos.toClient, pos.toServer, pos.greeted, pos.requested⟩
      none history
  | greeting _ pos _ _ | sized _ pos _ _ | asking _ pos _ _ | answered _ pos _ _ _ _
  | bound pos _ _ _ _ =>
    exact absurd (pos.state.symm.trans hstate) (by decide)

/-- The greeting rewrites only the connection's message. -/
theorem Phase.of_sendFreeSize (hown : WellOwned s.server) (h : Phase cid s Q)
    (hstate : s.client.state = .connected) (hgreeted : s.greeted = false)
    (hstep : { s with greeted := true }.reply cid (.sendFreeMemSize cid) = some t) :
    Phase cid t Q := by
  obtain ⟨v, c, hv, hc, rfl⟩ := System.exists_of_reply hstep
  have hop : OwnDone s.server (.sendFreeMemSize cid) := trivial
  have heff := step_effect hown hop hv
  have hown' := hown.of_effect heff
  cases heff with
  | @reply id d mem same =>
    have hd : (s.server.rewrite (sendFreeMemSize s.server.rdmaRemote d) s.server.rdmaRemote
        s.server.connsState).conn? cid = some (sendFreeMemSize s.server.rdmaRemote d) :=
      hown'.conn?_eq_some (mem_rewriteKey_self mem rfl) same
    obtain rfl := Option.some_inj.mp (hd.symm.trans hc)
    cases h with
    | connecting early pos none history =>
      refine .greeting (m := (sendFreeMemSize s.server.rdmaRemote d).sendMsg) rfl ?_ ?_ history
      · exact ⟨hstate, by simp [pos.toClient], pos.toServer, rfl, pos.requested⟩
      · intro e he hid
        rcases mem_live_rewrite he with rfl | ⟨he, -⟩
        · exact none d mem same
        · exact none e he hid
    | greeting _ pos _ _ | sized _ pos _ _ | asking _ pos _ _ | answered _ pos _ _ _ _
    | bound pos _ _ _ _ =>
      -- the server greets once
      exact absurd (pos.greeted.symm.trans hgreeted) (by decide)

theorem Phase.of_request (h : Phase cid s Q) (hstate : s.client.state = .freeMemRecv)
    (hrequested : s.requested = false) :
    Phase cid { s with
      toServer := s.toServer ++ [octuposRequsetForChunk chunkPositions]
      requested := true } Q := by
  cases h with
  | connecting early pos none history =>
    rcases early with rfl | rfl
    · exact absurd (pos.state.symm.trans hstate) (by decide)
    · exact absurd (pos.state.symm.trans hstate) (by decide)
  | greeting type pos none history => exact absurd (pos.state.symm.trans hstate) (by decide)
  | sized fresh pos none history =>
    exact .asking fresh ⟨pos.state, pos.toClient, by simp [pos.toServer], pos.greeted, rfl⟩
      none history
  | asking _ pos _ _ | answered _ pos _ _ _ _ | bound pos _ _ _ _ =>
    -- the client asks once
    exact absurd (pos.requested.symm.trans hrequested) (by decide)

/-- The two messages of the exchange reach the client. -/
theorem Phase.of_deliver (h : Phase cid s Q) {kzalloc : Bool}
    (hstep : s.step cid (.deliver kzalloc) = some t) : Phase cid t Q := by
  rw [System.step] at hstep
  cases h with
  | connecting _ pos _ _ | sized _ pos _ _ | asking _ pos _ _ | bound pos _ _ _ _ =>
    -- nothing is on its way to the client
    simp [pos.toClient] at hstep
  | @greeting m type pos none history =>
    simp only [pos.toClient] at hstep
    obtain ⟨p, hp, hrest⟩ := Option.bind_eq_some_iff.mp hstep
    obtain ⟨hret, hstate, hfresh⟩ :=
      freshTable_of_handleRecvWr (by rw [pos.state]) type hp
    obtain rfl := Option.some_inj.mp hrest
    simp only [hret, if_true]
    exact .sized hfresh ⟨hstate, rfl, pos.toServer, pos.greeted, pos.requested⟩ none history
  | @answered m c fresh pos mem same describes history =>
    simp only [pos.toClient] at hstep
    rw [handleRecvWr_sendChunks (by rw [pos.state]; decide) describes.type fresh.tableInv]
      at hstep
    obtain rfl := Option.some_inj.mp hstep
    refine .bound ⟨rfl, rfl, pos.toServer, pos.greeted, pos.requested⟩ mem same ?_ history
    simp only [if_true]
    -- the bound entries are the described registrations, as far as the table goes
    have hregions : (heldChunks c).map s.server.rdmaRemote.mrList =
        (((marked m).map (boundChunk m)).map fun e => (e.remoteAddr, e.remoteRkey)).map
          fun p => some (IbvMr.mk p.1 p.2) := by
      rw [describes.marks, List.map_map, List.map_map]
      exact List.map_congr_left describes.region
    rw [fresh.mappedChunks_append, fresh.cursor, hregions, Nat.sub_zero, List.map_take,
      List.map_take]

/-- The first grant to a connection records every free chunk, and its message carries
their registrations. -/
theorem describes_grant {v : RdmaSession (pairedConfig base)} {d : Connection (pairedConfig base)}
    {k : Slot (pairedConfig base)} {rkeys : Chunk (pairedConfig base) → BitVec 32}
    {target amount sizeGb : ℤ} (hkeys : ∀ i, rkeys i ≠ 0) (hnone : heldChunks d = [])
    (htarget : (freeChunks v.rdmaRemote).length ≤ target) :
    let c := grantConn rkeys (granted v.rdmaRemote target) amount .sendChunks sizeGb v.rdmaRemote d
    heldChunks c = freeChunks v.rdmaRemote ∧
      Describes (grantSession v d k rkeys target amount .sendChunks sizeGb) c c.sendMsg := by
  intro c
  have hfree : ∀ i, i ∈ granted v.rdmaRemote target ↔ freeChunk v.rdmaRemote i = true := by
    intro i
    rw [granted_eq_freeChunks htarget, mem_freeChunks, freeChunk_iff]
  -- the connection starts with nothing, so after the grant it records what was granted
  have hunheld : ∀ i, d.sessChunkMap i = -1 := by
    intro i
    by_contra hi
    have := mem_heldChunks.mpr hi
    simp [hnone] at this
  have hheld : heldChunks c = freeChunks v.rdmaRemote := by
    refine List.filter_congr fun i _ => ?_
    have hval : ((i : ℕ) : ℤ) ≠ -1 := by omega
    rw [Bool.eq_iff_iff, ← hfree i, decide_eq_true_eq]
    change (if i ∈ granted v.rdmaRemote target then ((i : ℕ) : ℤ) else d.sessChunkMap i) ≠ -1 ↔ _
    split_ifs with hi
    · exact iff_of_true hval hi
    · exact iff_of_false (not_not.mpr (hunheld i)) hi
  refine ⟨hheld, rfl, ?_, ?_⟩
  · rw [hheld]
    refine List.filter_congr fun i _ => ?_
    -- a granted position is marked because its key is not zero
    have hkey : htonl .little (rkeys i) ≠ 0 := mt (htonl_eq_zero_iff _ _).mp (hkeys i)
    rw [Bool.eq_iff_iff, ← hfree i, decide_eq_true_eq]
    change (if i ∈ granted v.rdmaRemote target then htonl .little (rkeys i) else 0) ≠ 0 ↔ _
    split_ifs with hi
    · exact iff_of_true hkey hi
    · exact iff_of_false (not_not.mpr rfl) hi
  · intro i hi
    rw [hheld, mem_freeChunks, ← freeChunk_iff, ← hfree] at hi
    simp [c, grantConn, grantSession, RdmaSession.rewrite, grantRemote, boundChunk, hi]

/-- The answer: the history now says whether what was granted fits the table. -/
theorem Phase.of_answer (hown : WellOwned s.server) (h : Phase cid s Q)
    {rkeys : Chunk (pairedConfig base) → BitVec 32} (hkeys : ∀ i, rkeys i ≠ 0)
    (hstep : s.step cid (.answer rkeys) = some t) :
    Phase cid t (Q ∧ s.AnswerFits (.answer rkeys)) := by
  rw [System.step] at hstep
  cases h with
  | connecting _ pos _ _ | greeting _ pos _ _ | sized _ pos _ _ | answered _ pos _ _ _ _
  | bound pos _ _ _ _ =>
    -- no request is on its way to the server
    simp [pos.toServer] at hstep
  | asking fresh pos none history =>
    simp only [pos.toServer] at hstep
    change System.reply cid _ (.requestChunks cid chunkPositions rkeys) = some t at hstep
    obtain ⟨v, c, hv, hc, rfl⟩ := System.exists_of_reply hstep
    have hop : OwnDone s.server (.requestChunks cid chunkPositions rkeys) := trivial
    have heff := step_effect hown hop hv
    have hown' := hown.of_effect heff
    cases heff with
    | @grantMany _ _ _ d k mem same slot =>
      -- the client asks for as many chunks as the tables have positions, so for all free ones
      have hfits : ((freeChunks s.server.rdmaRemote).length : ℤ) ≤
          Int.tdiv (chunkPositions : ℕ) Server.chunkSizeGb := by
        rw [Server.chunkSizeGb, Int.tdiv_one]
        exact_mod_cast length_freeChunks_le s.server.rdmaRemote
      obtain ⟨hheld, hdescribes⟩ := describes_grant hkeys (none d mem same) hfits
      have hc' := hown'.conn?_eq_some (mem_rewriteKey_self mem rfl) same
      obtain rfl := Option.some_inj.mp (hc'.symm.trans hc)
      refine .answered fresh ⟨pos.state, by simp [pos.toClient], rfl, pos.greeted, pos.requested⟩
        (mem_rewriteKey_self mem rfl) same hdescribes ?_
      rw [hheld, and_iff_right history]
      rfl

theorem Phase.of_step (hown : WellOwned s.server) (h : Phase cid s Q) {op : SystemOp base}
    (hadm : s.Admitted op) (hstep : s.step cid op = some t) :
    WellOwned t.server ∧ Phase cid t (Q ∧ s.AnswerFits op) := by
  -- only an answer can fail to fit
  have hquiet : ∀ {op : SystemOp base}, s.AnswerFits op → Phase cid t Q →
      Phase cid t (Q ∧ s.AnswerFits op) := fun hfits ht => by rwa [and_iff_left hfits]
  cases op with
  | server op =>
    rw [System.step] at hstep
    split_ifs at hstep with hother
    obtain ⟨v, hv, rfl⟩ := Option.map_eq_some_iff.mp hstep
    have heff := step_effect hown hadm hv
    exact ⟨hown.of_effect heff, hquiet trivial (h.of_server hown hother heff)⟩
  | accept mem =>
    obtain ⟨v, hv, rfl⟩ := Option.map_eq_some_iff.mp hstep
    have hop : OwnDone s.server (.buildConnection cid mem) := hadm
    exact ⟨hown.of_effect (step_effect hown hop hv), hquiet trivial (h.of_accept hown hadm hv)⟩
  | established =>
    rw [System.step] at hstep
    split_ifs at hstep with hready
    obtain rfl := Option.some_inj.mp hstep
    exact ⟨hown, hquiet trivial (h.of_established hready.2)⟩
  | sendFreeSize =>
    rw [System.step] at hstep
    split_ifs at hstep with hready
    have hphase := h.of_sendFreeSize hown hready.1 hready.2 hstep
    obtain ⟨v, c, hv, -, rfl⟩ := System.exists_of_reply hstep
    have hop : OwnDone s.server (.sendFreeMemSize cid) := trivial
    exact ⟨hown.of_effect (step_effect hown hop hv), hquiet trivial hphase⟩
  | deliver kzalloc =>
    refine ⟨?_, hquiet trivial (h.of_deliver hstep)⟩
    rw [System.step] at hstep
    split at hstep
    · cases hstep
    · obtain ⟨p, -, hrest⟩ := Option.bind_eq_some_iff.mp hstep
      obtain rfl := Option.some_inj.mp hrest
      exact hown
  | request =>
    rw [System.step] at hstep
    split_ifs at hstep with hready
    obtain rfl := Option.some_inj.mp hstep
    exact ⟨hown, hquiet trivial (h.of_request hready.1 hready.2)⟩
  | answer rkeys =>
    refine ⟨?_, h.of_answer hown hadm hstep⟩
    rw [System.step] at hstep
    split at hstep
    · cases hstep
    · obtain ⟨op, hop, hrest⟩ := Option.bind_eq_some_iff.mp hstep
      obtain ⟨v, c, hv, -, rfl⟩ := System.exists_of_reply hrest
      have hown' : OwnDone s.server op := by
        rw [requestOp.eq_def] at hop
        split at hop <;> cases hop <;> trivial
      exact hown.of_effect (step_effect hown hown' hv)

/-- In the last phase the tables agree exactly when the history is good. -/
theorem Phase.agree_iff (hown : WellOwned s.server) (h : Phase cid s Q)
    (hstate : s.client.state = .receivedChunks) : s.Agree cid ↔ Q := by
  cases h with
  | connecting early pos none history =>
    rcases early with rfl | rfl
    · exact absurd (pos.state.symm.trans hstate) (by decide)
    · exact absurd (pos.state.symm.trans hstate) (by decide)
  | greeting _ pos _ _ | sized _ pos _ _ | asking _ pos _ _ | answered _ pos _ _ _ _ =>
    exact absurd (pos.state.symm.trans hstate) (by decide)
  | @bound c n pos mem same entries history =>
    -- both sides list the same chunks, the client's list cut at the length of its table
    have hconn := hown.conn?_eq_some mem same
    rw [history, System.Agree, entries]
    constructor
    · rintro ⟨d, hd, htake⟩
      obtain rfl := Option.some_inj.mp (hd.symm.trans hconn)
      rw [List.take_eq_self_iff, List.length_map] at htake
      exact htake
    · intro hfits
      refine ⟨c, hconn, List.take_of_length_le ?_⟩
      rwa [List.length_map]

end Steps

theorem phase_init (cid : ℕ) (freeMemG : ℤ) (memalign : Chunk (pairedConfig base) → BitVec 64) :
    Phase cid (System.init freeMemG memalign) True :=
  .connecting (Or.inl rfl) ⟨rfl, rfl, rfl, rfl, rfl⟩ (fun _ hc => absurd hc List.not_mem_nil)
    trivial

/-- Whenever the client has reached `RECEIVED_CHUNKS`, its table agrees with the server's
record if and only if the answer was given while no more chunks were free than the
client's table has entries. -/
theorem chunks_agree_iff (cid : ℕ) (freeMemG : ℤ)
    (memalign : Chunk (pairedConfig base) → BitVec 64) (ops : List (SystemOp base))
    (s : System base)
    (hops : EachStep (System.step cid) System.Admitted (System.init freeMemG memalign) ops)
    (hrun : run (System.step cid) (System.init freeMemG memalign) ops = some s)
    (hstate : s.client.state = .receivedChunks) :
    s.Agree cid ↔
      EachStep (System.step cid) System.AnswerFits (System.init freeMemG memalign) ops := by
  have hrunPhase := run_history
    (J := fun s Q => WellOwned s.server ∧ Phase cid s Q)
    (fun _ _ _ _ h hadm hstep => h.2.of_step h.1 hadm hstep)
    ⟨wellOwned_init freeMemG memalign, phase_init cid freeMemG memalign⟩ hops hrun
  rw [true_and] at hrunPhase
  exact hrunPhase.2.agree_iff hrunPhase.1 hstate

/-- The exchange with `between` happening at the server before the answer. -/
def exchange (between : List (SystemOp defaultConfig)) : List (SystemOp defaultConfig) :=
  [.accept blankConnection, .established, .sendFreeSize, .deliver true, .request] ++ between ++
    [.answer (fun i => i.val + 5), .deliver true]

theorem chunks_agree_iff_exchange :
    ∃ s, run (System.step 7) (System.init 11 fun i => i.val * 0x40000000) (exchange []) = some s ∧
      s.client.state = .receivedChunks ∧ s.Agree 7 := by
  have hends : (run (System.step 7) (System.init 11 fun i => i.val * 0x40000000)
      (exchange [])).any fun s => s.client.state = .receivedChunks := by decide +kernel
  obtain ⟨s, hs, hstate⟩ := (Option.any_eq_true _ _).mp hends
  have hstate := of_decide_eq_true hstate
  exact ⟨s, hs, hstate,
    (chunks_agree_iff 7 11 _ (exchange []) s (by decide +kernel) hs hstate).mpr
      (by decide +kernel)⟩

/-- One chunk is announced, the pool grows by two before the answer, and the client
drops two of the three chunks the server counts as mapped. -/
theorem chunks_disagree_after_expansion :
    let ops := exchange [.server (.expand 18 fun i => i.val * 0x40000000)]
    EachStep (System.step 7) System.Admitted (System.init 9 fun i => i.val * 0x40000000) ops ∧
      ∃ s, run (System.step 7) (System.init 9 fun i => i.val * 0x40000000) ops = some s ∧
        s.client.state = .receivedChunks ∧
        (mappedChunks s.client.remoteChunkList).length = 1 ∧
        (s.server.conn? 7).map (fun c => (heldChunks c).length) = some 3 ∧ ¬ s.Agree 7 := by
  intro ops
  have hends : (run (System.step 7) (System.init 9 fun i => i.val * 0x40000000) ops).any
      fun s => s.client.state = .receivedChunks ∧
        (mappedChunks s.client.remoteChunkList).length = 1 ∧
        (s.server.conn? 7).map (fun c => (heldChunks c).length) = some 3 := by decide +kernel
  obtain ⟨s, hs, hcounts⟩ := (Option.any_eq_true _ _).mp hends
  obtain ⟨hstate, hclient, hserver⟩ := of_decide_eq_true hcounts
  refine ⟨by decide +kernel, s, hs, hstate, hclient, hserver, ?_⟩
  rintro ⟨c, hc, hagree⟩
  have hlen := congrArg List.length hagree
  rw [hc, Option.map_some, Option.some_inj] at hserver
  rw [List.length_map, List.length_map, hclient, hserver] at hlen
  omega

end SystemDev.Octopus
