import SystemDev.Server.Session

/-!
# What each server operation does to the tables

Every operation of the server is a loop over the chunk tables. The lemmas here give
each one its closed form: the chunks it acted on, and the tables and counters after
it. The invariants are proved from these forms alone.
-/

namespace SystemDev.Server

open SystemDev.Library SystemDev.Rdma

variable {cfg : ServerConfig}

/-- A count of chunks fits an `int`, so a counter that is to hold one is not reduced. -/
theorem wrapInt_chunks {n : ℕ} (h : n ≤ cfg.maxFreeMemGb) : wrapInt n = n := by
  have hmax := cfg.max_lt
  exact wrapInt_of_isInt ⟨by omega, by omega⟩

/-- The chunks that are allocated and unmapped, in index order. -/
def freeChunks (r : RdmaRemoteMem cfg) : List (Chunk cfg) :=
  (List.finRange cfg.maxFreeMemGb).filter (freeChunk r)

@[simp] theorem freeChunk_iff {r : RdmaRemoteMem cfg} {i : Chunk cfg} :
    freeChunk r i = true ↔ r.mallocMap i = .malloced ∧ r.connMap i = -1 := by
  simp [freeChunk]

@[simp] theorem mem_freeChunks {r : RdmaRemoteMem cfg} {i : Chunk cfg} :
    i ∈ freeChunks r ↔ r.mallocMap i = .malloced ∧ r.connMap i = -1 := by
  simp [freeChunks]

theorem freeChunks_nodup (r : RdmaRemoteMem cfg) : (freeChunks r).Nodup :=
  (List.nodup_finRange _).filter _

/-! ### Grants -/

/-- The chunks a grant loop with the given target takes. -/
def granted (r : RdmaRemoteMem cfg) (target : ℤ) : List (Chunk cfg) :=
  chosen (reaches target) 0 (freeChunks r)

theorem granted_nodup (r : RdmaRemoteMem cfg) (target : ℤ) : (granted r target).Nodup :=
  (freeChunks_nodup r).sublist (chosen_sublist _ _ _)

theorem free_of_mem_granted {r : RdmaRemoteMem cfg} {target : ℤ} {i : Chunk cfg}
    (h : i ∈ granted r target) : r.mallocMap i = .malloced ∧ r.connMap i = -1 :=
  mem_freeChunks.mp (mem_of_mem_chosen h)

theorem length_granted (r : RdmaRemoteMem cfg) (target : ℤ) :
    (granted r target).length =
      if 0 < target then min target.toNat (freeChunks r).length else (freeChunks r).length :=
  length_chosen_reaches target (freeChunks r)

theorem length_freeChunks_le (r : RdmaRemoteMem cfg) : (freeChunks r).length ≤ cfg.maxFreeMemGb :=
  (List.length_filter_le _ _).trans_eq (List.length_finRange)

theorem length_granted_le (r : RdmaRemoteMem cfg) (target : ℤ) :
    (granted r target).length ≤ cfg.maxFreeMemGb :=
  (chosen_sublist _ _ _).length_le.trans (length_freeChunks_le r)

/-- A target of at least the number of free chunks takes them all. -/
theorem granted_eq_freeChunks {r : RdmaRemoteMem cfg} {target : ℤ}
    (h : (freeChunks r).length ≤ target) : granted r target = freeChunks r := by
  rcases lt_or_ge 0 target with hpos | hneg
  · rw [granted, chosen_reaches_of_lt _ (by simpa using hpos)]
    exact List.take_of_length_le (by omega)
  · exact chosen_reaches_of_le _ (by simpa using hneg)

private theorem grantChunk_independent (rkeys : Chunk cfg → BitVec 32) :
    Independent (fun (g : RdmaRemoteMem cfg × Connection cfg) i => freeChunk g.1 i)
      (grantChunk rkeys) := by
  intro g i j hij
  simp [freeChunk, grantChunk, Function.update_of_ne hij.symm]

/-- The tables after granting the listed chunks to `c`. -/
def grantRemote (rkeys : Chunk cfg → BitVec 32) (l : List (Chunk cfg)) (amount : ℤ)
    (c : Connection cfg) (r : RdmaRemoteMem cfg) : RdmaRemoteMem cfg :=
  { r with
    connMap := fun i => if i ∈ l then c.connIndex else r.connMap i
    mrList := fun i => if i ∈ l then some ⟨r.regionList i, rkeys i⟩ else r.mrList i
    mappedSize := wrapInt (r.mappedSize + amount) }

/-- The connection after granting it the listed chunks. -/
def grantConn (rkeys : Chunk cfg → BitVec 32) (l : List (Chunk cfg)) (amount : ℤ)
    (type : MessageType) (sizeGb : ℤ) (r : RdmaRemoteMem cfg) (c : Connection cfg) :
    Connection cfg :=
  { c with
    sessChunkMap := fun i => if i ∈ l then ((i : ℕ) : ℤ) else c.sessChunkMap i
    mappedChunkSize := wrapInt (c.mappedChunkSize + amount)
    sendMsg :=
      { buf := fun i => if i ∈ l then htonll .little (r.regionList i) else c.sendMsg.buf i
        rkey := fun i => if i ∈ l then htonl .little (rkeys i) else 0
        sizeGb := sizeGb
        type := type } }

private theorem foldl_grantChunk (rkeys : Chunk cfg → BitVec 32) (l : List (Chunk cfg))
    (r : RdmaRemoteMem cfg) (c : Connection cfg) :
    l.foldl (grantChunk rkeys) (r, c) =
      ({ r with
          connMap := fun i => if i ∈ l then c.connIndex else r.connMap i
          mrList := fun i => if i ∈ l then some ⟨r.regionList i, rkeys i⟩ else r.mrList i },
        { c with
          sessChunkMap := fun i => if i ∈ l then ((i : ℕ) : ℤ) else c.sessChunkMap i
          sendMsg :=
            { c.sendMsg with
              buf := fun i => if i ∈ l then htonll .little (r.regionList i) else c.sendMsg.buf i
              rkey := fun i =>
                if i ∈ l then htonl .little (rkeys i) else c.sendMsg.rkey i } }) := by
  -- the written values read only the connection index and the region addresses
  let P : RdmaRemoteMem cfg × Connection cfg → Prop := fun g =>
    g.2.connIndex = c.connIndex ∧ g.1.regionList = r.regionList
  have hP : P (r, c) := ⟨rfl, rfl⟩
  have keep : ∀ g i, P g → P (grantChunk rkeys g i) := fun g i h => h
  have hconnMap := foldl_writes (grantChunk rkeys) (fun g => g.1.connMap)
    (fun _ => c.connIndex) P keep (fun g i h => by rw [← h.1]; rfl) l hP
  have hmrList := foldl_writes (grantChunk rkeys) (fun g => g.1.mrList)
    (fun i => some ⟨r.regionList i, rkeys i⟩) P keep (fun g i h => by rw [← h.2]; rfl) l hP
  have hsess := foldl_writes (grantChunk rkeys) (fun g => g.2.sessChunkMap)
    (fun i => ((i : ℕ) : ℤ)) P keep (fun g i _ => rfl) l hP
  have hbuf := foldl_writes (grantChunk rkeys) (fun g => g.2.sendMsg.buf)
    (fun i => htonll .little (r.regionList i)) P keep (fun g i h => by rw [← h.2]; rfl) l hP
  have hrkey := foldl_writes (grantChunk rkeys) (fun g => g.2.sendMsg.rkey)
    (fun i => htonl .little (rkeys i)) P keep (fun g i _ => rfl) l hP
  -- all other fields are untouched
  have hremote := foldl_keeps (grantChunk rkeys)
    (fun g => (g.1.regionList, g.1.sizeGb, g.1.mappedSize, g.1.mallocMap, g.1.connChunkMap))
    (fun _ _ => rfl) l (r, c)
  have hconn := foldl_keeps (grantChunk rkeys)
    (fun g => (g.2.id, g.2.connIndex, g.2.mappedChunkSize, g.2.sendMsg.sizeGb, g.2.sendMsg.type))
    (fun _ _ => rfl) l (r, c)
  simp only [Prod.mk.injEq] at hremote hconn
  obtain ⟨hregion, hsize, hmapped, hmalloc, hchunk⟩ := hremote
  obtain ⟨hid, hindex, hcount, hmsgSize, htype⟩ := hconn
  exact Prod.ext (RdmaRemoteMem.ext hregion hmrList hsize hmapped hconnMap hmalloc hchunk)
    (Connection.ext hid hindex hsess hcount (Message.ext hbuf hrkey hmsgSize htype))

/-- A grant function records the chunks its loop takes and counts `amount`. -/
theorem grantChunks_eq (rkeys : Chunk cfg → BitVec 32) (target amount : ℤ) (type : MessageType)
    (r : RdmaRemoteMem cfg) (c : Connection cfg) (sizeGb : ℤ) :
    grantChunks rkeys target amount type r c sizeGb =
      (grantRemote rkeys (granted r target) amount c r,
        grantConn rkeys (granted r target) amount type sizeGb r c) := by
  rw [grantChunks, scan_fst (grantChunk_independent rkeys) (List.nodup_finRange _),
    foldl_grantChunk]
  rfl

/-! ### Releases -/

/-- The positions a `DONE` message flags. -/
def flagged (msg : Message cfg.maxFreeMemGb) : List (Chunk cfg) :=
  (List.finRange cfg.maxFreeMemGb).filter fun i => msg.rkey i ≠ 0

@[simp] theorem mem_flagged {msg : Message cfg.maxFreeMemGb} {i : Chunk cfg} :
    i ∈ flagged msg ↔ msg.rkey i ≠ 0 := by
  simp [flagged]

theorem length_flagged_le (msg : Message cfg.maxFreeMemGb) :
    (flagged msg).length ≤ cfg.maxFreeMemGb :=
  (List.length_filter_le _ _).trans_eq List.length_finRange

theorem flagged_nodup (msg : Message cfg.maxFreeMemGb) : (flagged msg).Nodup :=
  (List.nodup_finRange _).filter _

/-- The tables after the listed chunks were stopped. -/
def stopRemote (l : List (Chunk cfg)) (amount : ℤ) (r : RdmaRemoteMem cfg) : RdmaRemoteMem cfg :=
  { r with
    connMap := fun i => if i ∈ l then -1 else r.connMap i
    mallocMap := fun i => if i ∈ l then .empty else r.mallocMap i
    connChunkMap := fun i => if i ∈ l then -1 else r.connChunkMap i
    sizeGb := wrapInt (r.sizeGb - amount)
    mappedSize := wrapInt (r.mappedSize - amount) }

/-- The connection after its listed chunks were stopped. -/
def stopConn (l : List (Chunk cfg)) (amount : ℤ) (c : Connection cfg) : Connection cfg :=
  { c with
    sessChunkMap := fun i => if i ∈ l then -1 else c.sessChunkMap i
    mappedChunkSize := wrapInt (c.mappedChunkSize - amount) }

/-- The effect of stopping chunk `i` when it is recorded at its own position. -/
private def stopOwn (g : RdmaRemoteMem cfg × Connection cfg) (i : Chunk cfg) :
    RdmaRemoteMem cfg × Connection cfg :=
  ({ g.1 with
      connMap := Function.update g.1.connMap i (-1)
      mallocMap := Function.update g.1.mallocMap i .empty
      connChunkMap := Function.update g.1.connChunkMap i (-1) },
    { g.2 with sessChunkMap := Function.update g.2.sessChunkMap i (-1) })

private theorem foldl_stopOwn (l : List (Chunk cfg)) (r : RdmaRemoteMem cfg)
    (c : Connection cfg) :
    l.foldl stopOwn (r, c) =
      ({ r with
          connMap := fun i => if i ∈ l then -1 else r.connMap i
          mallocMap := fun i => if i ∈ l then .empty else r.mallocMap i
          connChunkMap := fun i => if i ∈ l then -1 else r.connChunkMap i },
        { c with sessChunkMap := fun i => if i ∈ l then -1 else c.sessChunkMap i }) := by
  have hconnMap := foldl_writes stopOwn (fun g => g.1.connMap) (fun _ => -1) (fun _ => True)
    (fun _ _ h => h) (fun _ _ _ => rfl) l (s := (r, c)) trivial
  have hmalloc := foldl_writes stopOwn (fun g => g.1.mallocMap) (fun _ => .empty)
    (fun _ => True) (fun _ _ h => h) (fun _ _ _ => rfl) l (s := (r, c)) trivial
  have hchunk := foldl_writes stopOwn (fun g => g.1.connChunkMap) (fun _ => -1)
    (fun _ => True) (fun _ _ h => h) (fun _ _ _ => rfl) l (s := (r, c)) trivial
  have hsess := foldl_writes stopOwn (fun g => g.2.sessChunkMap) (fun _ => -1)
    (fun _ => True) (fun _ _ h => h) (fun _ _ _ => rfl) l (s := (r, c)) trivial
  have hremote := foldl_keeps stopOwn
    (fun g => (g.1.regionList, g.1.mrList, g.1.sizeGb, g.1.mappedSize)) (fun _ _ => rfl) l (r, c)
  have hconn := foldl_keeps stopOwn
    (fun g => (g.2.id, g.2.connIndex, g.2.mappedChunkSize, g.2.sendMsg)) (fun _ _ => rfl) l (r, c)
  simp only [Prod.mk.injEq] at hremote hconn
  obtain ⟨hregion, hmr, hsize, hmapped⟩ := hremote
  obtain ⟨hid, hindex, hcount, hmsg⟩ := hconn
  exact Prod.ext (RdmaRemoteMem.ext hregion hmr hsize hmapped hconnMap hmalloc hchunk)
    (Connection.ext hid hindex hsess hcount hmsg)

private theorem foldlM_stopChunk {msg : Message cfg.maxFreeMemGb} {r : RdmaRemoteMem cfg}
    {c : Connection cfg} (hown : ∀ i, msg.rkey i ≠ 0 → c.sessChunkMap i = ((i : ℕ) : ℤ)) :
    (List.finRange cfg.maxFreeMemGb).foldlM (stopChunk msg) (r, c) =
      some ((flagged msg).foldl stopOwn (r, c)) := by
  -- stopping one position does not disturb the entries at the positions still ahead
  rw [foldlM_eq_some_foldl (fun g i => if decide (msg.rkey i ≠ 0) then stopOwn g i else g)
    (R := fun l g => l.Nodup ∧ ∀ i ∈ l, msg.rkey i ≠ 0 → g.2.sessChunkMap i = ((i : ℕ) : ℤ))
    ?_ _ ⟨List.nodup_finRange _, fun i _ => hown i⟩, flagged, List.foldl_filter]
  -- one turn: a position that is not flagged is skipped, a flagged one holds its own chunk
  rintro i l g ⟨hnd, hg⟩
  obtain ⟨hi, hnd'⟩ := List.nodup_cons.mp hnd
  by_cases hflag : msg.rkey i = 0
  · rw [stopChunk, if_pos hflag, if_neg (by simpa using hflag)]
    exact ⟨rfl, hnd', fun j hj => hg j (List.mem_cons_of_mem i hj)⟩
  · rw [stopChunk, if_neg hflag, if_pos (by simpa using hflag),
      hg i List.mem_cons_self hflag, index?_coe]
    refine ⟨rfl, hnd', fun j hj hj' => ?_⟩
    have hji : j ≠ i := by
      rintro rfl
      exact hi hj
    rw [← hg j (List.mem_cons_of_mem i hj) hj']
    exact Function.update_of_ne hji _ _

/-- A flagged position that is stopped records a chunk, and the others keep what they do. -/
private theorem recorded_of_stopChunk {msg : Message cfg.maxFreeMemGb} {i : Chunk cfg}
    {g u : RdmaRemoteMem cfg × Connection cfg} (h : stopChunk msg g i = some u) :
    (msg.rkey i ≠ 0 → g.2.sessChunkMap i ≠ -1) ∧
      ∀ j, j ≠ i → u.2.sessChunkMap j = g.2.sessChunkMap j := by
  rw [stopChunk] at h
  split_ifs at h with hzero
  · obtain rfl := Option.some_inj.mp h
    exact ⟨fun hflag => absurd hzero hflag, fun _ _ => rfl⟩
  · obtain ⟨index, hindex, rfl⟩ := Option.map_eq_some_iff.mp h
    refine ⟨fun _ hnone => ?_, fun j hj => Function.update_of_ne hj _ _⟩
    rw [hnone] at hindex
    cases hindex

/-- The loop of `recv_done` gets to its end only if every flagged position records a chunk. -/
private theorem recorded_of_foldlM_stopChunk {msg : Message cfg.maxFreeMemGb}
    {l : List (Chunk cfg)} (hnd : l.Nodup) {g g' : RdmaRemoteMem cfg × Connection cfg}
    (h : l.foldlM (stopChunk msg) g = some g') :
    ∀ i ∈ l, msg.rkey i ≠ 0 → g.2.sessChunkMap i ≠ -1 := by
  induction l generalizing g with
  | nil => simp
  | cons i l ih =>
    obtain ⟨hi, hnd'⟩ := List.nodup_cons.mp hnd
    rw [List.foldlM_cons] at h
    obtain ⟨u, hu, hrest⟩ := Option.bind_eq_some_iff.mp h
    obtain ⟨hhead, hothers⟩ := recorded_of_stopChunk hu
    intro j hj hflag
    rcases List.mem_cons.mp hj with rfl | hlater
    · exact hhead hflag
    · have hji : j ≠ i := by
        rintro rfl
        exact hi hlater
      rw [← hothers j hji]
      exact ih hnd' hrest j hlater hflag

theorem recorded_of_recvDone {s t : RdmaSession cfg} {c : Connection cfg}
    {msg : Message cfg.maxFreeMemGb} (h : recvDone s c msg = some t) :
    ∀ i, msg.rkey i ≠ 0 → c.sessChunkMap i ≠ -1 := by
  obtain ⟨g, hg, -⟩ := Option.bind_eq_some_iff.mp h
  exact fun i => recorded_of_foldlM_stopChunk (List.nodup_finRange _) hg i (List.mem_finRange i)

/-- `recv_done` on a message that flags only recorded chunks. -/
theorem recvDone_eq {s : RdmaSession cfg} {c : Connection cfg} {msg : Message cfg.maxFreeMemGb}
    (hown : ∀ i, msg.rkey i ≠ 0 → c.sessChunkMap i = ((i : ℕ) : ℤ)) :
    recvDone s c msg =
      let r := stopRemote (flagged msg) msg.sizeGb s.rdmaRemote
      let c' := stopConn (flagged msg) msg.sizeGb c
      let s' := { s with rdmaRemote := r }.putConn c'
      if c'.mappedChunkSize = 0 then s'.setConnState c' .connected else some s' := by
  rw [recvDone, foldlM_stopChunk hown, foldl_stopOwn]
  rfl

/-- The positions at which a connection records a chunk. -/
def heldChunks (c : Connection cfg) : List (Chunk cfg) :=
  (List.finRange cfg.maxFreeMemGb).filter fun i => c.sessChunkMap i ≠ -1

@[simp] theorem mem_heldChunks {c : Connection cfg} {i : Chunk cfg} :
    i ∈ heldChunks c ↔ c.sessChunkMap i ≠ -1 := by
  simp [heldChunks]

theorem heldChunks_nodup (c : Connection cfg) : (heldChunks c).Nodup :=
  (List.nodup_finRange _).filter _

/-- The tables after the chunks of a closing connection were unmapped. -/
def releaseRemote (c : Connection cfg) (r : RdmaRemoteMem cfg) : RdmaRemoteMem cfg :=
  if 0 < c.mappedChunkSize then
    { r with
      connMap := fun i => if i ∈ heldChunks c then -1 else r.connMap i
      connChunkMap := fun i => if i ∈ heldChunks c then -1 else r.connChunkMap i
      mappedSize := wrapInt (r.mappedSize - c.mappedChunkSize) }
  else r

private def releaseOwn (r : RdmaRemoteMem cfg) (i : Chunk cfg) : RdmaRemoteMem cfg :=
  { r with
    connMap := Function.update r.connMap i (-1)
    connChunkMap := Function.update r.connChunkMap i (-1) }

private theorem foldl_releaseOwn (l : List (Chunk cfg)) (r : RdmaRemoteMem cfg) :
    l.foldl releaseOwn r =
      { r with
        connMap := fun i => if i ∈ l then -1 else r.connMap i
        connChunkMap := fun i => if i ∈ l then -1 else r.connChunkMap i } := by
  have hconnMap := foldl_writes releaseOwn (fun r => r.connMap) (fun _ => -1) (fun _ => True)
    (fun _ _ h => h) (fun _ _ _ => rfl) l (s := r) trivial
  have hchunk := foldl_writes releaseOwn (fun r => r.connChunkMap) (fun _ => -1)
    (fun _ => True) (fun _ _ h => h) (fun _ _ _ => rfl) l (s := r) trivial
  have hkeep := foldl_keeps releaseOwn
    (fun r => (r.regionList, r.mrList, r.sizeGb, r.mappedSize, r.mallocMap)) (fun _ _ => rfl) l r
  simp only [Prod.mk.injEq] at hkeep
  obtain ⟨hregion, hmr, hsize, hmapped, hmalloc⟩ := hkeep
  exact RdmaRemoteMem.ext hregion hmr hsize hmapped hconnMap hmalloc hchunk

/-- `destroy_connection` on a connection whose map records chunks at their own
positions and whose index is a slot. -/
theorem destroyConnection_eq {s : RdmaSession cfg} {c : Connection cfg} {k : Slot cfg}
    (hown : ∀ i, c.sessChunkMap i ≠ -1 → c.sessChunkMap i = ((i : ℕ) : ℤ))
    (hk : c.connIndex = (k : ℕ)) :
    destroyConnection s c =
      some
        { s with
          live := s.live.filter fun d => d.id ≠ c.id
          conns := Function.update s.conns k none
          connsState := Function.update s.connsState k .idle
          connNum := s.connNum - 1
          rdmaRemote := releaseRemote c s.rdmaRemote
          running := if s.connNum - 1 = 0 then false else s.running } := by
  -- every recorded value is in range, so the loop returns
  have hloop : (List.finRange cfg.maxFreeMemGb).foldlM (releaseChunk c) s.rdmaRemote =
      some ((heldChunks c).foldl releaseOwn s.rdmaRemote) := by
    rw [foldlM_eq_some_foldl
      (fun r i => if decide (c.sessChunkMap i ≠ -1) then releaseOwn r i else r)
      (R := fun _ _ => True) ?_ _ trivial, heldChunks, List.foldl_filter]
    intro i l r _
    by_cases hi : c.sessChunkMap i = -1
    · simp [releaseChunk, hi]
    · simp [releaseChunk, hown i hi, releaseOwn]
  rw [destroyConnection, hloop, foldl_releaseOwn, hk, index?_coe]
  by_cases hpos : 0 < c.mappedChunkSize
  · simp [releaseRemote, hpos]
  · simp [releaseRemote, hpos]

/-- `destroy_connection` clears the slot of the connection, so it has one. -/
theorem exists_slot_of_destroyConnection {s t : RdmaSession cfg} {c : Connection cfg}
    (h : destroyConnection s c = some t) : ∃ k : Slot cfg, c.connIndex = (k : ℕ) := by
  cases hindex : index? cfg.maxClient c.connIndex with
  | none =>
    rw [destroyConnection, hindex] at h
    split_ifs at h <;> simp at h
  | some k => exact ⟨k, index?_eq_some_iff.mp hindex⟩

/-! ### Pool size -/

/-- The chunks `free_mem` may allocate, in index order. -/
def emptyChunks (r : RdmaRemoteMem cfg) : List (Chunk cfg) :=
  (List.finRange cfg.maxFreeMemGb).filter fun i => r.mallocMap i = .empty

@[simp] theorem mem_emptyChunks {r : RdmaRemoteMem cfg} {i : Chunk cfg} :
    i ∈ emptyChunks r ↔ r.mallocMap i = .empty := by
  simp [emptyChunks]

/-- The chunks an expansion by `e` allocates. -/
def expanded (r : RdmaRemoteMem cfg) (e : ℤ) : List (Chunk cfg) :=
  chosen (reaches e) 0 (emptyChunks r)

theorem expanded_nodup (r : RdmaRemoteMem cfg) (e : ℤ) : (expanded r e).Nodup :=
  ((List.nodup_finRange _).filter _).sublist (chosen_sublist _ _ _)

theorem empty_of_mem_expanded {r : RdmaRemoteMem cfg} {e : ℤ} {i : Chunk cfg}
    (h : i ∈ expanded r e) : r.mallocMap i = .empty :=
  mem_emptyChunks.mp (mem_of_mem_chosen h)

theorem freeMemExpand_eq (memalign : Chunk cfg → BitVec 64) (r : RdmaRemoteMem cfg) (g : ℤ) :
    freeMemExpand memalign r g =
      let l := expanded r (expandSizeG r g)
      { r with
        regionList := fun i => if i ∈ l then memalign i else r.regionList i
        mallocMap := fun i => if i ∈ l then .malloced else r.mallocMap i
        sizeGb := wrapInt (r.sizeGb + expandSizeG r g) } := by
  let act : RdmaRemoteMem cfg → Chunk cfg → RdmaRemoteMem cfg := fun r i => { r with
    regionList := Function.update r.regionList i (memalign i)
    mallocMap := Function.update r.mallocMap i .malloced }
  have hind : Independent (fun (r : RdmaRemoteMem cfg) i => decide (r.mallocMap i = .empty))
      act := by
    intro r i j hij
    simp [act, Function.update_of_ne hij.symm]
  rw [freeMemExpand, scan_fst hind (List.nodup_finRange _)]
  change (let r' := (expanded r (expandSizeG r g)).foldl act r;
    { r' with sizeGb := wrapInt (r'.sizeGb + expandSizeG r g) }) = _
  -- from here on the chunks are any list: each entry is written once
  generalize expanded r (expandSizeG r g) = l
  have hregion := foldl_writes act (fun r => r.regionList) memalign (fun _ => True)
    (fun _ _ h => h) (fun _ _ _ => rfl) l (s := r) trivial
  have hmalloc := foldl_writes act (fun r => r.mallocMap) (fun _ => .malloced) (fun _ => True)
    (fun _ _ h => h) (fun _ _ _ => rfl) l (s := r) trivial
  have hkeep := foldl_keeps act
    (fun r => (r.mrList, r.sizeGb, r.mappedSize, r.connMap, r.connChunkMap)) (fun _ _ => rfl) l r
  simp only [Prod.mk.injEq] at hkeep
  obtain ⟨hmr, hsize, hmapped, hconnMap, hchunk⟩ := hkeep
  exact RdmaRemoteMem.ext hregion hmr (congrArg (fun n => wrapInt (n + expandSizeG r g)) hsize)
    hmapped hconnMap hmalloc hchunk

theorem evictUnmapped_eq (r : RdmaRemoteMem cfg) (stopG : ℤ) :
    evictUnmapped r stopG =
      let l := granted r stopG
      ({ r with
          mallocMap := fun i => if i ∈ l then .empty else r.mallocMap i
          sizeGb := wrapInt (r.sizeGb - l.length) }, l.length) := by
  let act : RdmaRemoteMem cfg → Chunk cfg → RdmaRemoteMem cfg := fun r i =>
    { r with mallocMap := Function.update r.mallocMap i .empty }
  have hind : Independent (@freeChunk cfg) act := by
    intro r i j hij
    simp [act, freeChunk, Function.update_of_ne hij.symm]
  have hscan : scan freeChunk act (reaches stopG) (List.finRange cfg.maxFreeMemGb) 0 r =
      ((granted r stopG).foldl act r, (granted r stopG).length) := by
    rw [scan_eq hind (List.nodup_finRange _), Nat.zero_add]
    rfl
  rw [evictUnmapped]
  change (let p := scan freeChunk act (reaches stopG) (List.finRange cfg.maxFreeMemGb) 0 r;
    ({ p.1 with sizeGb := wrapInt (p.1.sizeGb - if (p.2 : ℤ) = stopG then stopG else p.2) },
      p.2)) = _
  rw [hscan]
  generalize granted r stopG = l
  have hmalloc := foldl_writes act (fun r => r.mallocMap) (fun _ => .empty) (fun _ => True)
    (fun _ _ h => h) (fun _ _ _ => rfl) l (s := r) trivial
  have hkeep := foldl_keeps act
    (fun r => (r.regionList, r.mrList, r.sizeGb, r.mappedSize, r.connMap, r.connChunkMap))
    (fun _ _ => rfl) l r
  simp only [Prod.mk.injEq] at hkeep
  obtain ⟨hregion, hmr, hsize, hmapped, hconnMap, hchunk⟩ := hkeep
  -- both exits of the loop subtract the number of chunks freed
  have hexit : (if (l.length : ℤ) = stopG then stopG else (l.length : ℤ)) = l.length := by
    split_ifs with h
    · exact h.symm
    · rfl
  refine Prod.ext (RdmaRemoteMem.ext hregion hmr ?_ hmapped hconnMap hmalloc hchunk) rfl
  simp only [hexit, hsize]

end SystemDev.Server
