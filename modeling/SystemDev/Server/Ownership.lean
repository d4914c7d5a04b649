import SystemDev.Library.KeyedList
import SystemDev.Server.Operations

/-!
# Exclusive ownership of remote chunks

A chunk is lent to at most one live connection, and a lent chunk stays allocated.
The argument never looks at the counters: it rests on the guards of the two grant
loops and of the two free loops, and on the slot that each live connection holds.

## Main results

* `step_effect` — everything one admitted step can do to the session
* `WellOwned.of_effect` — the invariant is kept by every step
* `mapped_chunk_is_exclusive` — exclusive ownership along every run
-/

namespace SystemDev.Server

open SystemDev.Library SystemDev.Rdma

variable {cfg : ServerConfig} {s t : RdmaSession cfg} {op : Op cfg} {c d : Connection cfg}

/-! ### Connection objects -/

theorem mem_live_of_conn? {id : ℕ} (h : s.conn? id = some c) : c ∈ s.live ∧ c.id = id :=
  ⟨List.mem_of_find?_eq_some h, by simpa using List.find?_some h⟩

theorem not_mem_live_of_conn?_eq_none {id : ℕ} (h : s.conn? id = none) :
    ∀ d ∈ s.live, d.id ≠ id := by
  simpa [RdmaSession.conn?] using h

/-- Replace a connection object, the chunk tables and the slot states. -/
def RdmaSession.rewrite (s : RdmaSession cfg) (c : Connection cfg) (r : RdmaRemoteMem cfg)
    (states : Slot cfg → ConnState) : RdmaSession cfg :=
  { s.putConn c with rdmaRemote := r, connsState := states }

theorem live_rewrite {r : RdmaRemoteMem cfg} {states : Slot cfg → ConnState} :
    (s.rewrite c r states).live = rewriteKey Connection.id c s.live := rfl

theorem mem_live_rewrite {r : RdmaRemoteMem cfg} {states : Slot cfg → ConnState}
    (h : d ∈ (s.rewrite c r states).live) : d = c ∨ d ∈ s.live ∧ d.id ≠ c.id :=
  mem_rewriteKey h

/-! ### The invariant -/

/-- Every live connection holds a slot of its own, mapped chunks are allocated, and
what a connection records is recorded for it in the session. -/
structure WellOwned (s : RdmaSession cfg) : Prop where
  ids_nodup : (s.live.map Connection.id).Nodup
  slot : ∀ c ∈ s.live, ∃ k : Slot cfg, c.connIndex = (k : ℕ) ∧ s.conns k = some c.id
  idle : ∀ k, s.connsState k = .idle → s.conns k = none
  malloced : ∀ i, s.rdmaRemote.connMap i ≠ -1 → s.rdmaRemote.mallocMap i = .malloced
  recorded : ∀ c ∈ s.live, ∀ i, c.sessChunkMap i ≠ -1 →
    c.sessChunkMap i = ((i : ℕ) : ℤ) ∧ s.rdmaRemote.connMap i = c.connIndex

theorem WellOwned.eq_of_id (h : WellOwned s) (hc : c ∈ s.live) (hd : d ∈ s.live)
    (hid : c.id = d.id) : c = d :=
  List.inj_on_of_nodup_map h.ids_nodup hc hd hid

theorem WellOwned.eq_of_connIndex (h : WellOwned s) (hc : c ∈ s.live) (hd : d ∈ s.live)
    (hindex : c.connIndex = d.connIndex) : c = d := by
  obtain ⟨k, hk, hck⟩ := h.slot c hc
  obtain ⟨l, hl, hdl⟩ := h.slot d hd
  -- one slot points to one object
  have hkl : k = l := by
    rw [hk, hl] at hindex
    exact Fin.ext (Int.ofNat_inj.mp hindex)
  subst hkl
  exact h.eq_of_id hc hd (Option.some_inj.mp (hck.symm.trans hdl))

theorem WellOwned.connIndex_ne (h : WellOwned s) (hc : c ∈ s.live) : c.connIndex ≠ -1 := by
  obtain ⟨k, hk, -⟩ := h.slot c hc
  omega

/-- At most one live connection records a chunk. -/
theorem WellOwned.eq_of_recorded (h : WellOwned s) (hc : c ∈ s.live) (hd : d ∈ s.live)
    {i : Chunk cfg} (hci : c.sessChunkMap i ≠ -1) (hdi : d.sessChunkMap i ≠ -1) : c = d :=
  h.eq_of_connIndex hc hd ((h.recorded c hc i hci).2.symm.trans (h.recorded d hd i hdi).2)

/-- Only chunks recorded by a connection other than `c` have an owner that a change
of `c`'s entries must respect. -/
theorem WellOwned.connMap_of_other (h : WellOwned s) (hc : c ∈ s.live) (hd : d ∈ s.live)
    (hid : d.id ≠ c.id) {i : Chunk cfg} (hdi : d.sessChunkMap i ≠ -1) :
    c.sessChunkMap i = -1 := by
  by_contra hci
  exact hid (congrArg Connection.id (h.eq_of_recorded hd hc hdi hci))

/-! ### Admitted steps and their effects -/

/-- Connections are built while a slot is idle, and a `DONE` message flags only
chunks that its sender holds. -/
def OwnDone (s : RdmaSession cfg) : Op cfg → Prop
  | .buildConnection _ _ => ∃ k, s.connsState k = .idle
  | .done id msg => ∀ c, s.conn? id = some c → ∀ i, msg.rkey i ≠ 0 → c.sessChunkMap i ≠ -1
  | _ => True

instance : ∀ op, Decidable (OwnDone s op)
  | .buildConnection _ _ => inferInstanceAs (Decidable (∃ k, s.connsState k = .idle))
  | .done id msg =>
    match h : s.conn? id with
    | none => .isTrue (by simp [OwnDone, h])
    | some c =>
      decidable_of_iff (∀ i, msg.rkey i ≠ 0 → c.sessChunkMap i ≠ -1) (by simp [OwnDone, h])
  | .sendFreeMemSize _ => .isTrue trivial
  | .requestChunks _ _ _ => .isTrue trivial
  | .requestSingleChunk _ _ _ => .isTrue trivial
  | .destroyConnection _ => .isTrue trivial
  | .expand _ _ => .isTrue trivial
  | .evictUnmapped _ => .isTrue trivial

/-- The session after a request granted the first chunks up to `target`. -/
def grantSession (s : RdmaSession cfg) (c : Connection cfg) (k : Slot cfg)
    (rkeys : Chunk cfg → BitVec 32) (target amount : ℤ) (type : MessageType) (sizeGb : ℤ) :
    RdmaSession cfg :=
  let l := granted s.rdmaRemote target
  s.rewrite (grantConn rkeys l amount type sizeGb s.rdmaRemote c)
    (grantRemote rkeys l amount c s.rdmaRemote) (Function.update s.connsState k .mapped)

/-- Everything an admitted step can do. -/
inductive Effect (s : RdmaSession cfg) : Op cfg → RdmaSession cfg → Prop
  | build {id : ℕ} {mem : Connection cfg} {k : Slot cfg} (new : ∀ d ∈ s.live, d.id ≠ id)
      (idle : s.connsState k = .idle) :
      Effect s (.buildConnection id mem)
        { s with
          live :=
            { mem with
              id := id, connIndex := (k : ℕ), sessChunkMap := fun _ => -1,
              mappedChunkSize := 0 } :: s.live
          conns := Function.update s.conns k (some id)
          connsState := Function.update s.connsState k .connected
          connNum := s.connNum + 1 }
  | reply {id : ℕ} {c : Connection cfg} (mem : c ∈ s.live) (same : c.id = id) :
      Effect s (.sendFreeMemSize id)
        (s.rewrite (sendFreeMemSize s.rdmaRemote c) s.rdmaRemote s.connsState)
  | grantMany {id : ℕ} {sizeGb : ℤ} {rkeys : Chunk cfg → BitVec 32} {c : Connection cfg}
      {k : Slot cfg} (mem : c ∈ s.live) (same : c.id = id) (slot : c.connIndex = (k : ℕ))
      (fits : IsInt sizeGb) :
      Effect s (.requestChunks id sizeGb rkeys)
        (grantSession s c k rkeys (sizeGb.tdiv chunkSizeGb) sizeGb .sendChunks sizeGb)
  | grantOne {id : ℕ} {sizeGb : ℤ} {rkeys : Chunk cfg → BitVec 32} {c : Connection cfg}
      {k : Slot cfg} (mem : c ∈ s.live) (same : c.id = id) (slot : c.connIndex = (k : ℕ)) :
      Effect s (.requestSingleChunk id sizeGb rkeys)
        (grantSession s c k rkeys 1 1 .sendSingleChunk sizeGb)
  | stop {id : ℕ} {msg : Message cfg.maxFreeMemGb} {c : Connection cfg}
      {states : Slot cfg → ConnState} (mem : c ∈ s.live) (same : c.id = id)
      (own : ∀ i, msg.rkey i ≠ 0 → c.sessChunkMap i ≠ -1)
      (kept : ∀ k, states k = .idle → s.connsState k = .idle) :
      Effect s (.done id msg)
        (s.rewrite (stopConn (flagged msg) msg.sizeGb c)
          (stopRemote (flagged msg) msg.sizeGb s.rdmaRemote) states)
  | destroy {id : ℕ} {c : Connection cfg} {k : Slot cfg} {running : Bool} (mem : c ∈ s.live)
      (same : c.id = id) (slot : c.connIndex = (k : ℕ)) :
      Effect s (.destroyConnection id)
        { s with
          live := dropKey Connection.id c s.live
          conns := Function.update s.conns k none
          connsState := Function.update s.connsState k .idle
          connNum := s.connNum - 1
          rdmaRemote := releaseRemote c s.rdmaRemote
          running := running }
  | expand {g : ℤ} {memalign : Chunk cfg → BitVec 64} (above : cfg.freeMemExpandThreshold < g)
      (room : g + cfg.maxFreeMemGb < 2 ^ 31) :
      Effect s (.expand g memalign)
        { s with rdmaRemote := freeMemExpand memalign s.rdmaRemote g }
  | evict {stopG : ℤ} (pos : 0 < stopG) :
      Effect s (.evictUnmapped stopG)
        { s with rdmaRemote := (evictUnmapped s.rdmaRemote stopG).1 }

private theorem serveRequest_eq {rkeys : Chunk cfg → BitVec 32} {target amount sizeGb : ℤ}
    {type : MessageType} {k : Slot cfg} (hk : c.connIndex = (k : ℕ)) :
    serveRequest (fun r c n => grantChunks rkeys target amount type r c n) s c sizeGb =
      some (grantSession s c k rkeys target amount type sizeGb) := by
  rw [serveRequest, grantChunks_eq, RdmaSession.setConnState]
  change Option.map _ (index? cfg.maxClient c.connIndex) = _
  rw [hk, index?_coe]
  rfl

theorem states_of_recvDone {c' : Connection cfg} {s' : RdmaSession cfg}
    (h : (if c'.mappedChunkSize = 0 then s'.setConnState c' .connected else some s') = some t) :
    ∃ states, (∀ k, states k = .idle → s'.connsState k = .idle) ∧
      t = { s' with connsState := states } := by
  split_ifs at h with hzero
  · obtain ⟨k, -, rfl⟩ := Option.map_eq_some_iff.mp h
    refine ⟨_, fun l hl => ?_, rfl⟩
    by_cases hlk : l = k
    · subst hlk
      simp at hl
    · rwa [Function.update_of_ne hlk] at hl
  · obtain rfl := Option.some_inj.mp h
    exact ⟨_, fun _ h => h, rfl⟩

/-- A connection object for which no slot was idle: it is counted, and keeps the
`conn_index` that `malloc` left there. -/
def buildWithoutSlot (s : RdmaSession cfg) (id : ℕ) (mem : Connection cfg) : RdmaSession cfg :=
  { s with
    live := { mem with id := id, sessChunkMap := fun _ => -1, mappedChunkSize := 0 } :: s.live
    connNum := s.connNum + 1 }

/-- Every connection records a chunk at the chunk's own position. -/
def SelfRecorded (s : RdmaSession cfg) : Prop :=
  ∀ c ∈ s.live, ∀ i, c.sessChunkMap i ≠ -1 → c.sessChunkMap i = ((i : ℕ) : ℤ)

private theorem exists_slot_of_serveRequest {grant : RdmaRemoteMem cfg → Connection cfg → ℤ →
    RdmaRemoteMem cfg × Connection cfg} {sizeGb : ℤ}
    (hgrant : (grant s.rdmaRemote c sizeGb).2.connIndex = c.connIndex)
    (h : serveRequest grant s c sizeGb = some t) : ∃ k : Slot cfg, c.connIndex = (k : ℕ) := by
  obtain ⟨k, hk, -⟩ := Option.map_eq_some_iff.mp h
  exact ⟨k, hgrant.symm.trans (index?_eq_some_iff.mp hk)⟩

/-- Inversion of a step: whatever a step does, it does to a connection with a slot, unless it
builds one without. -/
theorem step_cases (hs : SelfRecorded s) (h : step s op = some t) :
    Effect s op t ∨ ∃ id mem, op = .buildConnection id mem ∧ (∀ k, s.connsState k ≠ .idle) ∧
      (∀ d ∈ s.live, d.id ≠ id) ∧ t = buildWithoutSlot s id mem := by
  cases op with
  | buildConnection id mem =>
    rw [step] at h
    split_ifs at h with hnew
    have hnone : s.conn? id = none := by simpa using hnew
    have hids := not_mem_live_of_conn?_eq_none hnone
    obtain rfl := Option.some_inj.mp h
    rw [buildConnection]
    cases hfind : (List.finRange cfg.maxClient).find? fun k => s.connsState k = .idle with
    | none =>
      refine .inr ⟨id, mem, rfl, fun k => ?_, hids, rfl⟩
      simpa using List.find?_eq_none.mp hfind k (List.mem_finRange k)
    | some k => exact .inl (.build hids (by simpa using List.find?_some hfind))
  | sendFreeMemSize id =>
    obtain ⟨c, hc, hrest⟩ := Option.bind_eq_some_iff.mp h
    obtain rfl := Option.some_inj.mp hrest
    exact .inl (.reply (mem_live_of_conn? hc).1 (mem_live_of_conn? hc).2)
  | requestChunks id sizeGb rkeys =>
    obtain ⟨c, hc, hrest⟩ := Option.bind_eq_some_iff.mp h
    obtain ⟨hmem, hid⟩ := mem_live_of_conn? hc
    split_ifs at hrest with hfits
    obtain ⟨k, hk⟩ := exists_slot_of_serveRequest
      (by rw [sendChunksToClient, grantChunks_eq, grantConn]) hrest
    rw [show serveRequest (sendChunksToClient rkeys) s c sizeGb = _ from
      serveRequest_eq hk] at hrest
    obtain rfl := Option.some_inj.mp hrest
    exact .inl (.grantMany hmem hid hk hfits)
  | requestSingleChunk id sizeGb rkeys =>
    obtain ⟨c, hc, hrest⟩ := Option.bind_eq_some_iff.mp h
    obtain ⟨hmem, hid⟩ := mem_live_of_conn? hc
    split_ifs at hrest
    obtain ⟨k, hk⟩ := exists_slot_of_serveRequest
      (by rw [sendSingleChunkToClient, grantChunks_eq, grantConn]) hrest
    rw [show serveRequest (sendSingleChunkToClient rkeys) s c sizeGb = _ from
      serveRequest_eq hk] at hrest
    obtain rfl := Option.some_inj.mp hrest
    exact .inl (.grantOne hmem hid hk)
  | done id msg =>
    obtain ⟨c, hc, hrest⟩ := Option.bind_eq_some_iff.mp h
    obtain ⟨hmem, hid⟩ := mem_live_of_conn? hc
    split_ifs at hrest
    have hown := recorded_of_recvDone hrest
    rw [recvDone_eq fun i hi => hs c hmem i (hown i hi)] at hrest
    obtain ⟨states, hstates, rfl⟩ := states_of_recvDone hrest
    exact .inl (.stop hmem hid hown hstates)
  | destroyConnection id =>
    obtain ⟨c, hc, hrest⟩ := Option.bind_eq_some_iff.mp h
    obtain ⟨hmem, hid⟩ := mem_live_of_conn? hc
    obtain ⟨k, hk⟩ := exists_slot_of_destroyConnection hrest
    rw [destroyConnection_eq (hs c hmem) hk] at hrest
    obtain rfl := Option.some_inj.mp hrest
    exact .inl (.destroy hmem hid hk)
  | expand g memalign =>
    rw [step] at h
    split_ifs at h with hexpand
    obtain rfl := Option.some_inj.mp h
    exact .inl (.expand hexpand.1 hexpand.2)
  | evictUnmapped stopG =>
    rw [step] at h
    split_ifs at h with hpos
    obtain rfl := Option.some_inj.mp h
    exact .inl (.evict hpos.1)

theorem WellOwned.selfRecorded (h : WellOwned s) : SelfRecorded s :=
  fun c hc i hi => (h.recorded c hc i hi).1

/-- Inversion of a step from a well-owned session. -/
theorem step_effect (hs : WellOwned s) (hop : OwnDone s op) (h : step s op = some t) :
    Effect s op t := by
  rcases step_cases hs.selfRecorded h with heff | ⟨id, mem, rfl, hnone, -⟩
  · exact heff
  -- an idle slot exists, so the scan finds one
  · obtain ⟨k, hk⟩ := hop
    exact absurd hk (hnone k)

/-! ### The invariant is kept -/

theorem wellOwned_init (freeMemG : ℤ) (memalign : Chunk cfg → BitVec 64) :
    WellOwned (rdmaSessionInit freeMemG memalign) where
  ids_nodup := List.nodup_nil
  slot := by simp [rdmaSessionInit]
  idle := by simp [rdmaSessionInit]
  malloced := by simp [rdmaSessionInit]
  recorded := by simp [rdmaSessionInit]

/-- Rewriting one connection keeps the invariant when the new tables respect what
that connection and the others record. -/
theorem WellOwned.rewrite (h : WellOwned s) (hc : c ∈ s.live) {c' : Connection cfg}
    {r : RdmaRemoteMem cfg} {states : Slot cfg → ConnState} (hid : c'.id = c.id)
    (hindex : c'.connIndex = c.connIndex)
    (hstates : ∀ k, states k = .idle → s.connsState k = .idle)
    (hmalloced : ∀ i, r.connMap i ≠ -1 → r.mallocMap i = .malloced)
    (hown : ∀ i, c'.sessChunkMap i ≠ -1 →
      c'.sessChunkMap i = ((i : ℕ) : ℤ) ∧ r.connMap i = c.connIndex)
    (hothers : ∀ d ∈ s.live, d.id ≠ c.id → ∀ i, d.sessChunkMap i ≠ -1 →
      r.connMap i = s.rdmaRemote.connMap i) :
    WellOwned (s.rewrite c' r states) where
  ids_nodup := by
    rw [live_rewrite, map_key_rewriteKey]
    exact h.ids_nodup
  slot := by
    intro d hd
    rcases mem_live_rewrite hd with rfl | ⟨hd, -⟩
    · rw [hindex, hid]
      exact h.slot c hc
    · exact h.slot d hd
  idle := fun k hk => h.idle k (hstates k hk)
  malloced := hmalloced
  recorded := by
    intro d hd i hi
    rcases mem_live_rewrite hd with rfl | ⟨hd, hne⟩
    · rw [hindex]
      exact hown i hi
    · rw [hid] at hne
      obtain ⟨hval, hmap⟩ := h.recorded d hd i hi
      exact ⟨hval, (hothers d hd hne i hi).trans hmap⟩

/-- A change of the chunk tables that keeps the owners and every mapped chunk's
allocation keeps the invariant. -/
theorem WellOwned.of_sameOwners (h : WellOwned s) {r : RdmaRemoteMem cfg}
    (hmap : r.connMap = s.rdmaRemote.connMap)
    (hmalloced : ∀ i, s.rdmaRemote.connMap i ≠ -1 → r.mallocMap i = .malloced) :
    WellOwned { s with rdmaRemote := r } where
  ids_nodup := h.ids_nodup
  slot := h.slot
  idle := h.idle
  malloced := fun i hi => hmalloced i (by rwa [hmap] at hi)
  recorded := fun c hc i hi => by
    rw [hmap]
    exact h.recorded c hc i hi

theorem WellOwned.grantSession (h : WellOwned s) (hc : c ∈ s.live) {k : Slot cfg}
    {rkeys : Chunk cfg → BitVec 32} {target amount sizeGb : ℤ} {type : MessageType} :
    WellOwned (grantSession s c k rkeys target amount type sizeGb) := by
  refine h.rewrite hc rfl rfl ?_ ?_ ?_ ?_
  · intro l hl
    by_cases hlk : l = k
    · subst hlk
      simp at hl
    · rwa [Function.update_of_ne hlk] at hl
  · intro i hi
    by_cases hg : i ∈ granted s.rdmaRemote target
    · exact (free_of_mem_granted hg).1
    · exact h.malloced i (by simpa [grantRemote, hg] using hi)
  · intro i hi
    by_cases hg : i ∈ granted s.rdmaRemote target
    · simp [grantConn, grantRemote, hg]
    · simp only [grantConn, grantRemote, hg, if_false] at hi ⊢
      exact h.recorded c hc i hi
  · -- a granted chunk was unmapped, so nobody else records it
    intro d hd _ i hi
    have hmapped : s.rdmaRemote.connMap i ≠ -1 := by
      rw [(h.recorded d hd i hi).2]
      exact h.connIndex_ne hd
    have hg : i ∉ granted s.rdmaRemote target := fun hg => hmapped (free_of_mem_granted hg).2
    simp [grantRemote, hg]

theorem WellOwned.stop (h : WellOwned s) (hc : c ∈ s.live) {l : List (Chunk cfg)} {amount : ℤ}
    {states : Slot cfg → ConnState} (hown : ∀ i ∈ l, c.sessChunkMap i ≠ -1)
    (hstates : ∀ k, states k = .idle → s.connsState k = .idle) :
    WellOwned (s.rewrite (stopConn l amount c) (stopRemote l amount s.rdmaRemote) states) := by
  refine h.rewrite hc rfl rfl hstates ?_ ?_ ?_
  · intro i hi
    by_cases hl : i ∈ l
    · simp [stopRemote, hl] at hi
    · simp only [stopRemote, hl, if_false] at hi ⊢
      exact h.malloced i hi
  · intro i hi
    by_cases hl : i ∈ l
    · simp [stopConn, hl] at hi
    · simp only [stopConn, stopRemote, hl, if_false] at hi ⊢
      exact h.recorded c hc i hi
  · intro d hd hne i hi
    -- the message flags chunks of its sender only, so nobody else loses one
    have hl : i ∉ l := fun hl => hown i hl (h.connMap_of_other hc hd hne hi)
    simp [stopRemote, hl]

/-- Releasing a connection's chunks touches only entries it records. -/
theorem releaseRemote_connMap {r : RdmaRemoteMem cfg} {i : Chunk cfg}
    (h : (releaseRemote c r).connMap i ≠ r.connMap i) :
    c.sessChunkMap i ≠ -1 ∧ (releaseRemote c r).connMap i = -1 := by
  rw [releaseRemote] at h ⊢
  split_ifs at h ⊢
  · by_cases hi : i ∈ heldChunks c
    · exact ⟨mem_heldChunks.mp hi, by simp [mem_heldChunks.mp hi]⟩
    · simp only [hi, if_false, ne_eq, not_true] at h
  · exact absurd rfl h

theorem releaseRemote_mallocMap (r : RdmaRemoteMem cfg) :
    (releaseRemote c r).mallocMap = r.mallocMap := by
  rw [releaseRemote]
  split_ifs <;> rfl

theorem WellOwned.of_effect (h : WellOwned s) (heff : Effect s op t) : WellOwned t := by
  cases heff with
  | @build id mem k new idle =>
    -- the new connection takes a slot that points to nobody
    have hfree : s.conns k = none := h.idle k idle
    refine ⟨?_, ?_, ?_, h.malloced, ?_⟩
    · refine List.nodup_cons.mpr ⟨?_, h.ids_nodup⟩
      intro hmem
      obtain ⟨d, hd, hid⟩ := List.mem_map.mp hmem
      exact new d hd hid
    · intro d hd
      rcases List.mem_cons.mp hd with rfl | hd
      · exact ⟨k, rfl, by simp⟩
      · obtain ⟨l, hl, hdl⟩ := h.slot d hd
        -- the other connections hold other slots
        have hlk : l ≠ k := by
          rintro rfl
          simp [hfree] at hdl
        exact ⟨l, hl, by simp [hlk, hdl]⟩
    · intro l hl
      by_cases hlk : l = k
      · subst hlk
        simp at hl
      · simp only [Function.update_of_ne hlk] at hl ⊢
        exact h.idle l hl
    · intro d hd i hi
      rcases List.mem_cons.mp hd with rfl | hd
      · simp at hi
      · exact h.recorded d hd i hi
  | @reply id c mem same =>
    exact h.rewrite mem rfl rfl (fun _ hk => hk) h.malloced (h.recorded c mem)
      (fun _ _ _ _ _ => rfl)
  | grantMany mem same slot => exact h.grantSession mem
  | grantOne mem same slot => exact h.grantSession mem
  | stop mem same own kept => exact h.stop mem (fun i hi => own i (mem_flagged.mp hi)) kept
  | @destroy id c k running mem same slot =>
    -- the survivors are the other connections
    have hsub : ∀ d ∈ dropKey Connection.id c s.live, d ∈ s.live ∧ d.id ≠ c.id :=
      fun d hd => mem_dropKey.mp hd
    refine ⟨?_, ?_, ?_, ?_, ?_⟩
    · exact h.ids_nodup.sublist (List.filter_sublist.map _)
    · intro d hd
      obtain ⟨hlive, hne⟩ := hsub d hd
      obtain ⟨l, hl, hdl⟩ := h.slot d hlive
      have hlk : l ≠ k := by
        rintro rfl
        exact hne (congrArg Connection.id (h.eq_of_connIndex hlive mem (hl.trans slot.symm)))
      exact ⟨l, hl, by simp [hlk, hdl]⟩
    · intro l hl
      by_cases hlk : l = k
      · subst hlk
        simp
      · simp only [Function.update_of_ne hlk] at hl ⊢
        exact h.idle l hl
    · intro i hi
      simp only [releaseRemote_mallocMap]
      refine h.malloced i fun hnone => ?_
      by_cases hsame : (releaseRemote c s.rdmaRemote).connMap i = s.rdmaRemote.connMap i
      · exact hi (hsame.trans hnone)
      · exact hi (releaseRemote_connMap hsame).2
    · intro d hd i hi
      obtain ⟨hd, hne⟩ := hsub d hd
      obtain ⟨hval, hmap⟩ := h.recorded d hd i hi
      refine ⟨hval, ?_⟩
      rw [← hmap]
      -- a released chunk was recorded by `c`, so by no survivor
      by_contra hdiff
      exact (releaseRemote_connMap hdiff).1 (h.connMap_of_other mem hd hne hi)
  | @expand g memalign above =>
    refine h.of_sameOwners (by rw [freeMemExpand_eq]) fun i hi => ?_
    rw [freeMemExpand_eq]
    simp [h.malloced i hi]
  | @evict stopG pos =>
    refine h.of_sameOwners (by rw [evictUnmapped_eq]) fun i hi => ?_
    -- eviction takes unmapped chunks only
    have hg : i ∉ granted s.rdmaRemote stopG := fun hg => hi (free_of_mem_granted hg).2
    rw [evictUnmapped_eq]
    simp [hg, h.malloced i hi]

theorem wellOwned_of_run {freeMemG : ℤ} {memalign : Chunk cfg → BitVec 64}
    {ops : List (Op cfg)} (hops : EachStep step OwnDone (rdmaSessionInit freeMemG memalign) ops)
    (hrun : run step (rdmaSessionInit freeMemG memalign) ops = some s) : WellOwned s :=
  run_invariant (fun _ _ _ h hop hstep => h.of_effect (step_effect h hop hstep))
    (wellOwned_init freeMemG memalign) hops hrun

/-! ### How owners change -/

/-- The connection a grant request comes from. -/
def Op.requester : Op cfg → Option ℕ
  | .requestChunks id _ _ => some id
  | .requestSingleChunk id _ _ => some id
  | _ => none

/-- The connection that gives chunks back, by a `DONE` message or by disconnecting. -/
def Op.releaser : Op cfg → Option ℕ
  | .done id _ => some id
  | .destroyConnection id => some id
  | _ => none

/-- The two legal changes of a chunk's owner: from nobody to a requester, and from
the connection giving it back to nobody. -/
def OwnerChange (s : RdmaSession cfg) (op : Op cfg) (before after : ℤ) : Prop :=
  (before = -1 ∧ ∃ c ∈ s.live, op.requester = some c.id ∧ after = c.connIndex) ∨
    (after = -1 ∧ ∃ c ∈ s.live, op.releaser = some c.id ∧ before = c.connIndex)

private theorem grantRemote_connMap {r : RdmaRemoteMem cfg} {rkeys : Chunk cfg → BitVec 32}
    {target amount : ℤ} {i : Chunk cfg}
    (h : (grantRemote rkeys (granted r target) amount c r).connMap i ≠ r.connMap i) :
    r.connMap i = -1 ∧ (grantRemote rkeys (granted r target) amount c r).connMap i =
      c.connIndex := by
  by_cases hg : i ∈ granted r target
  · exact ⟨(free_of_mem_granted hg).2, by simp [grantRemote, hg]⟩
  · simp [grantRemote, hg] at h

theorem WellOwned.ownerChange (h : WellOwned s) (heff : Effect s op t) {i : Chunk cfg}
    (hdiff : t.rdmaRemote.connMap i ≠ s.rdmaRemote.connMap i) :
    OwnerChange s op (s.rdmaRemote.connMap i) (t.rdmaRemote.connMap i) := by
  cases heff with
  | build new idle => exact absurd rfl hdiff
  | reply mem same => exact absurd rfl hdiff
  | @grantMany id sizeGb rkeys c k mem same slot =>
    obtain ⟨hbefore, hafter⟩ := grantRemote_connMap hdiff
    exact Or.inl ⟨hbefore, c, mem, by rw [same]; rfl, hafter⟩
  | @grantOne id sizeGb rkeys c k mem same slot =>
    obtain ⟨hbefore, hafter⟩ := grantRemote_connMap hdiff
    exact Or.inl ⟨hbefore, c, mem, by rw [same]; rfl, hafter⟩
  | @stop id msg c states mem same own kept =>
    by_cases hf : i ∈ flagged msg
    · have hbefore := (h.recorded c mem i (own i (mem_flagged.mp hf))).2
      refine Or.inr ⟨?_, c, mem, by rw [same]; rfl, hbefore⟩
      change (if i ∈ flagged msg then (-1 : ℤ) else _) = -1
      rw [if_pos hf]
    · refine absurd ?_ hdiff
      change (if i ∈ flagged msg then (-1 : ℤ) else _) = _
      rw [if_neg hf]
  | @destroy id c k running mem same slot =>
    obtain ⟨hheld, hafter⟩ := releaseRemote_connMap hdiff
    exact Or.inr ⟨hafter, c, mem, by rw [same]; rfl, (h.recorded c mem i hheld).2⟩
  | expand above => exact absurd (by rw [freeMemExpand_eq]) hdiff
  | evict pos => exact absurd (by rw [evictUnmapped_eq]) hdiff

/-- The memory behind a mapped chunk is not allocated anew. -/
theorem WellOwned.region_kept (h : WellOwned s) (heff : Effect s op t) {i : Chunk cfg}
    (hi : s.rdmaRemote.connMap i ≠ -1) :
    t.rdmaRemote.regionList i = s.rdmaRemote.regionList i := by
  cases heff with
  | build new idle => rfl
  | reply mem same => rfl
  | grantMany mem same slot => rfl
  | grantOne mem same slot => rfl
  | stop mem same own kept => rfl
  | destroy mem same slot =>
    simp only [releaseRemote]
    split_ifs <;> rfl
  | @expand g memalign above =>
    -- only empty chunks are allocated, and a mapped one is not empty
    have hfull : i ∉ expanded s.rdmaRemote (expandSizeG s.rdmaRemote g) := by
      intro hempty
      simpa [h.malloced i hi] using empty_of_mem_expanded hempty
    rw [freeMemExpand_eq]
    simp [hfull]
  | evict pos => rw [evictUnmapped_eq]

/-- A mapped chunk is never freed, re-allocated or granted twice. -/
structure ExclusiveOwnership (s : RdmaSession cfg) : Prop where
  malloced : ∀ i, s.rdmaRemote.connMap i ≠ -1 → s.rdmaRemote.mallocMap i = .malloced
  recorded : ∀ c ∈ s.live, ∀ i, c.sessChunkMap i ≠ -1 →
    c.sessChunkMap i = ((i : ℕ) : ℤ) ∧ s.rdmaRemote.connMap i = c.connIndex
  single : ∀ c ∈ s.live, ∀ d ∈ s.live, ∀ i,
    c.sessChunkMap i ≠ -1 → d.sessChunkMap i ≠ -1 → c = d
  changes : ∀ op t, OwnDone s op → step s op = some t → ∀ i,
    t.rdmaRemote.connMap i ≠ s.rdmaRemote.connMap i →
      OwnerChange s op (s.rdmaRemote.connMap i) (t.rdmaRemote.connMap i)
  region : ∀ op t, OwnDone s op → step s op = some t → ∀ i, s.rdmaRemote.connMap i ≠ -1 →
    t.rdmaRemote.regionList i = s.rdmaRemote.regionList i

theorem WellOwned.exclusiveOwnership (h : WellOwned s) : ExclusiveOwnership s where
  malloced := h.malloced
  recorded := h.recorded
  single := fun _ hc _ hd _ => h.eq_of_recorded hc hd
  changes := fun _ _ hop hstep _ => h.ownerChange (step_effect h hop hstep)
  region := fun _ _ hop hstep _ => h.region_kept (step_effect h hop hstep)

/-- Along every run of admitted operations, in any order and of any length. -/
theorem mapped_chunk_is_exclusive (freeMemG : ℤ) (memalign : Chunk cfg → BitVec 64)
    (ops : List (Op cfg)) (s : RdmaSession cfg)
    (hops : EachStep step OwnDone (rdmaSessionInit freeMemG memalign) ops)
    (hrun : run step (rdmaSessionInit freeMemG memalign) ops = some s) :
    ExclusiveOwnership s :=
  (wellOwned_of_run hops hrun).exclusiveOwnership

/-- An object as `malloc` may return it. -/
def blankConnection : Connection cfg where
  id := 0
  connIndex := 0
  sessChunkMap := fun _ => 0
  mappedChunkSize := 0
  sendMsg := { buf := fun _ => 0, rkey := fun _ => 0, sizeGb := 0, type := .done }

/-- A client takes two chunks and gives one back. -/
def visit : List (Op defaultConfig) :=
  [.buildConnection 7 blankConnection, .requestChunks 7 2 (fun _ => 5),
    .done 7
      { buf := fun _ => 0, rkey := fun i => if i.val = 1 then 1 else 0, sizeGb := 1,
        type := .done }]

theorem mapped_chunk_is_exclusive_visit :
    ∃ s, run step (rdmaSessionInit 11 fun _ => 0x1000) visit = some s ∧ ExclusiveOwnership s := by
  have hends : (run step (rdmaSessionInit 11 fun _ => 0x1000) visit).isSome := by decide +kernel
  obtain ⟨s, hs⟩ := Option.isSome_iff_exists.mp hends
  exact ⟨s, hs, mapped_chunk_is_exclusive 11 _ visit s (by decide +kernel) hs⟩

end SystemDev.Server
