import SystemDev.Server.Monitor
import SystemDev.Server.Stops

/-!
# The server with its monitor

`step` leaves open when the pool grows and shrinks, and lets an eviction free unmapped chunks only.
The thread of `free_mem` decides both by its counters, and `evict_mem` goes on, from wait to wait,
to write into the send buffers of the connections. No operation reads these buffers, so a run of
the server with its monitor is a run of `step`, up to what the buffers hold.

## Main results

* `step_forget` — an operation does the same whatever the send buffers hold
* `Monitored.refines_step` — every run with the monitor is a run of `step`, up to the send buffers
-/

namespace SystemDev.Server

open SystemDev.Library SystemDev.Rdma

variable {cfg : ServerConfig} {s t u : RdmaSession cfg} {c d : Connection cfg}

/-- A connection with an empty send buffer. -/
def Connection.forget (c : Connection cfg) : Connection cfg :=
  { c with sendMsg := ⟨fun _ => 0, fun _ => 0, 0, .done⟩ }

/-- A session with empty send buffers. -/
def RdmaSession.forget (s : RdmaSession cfg) : RdmaSession cfg :=
  { s with live := s.live.map Connection.forget }

@[simp] theorem Connection.forget_id (c : Connection cfg) : c.forget.id = c.id := rfl

@[simp] theorem Connection.forget_forget (c : Connection cfg) : c.forget.forget = c.forget := rfl

@[simp] theorem RdmaSession.forget_rdmaRemote (s : RdmaSession cfg) :
    s.forget.rdmaRemote = s.rdmaRemote := rfl

theorem map_forget_forget (l : List (Connection cfg)) :
    (l.map Connection.forget).map Connection.forget = l.map Connection.forget := by
  rw [List.map_map]
  rfl

/-- New chunk tables in a session whose buffers were emptied before. -/
theorem forget_withRemote (s : RdmaSession cfg) (r : RdmaRemoteMem cfg) :
    { s.forget with rdmaRemote := r }.forget = { s with rdmaRemote := r }.forget := by
  simp only [RdmaSession.forget, map_forget_forget]

theorem conn?_forget (s : RdmaSession cfg) (id : ℕ) :
    s.forget.conn? id = (s.conn? id).map Connection.forget := by
  rw [RdmaSession.conn?, RdmaSession.forget, List.find?_map]
  rfl

theorem forget_putConn (s : RdmaSession cfg) (c : Connection cfg) :
    (s.putConn c).forget = s.forget.putConn c.forget := by
  simp only [RdmaSession.forget, RdmaSession.putConn, List.map_map]
  congr 1
  refine List.map_congr_left fun d _ => ?_
  by_cases hd : d.id = c.id
  · simp [hd]
  · simp [hd]

theorem map_forget_setConnState (s : RdmaSession cfg) (c : Connection cfg) (state : ConnState) :
    (s.setConnState c state).map RdmaSession.forget = s.forget.setConnState c.forget state := by
  rw [RdmaSession.setConnState, RdmaSession.setConnState, Option.map_map]
  rfl

/-! ### Operations -/

/-- An operation on a connection, found by its identifier. -/
theorem bind_conn?_forget {f g : Connection cfg → Option (RdmaSession cfg)}
    (h : ∀ c, (f c).map RdmaSession.forget = (g c.forget).map RdmaSession.forget) (id : ℕ) :
    ((s.conn? id).bind f).map RdmaSession.forget =
      ((s.forget.conn? id).bind g).map RdmaSession.forget := by
  rw [conn?_forget]
  cases s.conn? id with
  | none => rfl
  | some c => exact h c

theorem forget_buildConnection (s : RdmaSession cfg) (id : ℕ) (mem : Connection cfg) :
    (buildConnection s id mem).forget = (buildConnection s.forget id mem).forget := by
  simp only [buildConnection]
  have hstates : s.forget.connsState = s.connsState := rfl
  rw [hstates]
  cases (List.finRange cfg.maxClient).find? fun k => decide (s.connsState k = .idle) <;>
    simp [RdmaSession.forget, Function.comp_def]

theorem forget_serveRequest (rkeys : Chunk cfg → BitVec 32) (target amount : ℤ)
    (type : MessageType) (s : RdmaSession cfg) (c : Connection cfg) (sizeGb : ℤ) :
    (serveRequest (grantChunks rkeys target amount type) s c sizeGb).map RdmaSession.forget =
      (serveRequest (grantChunks rkeys target amount type) s.forget c.forget sizeGb).map
        RdmaSession.forget := by
  simp only [serveRequest, grantChunks_eq, map_forget_setConnState, forget_putConn,
    forget_withRemote]
  rfl

theorem foldlM_stopChunk_forget (msg : Message cfg.maxFreeMemGb) (l : List (Chunk cfg))
    (g : RdmaRemoteMem cfg × Connection cfg) :
    l.foldlM (stopChunk msg) (g.1, g.2.forget) =
      (l.foldlM (stopChunk msg) g).map fun g => (g.1, g.2.forget) := by
  induction l generalizing g with
  | nil => rfl
  | cons i l ih =>
    have hbody : stopChunk msg (g.1, g.2.forget) i =
        (stopChunk msg g i).map fun g => (g.1, g.2.forget) := by
      simp only [stopChunk]
      split_ifs
      · rfl
      · rw [Option.map_map]
        rfl
    rw [List.foldlM_cons, List.foldlM_cons, hbody]
    cases stopChunk msg g i with
    | none => rfl
    | some g' => exact ih g'

theorem forget_recvDone (s : RdmaSession cfg) (c : Connection cfg)
    (msg : Message cfg.maxFreeMemGb) :
    (recvDone s c msg).map RdmaSession.forget =
      (recvDone s.forget c.forget msg).map RdmaSession.forget := by
  have hloop := foldlM_stopChunk_forget msg (List.finRange cfg.maxFreeMemGb) (s.rdmaRemote, c)
  rw [recvDone, recvDone, RdmaSession.forget_rdmaRemote, hloop]
  cases (List.finRange cfg.maxFreeMemGb).foldlM (stopChunk msg) (s.rdmaRemote, c) with
  | none => rfl
  | some g =>
    have hcount : g.2.forget.mappedChunkSize = g.2.mappedChunkSize := rfl
    simp only [Option.map_some, Option.bind_eq_bind, Option.bind_some, hcount]
    split_ifs
    · rw [map_forget_setConnState, map_forget_setConnState, forget_putConn, forget_putConn,
        forget_withRemote]
      rfl
    · rw [Option.map_some, Option.map_some, forget_putConn, forget_putConn, forget_withRemote]
      rfl

theorem forget_destroyConnection (s : RdmaSession cfg) (c : Connection cfg) :
    (destroyConnection s c).map RdmaSession.forget =
      (destroyConnection s.forget c.forget).map RdmaSession.forget := by
  have hrelease : releaseChunk c.forget = releaseChunk c := rfl
  have hlive : ((s.live.map Connection.forget).filter fun d => decide (d.id ≠ c.forget.id)).map
      Connection.forget = (s.live.filter fun d => decide (d.id ≠ c.id)).map Connection.forget := by
    rw [List.filter_map, map_forget_forget]
    rfl
  have hcount : c.forget.mappedChunkSize = c.mappedChunkSize := rfl
  have hindex : c.forget.connIndex = c.connIndex := rfl
  rw [destroyConnection, destroyConnection, hrelease]
  simp only [RdmaSession.forget, hcount, hindex, Option.bind_eq_bind]
  by_cases hpos : 0 < c.mappedChunkSize
  · simp only [if_pos hpos, Option.map_bind, Function.comp_def, Option.map_some,
      RdmaSession.forget, hlive]
    rfl
  · simp only [if_neg hpos, Option.map_bind, Function.comp_def, Option.map_some,
      RdmaSession.forget, hlive]
    rfl

/-- An operation does the same whatever the send buffers hold. -/
theorem step_forget (s : RdmaSession cfg) (op : Op cfg) :
    (step s op).map RdmaSession.forget = (step s.forget op).map RdmaSession.forget := by
  cases op with
  | buildConnection id mem =>
    have hnew : (s.forget.conn? id).isSome = (s.conn? id).isSome := by
      rw [conn?_forget, Option.isSome_map]
    rw [step, step, hnew]
    split_ifs
    · rfl
    · exact congrArg some (forget_buildConnection s id mem)
  | sendFreeMemSize id =>
    refine bind_conn?_forget (fun c => ?_) id
    rw [Option.map_some, Option.map_some, forget_putConn, forget_putConn]
    exact congrArg some (congrArg (RdmaSession.putConn · _) (forget_withRemote s _).symm)
  | requestChunks id sizeGb rkeys =>
    refine bind_conn?_forget (fun c => ?_) id
    split_ifs
    · exact forget_serveRequest rkeys _ _ _ s c sizeGb
    · rfl
  | requestSingleChunk id sizeGb rkeys =>
    refine bind_conn?_forget (fun c => ?_) id
    split_ifs
    · exact forget_serveRequest rkeys _ _ _ s c sizeGb
    · rfl
  | done id msg =>
    refine bind_conn?_forget (fun c => ?_) id
    split_ifs
    · exact forget_recvDone s c msg
    · rfl
  | destroyConnection id => exact bind_conn?_forget (fun c => forget_destroyConnection s c) id
  | expand filteredFreeMemG memalign =>
    rw [step, step]
    split_ifs
    · exact congrArg some (forget_withRemote s _).symm
    · rfl
  | evictUnmapped stopG =>
    rw [step, step, RdmaSession.forget_rdmaRemote]
    split_ifs
    · exact congrArg some (forget_withRemote s _).symm
    · rfl

/-! ### Evictions -/

/-- Sessions that differ in their send buffers only. -/
def Alike (s t : RdmaSession cfg) : Prop := t.forget = s.forget

theorem Alike.remote (h : Alike s t) : t.rdmaRemote = s.rdmaRemote := by
  rw [← RdmaSession.forget_rdmaRemote, show t.forget = s.forget from h,
    RdmaSession.forget_rdmaRemote]

theorem Alike.withRemote (h : Alike s t) (r : RdmaRemoteMem cfg) :
    Alike { s with rdmaRemote := r } { t with rdmaRemote := r } := by
  have hforget (u : RdmaSession cfg) :
      { u with rdmaRemote := r }.forget = { u.forget with rdmaRemote := r } := rfl
  rw [Alike, hforget, hforget, show t.forget = s.forget from h]

theorem Alike.ids_nodup (h : Alike s t) (hs : (s.live.map Connection.id).Nodup) :
    (t.live.map Connection.id).Nodup := by
  have hids (u : RdmaSession cfg) : u.live.map Connection.id = u.forget.live.map Connection.id := by
    rw [RdmaSession.forget, List.map_map]
    rfl
  rwa [hids, show t.forget = s.forget from h, ← hids]

/-- Writing a connection back with another send buffer. -/
theorem Alike.putConn (h : Alike s u) (hs : (s.live.map Connection.id).Nodup) {k : Slot cfg}
    (hc : u.connAt k = some c) (hd : d.forget = c.forget) : Alike s (u.putConn d) := by
  have hid : d.forget.id = c.forget.id := by rw [hd]
  have hmem := (mem_live_of_conn? (conn?_of_connAt hc).2).1
  have hkept : (rewriteKey Connection.id d u.live).map Connection.forget =
      u.live.map Connection.forget := by
    refine map_rewriteKey fun e he heq => ?_
    -- there is one object with this identifier
    rw [List.inj_on_of_nodup_map (h.ids_nodup hs) he hmem (heq.trans hid), hd]
  have hsame : (u.putConn d).forget = u.forget :=
    congrArg (fun live => { u with live := live }) hkept
  exact hsame.trans h

theorem Alike.sendEvicts (h : Alike s u) (hs : (s.live.map Connection.id).Nodup)
    {sendList : Slot cfg → SendMark} {j : ℤ} (ht : sendEvicts sendList j u = some t) :
    Alike s t := by
  refine foldlM_keeps (fun v i w hv hstep => ?_) h ht
  split_ifs at hstep
  · obtain ⟨c, hc, rfl⟩ := Option.map_eq_some_iff.mp hstep
    exact Alike.putConn hv hs hc rfl
  · obtain rfl := Option.some_inj.mp hstep
    exact hv

theorem Alike.collectConn (h : Alike s u) (hs : (s.live.map Connection.id).Nodup)
    {recvMsg : Slot cfg → Message cfg.maxFreeMemGb} {sendList : Slot cfg → SendMark}
    {l : EvictList cfg} {i : Slot cfg} {p : RdmaSession cfg × EvictList cfg}
    (ht : collectConn recvMsg sendList (u, l) i = some p) : Alike s p.1 := by
  rw [Server.collectConn] at ht
  split_ifs at ht
  · obtain ⟨c, hc, ht⟩ := Option.bind_eq_some_iff.mp ht
    obtain ⟨l', -, rfl⟩ := Option.map_eq_some_iff.mp ht
    exact h.putConn hs hc rfl
  · obtain rfl := Option.some_inj.mp ht
    exact h

theorem Alike.sortAndMark {g : Marking cfg} (h : Alike s g.session)
    (hs : (s.live.map Connection.id).Nodup) {j k : ℤ} {l : List (Option (ChunkActivity cfg))}
    {p : List (Option (ChunkActivity cfg)) × Marking cfg}
    (ht : sortAndMark j k l g = some p) : Alike s p.2.session := by
  refine exchangeRounds_keeps _ (P := fun g : Marking cfg => Alike s g.session)
    (fun v e w hv hstep => ?_) h ht
  obtain ⟨k, -, hstep⟩ := Option.bind_eq_some_iff.mp hstep
  obtain ⟨c, hc, rfl⟩ := Option.map_eq_some_iff.mp hstep
  exact Alike.putConn hv hs hc rfl

theorem Alike.stopUntilWait (h : Alike s u) (hs : (s.live.map Connection.id).Nodup)
    {sendList : Slot cfg → SendMark} {connIndex : Option (Slot cfg)} {is : List (Slot cfg)}
    {p : RdmaSession cfg × Wait cfg} (ht : stopUntilWait sendList connIndex is u = some p) :
    Alike s p.1 := by
  induction is generalizing u with
  | nil =>
    obtain rfl := Option.some_inj.mp ht
    exact h
  | cons i is ih =>
    obtain ⟨q, hq, ht⟩ := Option.bind_eq_some_iff.mp ht
    have hsent : Alike s q.1 := by
      rcases stopConnAt_cases hq with rfl | ⟨c, n, hc, rfl⟩
      · exact h
      · exact h.putConn hs hc rfl
    dsimp only at ht
    split_ifs at ht
    · obtain ⟨id, -, rfl⟩ := Option.map_eq_some_iff.mp ht
      exact hsent
    · exact ih hsent ht

theorem Alike.collectUntilWait {g : RdmaSession cfg × EvictList cfg} (h : Alike s g.1)
    (hs : (s.live.map Connection.id).Nodup) {sendList : Slot cfg → SendMark} {j k : ℤ}
    {is : List (Slot cfg)} {p : RdmaSession cfg × Wait cfg}
    (ht : collectUntilWait sendList j k is g = some p) : Alike s p.1 := by
  induction is with
  | nil =>
    obtain ⟨q, hq, ht⟩ := Option.bind_eq_some_iff.mp ht
    have hmarked := Alike.sortAndMark (g := ⟨g.1, sendList, none⟩) h hs hq
    exact hmarked.stopUntilWait hs ht
  | cons i is ih =>
    rw [Server.collectUntilWait] at ht
    split_ifs at ht
    · obtain ⟨id, -, rfl⟩ := Option.map_eq_some_iff.mp ht
      exact h
    · exact ih ht

/-- The first part of `evict_mem` frees unmapped chunks and writes send buffers. -/
theorem alike_evictUntilWait (hs : (s.live.map Connection.id).Nodup) {fuel : ℕ} {rand : ℕ → ℕ}
    {stopG : ℤ} {p : RdmaSession cfg × Wait cfg} (h : evictUntilWait fuel rand s stopG = some p) :
    Alike { s with rdmaRemote := (evictUnmapped s.rdmaRemote stopG).1 } p.1 := by
  obtain ⟨⟨u, selected⟩, hselect, hrest⟩ := Option.bind_eq_some_iff.mp h
  simp only [evictSelect] at hselect
  split_ifs at hselect
  · obtain ⟨rfl, rfl⟩ := Prod.mk.inj (Option.some_inj.mp hselect)
    obtain rfl := Option.some_inj.mp hrest
    exact rfl
  · obtain ⟨⟨sendList, j⟩, -, hpair⟩ := Option.map_eq_some_iff.mp hselect
    obtain ⟨rfl, rfl⟩ := Prod.mk.inj hpair
    obtain ⟨k, -, hrest⟩ := Option.bind_eq_some_iff.mp hrest
    obtain ⟨asked, hasked, hrest⟩ := Option.bind_eq_some_iff.mp hrest
    have halike : Alike { s with rdmaRemote := (evictUnmapped s.rdmaRemote stopG).1 } asked :=
      Alike.sendEvicts rfl hs hasked
    exact halike.collectUntilWait (g := (asked, _)) hs hrest

/-- The parts behind a wait only write send buffers. -/
theorem Alike.resume (h : Alike s u) (hs : (s.live.map Connection.id).Nodup)
    {recvMsg : Message cfg.maxFreeMemGb} {wait : Wait cfg} {p : RdmaSession cfg × Wait cfg}
    (ht : wait.resume recvMsg u = some p) : Alike s p.1 := by
  cases wait with
  | sleep => cases ht
  | activity sendList j k list slot id rest =>
    rw [Wait.resume] at ht
    split_ifs at ht
    obtain ⟨g, hg, ht⟩ := Option.bind_eq_some_iff.mp ht
    exact (h.collectConn hs hg).collectUntilWait hs ht
  | stop sendList connIndex id rest =>
    rw [Wait.resume] at ht
    split_ifs at ht
    exact h.stopUntilWait hs ht

/-! ### Runs with the monitor -/

namespace Monitored

variable {cfg : MonitorConfig} {v w : Monitored cfg} {s : RdmaSession cfg.toServerConfig}

/-- The operation of another thread. -/
def Event.op? : Event cfg → Option (Op cfg.toServerConfig)
  | .turn _ _ _ _ => none
  | .resume _ => none
  | .op o => some o

/-- The server and a session of `step` that differs in the send buffers only. -/
structure Follows (v : Monitored cfg) (s : RdmaSession cfg.toServerConfig) : Prop where
  alike : Alike s v.session
  reached : Reached s

theorem follows_init (initFreeMemG lastFreeMemG : ℤ)
    (memalign : Chunk cfg.toServerConfig → BitVec 64) :
    Follows (init initFreeMemG lastFreeMemG memalign : Monitored cfg)
      (rdmaSessionInit initFreeMemG memalign) :=
  ⟨rfl, reached_init initFreeMemG memalign⟩

/-- An operation of `step` is followed. -/
theorem exists_step_alike {op : Op cfg.toServerConfig} {t u : RdmaSession cfg.toServerConfig}
    (h : Alike s u) (ht : Server.step u op = some t) :
    ∃ t', Server.step s op = some t' ∧ Alike t' t := by
  have hforget := step_forget s op
  rw [← show u.forget = s.forget from h, ← step_forget u op, ht, Option.map_some] at hforget
  obtain ⟨t', ht', halike⟩ := Option.map_eq_some_iff.mp hforget
  exact ⟨t', ht', halike.symm⟩

/-- An eviction is of a positive amount of at most `size_gb`. -/
theorem evict_bounds {freeMemG stop : ℤ} (h : (v.turn freeMemG).2 = .evict stop) :
    0 < stop ∧ stop ≤ v.session.rdmaRemote.sizeGb := by
  rw [turn, FreeMem.turn] at h
  dsimp only at h
  split_ifs at h with hlow hhits hsize hpos hpos
  · cases h
    exact ⟨hpos, Int.le_refl _⟩
  · cases h
    exact ⟨hpos, Int.not_lt.mp hsize⟩

theorem expand_above {freeMemG g : ℤ} (h : (v.turn freeMemG).2 = .expand g) :
    g = cfg.mix freeMemG v.freeMem.lastFreeMemG ∧ cfg.freeMemExpandThreshold < g := by
  rw [turn, FreeMem.turn] at h
  dsimp only at h
  split_ifs at h with hlow hhits hsize hpos hpos hhigh
  cases h
  exact ⟨rfl, hhigh⟩

/-- The calls of a turn are an operation of `step`, or none. -/
theorem Follows.perform (h : Follows v s) {freeMemG : ℤ}
    (hhost : cfg.mix freeMemG v.freeMem.lastFreeMemG + cfg.maxFreeMemGb < 2 ^ 31)
    {memalign : Chunk cfg.toServerConfig → BitVec 64} {fuel : ℕ} {rand : ℕ → ℕ}
    {p : RdmaSession cfg.toServerConfig × Wait cfg.toServerConfig}
    (hp : perform v.session memalign fuel rand (v.turn freeMemG).2 = some p) :
    ∃ ops t, run Server.step s ops = some t ∧ (∀ o ∈ ops, o.OfFreeMem = true) ∧ Alike t p.1 ∧
      Reached t := by
  have hremote := h.alike.remote
  cases hturn : (v.turn freeMemG).2 with
  | stay =>
    rw [hturn] at hp
    obtain rfl := Option.some_inj.mp hp
    exact ⟨[], s, rfl, by simp, h.alike, h.reached⟩
  | evict stop =>
    rw [hturn] at hp
    obtain ⟨hpos, hle⟩ := evict_bounds hturn
    have hstep : Server.step s (.evictUnmapped stop) =
        some { s with rdmaRemote := (evictUnmapped s.rdmaRemote stop).1 } :=
      if_pos ⟨hpos, hremote ▸ hle⟩
    have hids := h.alike.ids_nodup h.reached.ids_nodup
    have hevict := alike_evictUntilWait hids hp
    rw [hremote] at hevict
    exact ⟨[.evictUnmapped stop], _, by rw [run_cons, hstep]; rfl, by simp [Op.OfFreeMem],
      hevict.trans (h.alike.withRemote _), h.reached.of_step hstep⟩
  | expand g =>
    rw [hturn] at hp
    obtain rfl := Option.some_inj.mp hp
    obtain ⟨hmixed, habove⟩ := expand_above hturn
    have hstep : Server.step s (.expand g memalign) =
        some { s with rdmaRemote := freeMemExpand memalign s.rdmaRemote g } :=
      if_pos ⟨habove, hmixed ▸ hhost⟩
    refine ⟨[.expand g memalign], _, by rw [run_cons, hstep]; rfl, by simp [Op.OfFreeMem], ?_,
      h.reached.of_step hstep⟩
    rw [hremote]
    exact h.alike.withRemote _

theorem Follows.step (h : Follows v s) {e : Event cfg} (hw : Monitored.step v e = some w) :
    ∃ ops t, run Server.step s ops = some t ∧
      ops.filterMap (Option.guard fun o => !o.OfFreeMem) = [e].filterMap Event.op? ∧
      Follows w t := by
  cases e with
  | turn freeMemG memalign fuel rand =>
    rw [Monitored.step] at hw
    split at hw
    · split_ifs at hw with hguard
      obtain ⟨p, hp, rfl⟩ := Option.map_eq_some_iff.mp hw
      obtain ⟨ops, t, hrun, hown, halike, hreached⟩ := h.perform hguard.2 hp
      refine ⟨ops, t, hrun, ?_, halike, hreached⟩
      rw [List.filterMap_eq_filter, List.filter_eq_nil_iff.mpr fun o ho => by simp [hown o ho]]
      rfl
    · cases hw
  | resume recvMsg =>
    obtain ⟨p, hp, rfl⟩ := Option.map_eq_some_iff.mp hw
    exact ⟨[], s, rfl, rfl, h.alike.resume h.reached.ids_nodup hp, h.reached⟩
  | op o =>
    rw [Monitored.step] at hw
    split_ifs at hw with hother
    obtain ⟨u, hu, rfl⟩ := Option.map_eq_some_iff.mp hw
    obtain ⟨t, ht, halike⟩ := exists_step_alike h.alike hu
    refine ⟨[o], t, by rw [run_cons, ht]; rfl, ?_, halike, h.reached.of_step ht⟩
    simp [Event.op?, Option.guard, hother]

/-- Every run of the server with its monitor, whatever is measured, however the values are mixed and
whatever the clients answer to an eviction, is a run of `step`, up to the send buffers: the
operations of the other threads are the same and in the same order, and between them the monitor
grows the pool and frees unmapped chunks only as `step` allows. -/
theorem refines_step (initFreeMemG lastFreeMemG : ℤ)
    (memalign : Chunk cfg.toServerConfig → BitVec 64) (events : List (Event cfg))
    (h : run Monitored.step (init initFreeMemG lastFreeMemG memalign) events = some w) :
    ∃ ops t, run Server.step (rdmaSessionInit initFreeMemG memalign) ops = some t ∧
      (ops.filter fun o => !o.OfFreeMem) = events.filterMap Event.op? ∧ Alike t w.session := by
  obtain ⟨ops, t, hrun, hshown, hfollows⟩ := run_simulates
    (fun _ _ _ _ hR hstep => Follows.step hR hstep)
    (follows_init initFreeMemG lastFreeMemG memalign) h
  rw [List.filterMap_eq_filter] at hshown
  exact ⟨ops, t, hrun, hshown, hfollows.alike⟩

/-- A server with two chunks, and the default limits. -/
def twoChunks : MonitorConfig :=
  { defaultConfig with
    maxFreeMemGb := 2
    max_lt := by decide
    memEvictHitThreshold := 1
    memExpandHitThreshold := 20
    mix := fun free last => (7 * free + 3 * last).tdiv 10 }

/-- A client takes both chunks, and the memory runs low: its connection is asked, and answers for
both chunks while another request comes in; it is told to stop, and gives the chunks back while that
is waited for. -/
def lowMemory : List (Event twoChunks) :=
  [.op (.buildConnection 0 ⟨0, 0, fun _ => -1, 0, ⟨fun _ => 0, fun _ => 0, 0, .done⟩⟩),
    .op (.requestChunks 0 2 fun _ => 1),
    .turn 0 (fun _ => 0) 0 fun _ => 0,
    .op (.requestSingleChunk 0 0 fun _ => 1),
    .resume ⟨fun _ => 1, fun _ => 0, 0, .activity⟩,
    .op (.done 0 ⟨fun _ => 0, fun _ => 1, 2, .done⟩),
    .resume ⟨fun _ => 0, fun _ => 0, 0, .done⟩]

theorem lowMemory_refines_step :
    ∃ w, run Monitored.step (init 24 0 fun _ => 0x1000) lowMemory = some w ∧
      (w.session.live.map fun c => c.sendMsg.type) = [.stop] ∧
      ∃ ops t, run Server.step (rdmaSessionInit 24 fun _ => 0x1000) ops = some t ∧
        (ops.filter fun o => !o.OfFreeMem) = lowMemory.filterMap Event.op? ∧ Alike t w.session :=
  ⟨_, rfl, by decide, refines_step 24 0 (fun _ => 0x1000) lowMemory rfl⟩

end Monitored

end SystemDev.Server
