import SystemDev.Server.Ownership

/-!
# What holds in every run of the server

A connection that is built while no slot is idle keeps the `conn_index` that `malloc` left in
its memory, and may come to share a slot with another one. Exclusive ownership is lost then.
What is left holds in every run: a connection records a chunk at the chunk's own position, a
slot that is set points to a live connection with that index, and a mapped chunk is mapped to
a slot.

## Main results

* `Reached.of_step` — every step keeps this much, whatever was built
* `reached_of_run` — it holds in every state of every run
-/

namespace SystemDev.Server

open SystemDev.Library SystemDev.Rdma

variable {cfg : ServerConfig} {s t : RdmaSession cfg} {op : Op cfg} {c d : Connection cfg}

/-- Looking up a connection after one was written back. -/
theorem conn?_putConn (s : RdmaSession cfg) (c : Connection cfg) (id : ℕ) :
    (s.putConn c).conn? id = (s.conn? id).map fun d => if d.id = c.id then c else d :=
  find?_rewriteKey id

theorem conn?_putConn_self {c' : Connection cfg} (hc : s.conn? c.id = some c)
    (hid : c'.id = c.id) : (s.putConn c').conn? c.id = some c' := by
  rw [conn?_putConn, hc, Option.map_some, if_pos hid.symm]

theorem conn?_putConn_of_ne {id : ℕ} (hid : id ≠ c.id) : (s.putConn c).conn? id = s.conn? id := by
  rw [conn?_putConn]
  cases hd : s.conn? id with
  | none => rfl
  | some d =>
    have hne : d.id ≠ c.id := by
      rw [(mem_live_of_conn? hd).2]
      exact hid
    rw [Option.map_some, if_neg hne]

/-! ### The invariant of all runs -/

/-- What no order of operations breaks. -/
structure Reached (s : RdmaSession cfg) : Prop where
  ids_nodup : (s.live.map Connection.id).Nodup
  selfRecorded : SelfRecorded s
  slotOwner : ∀ k id, s.conns k = some id → ∃ c ∈ s.live, c.id = id ∧ c.connIndex = (k : ℕ)
  owners : ∀ i, s.rdmaRemote.connMap i ≠ -1 → ∃ k : Slot cfg, s.rdmaRemote.connMap i = (k : ℕ)

theorem reached_init (freeMemG : ℤ) (memalign : Chunk cfg → BitVec 64) :
    Reached (rdmaSessionInit freeMemG memalign) where
  ids_nodup := List.nodup_nil
  selfRecorded := (wellOwned_init freeMemG memalign).selfRecorded
  slotOwner := by simp [rdmaSessionInit]
  owners := by simp [rdmaSessionInit]

/-- Two slots do not point to one connection. -/
theorem Reached.eq_of_conns (h : Reached s) {k l : Slot cfg} {id : ℕ} (hk : s.conns k = some id)
    (hl : s.conns l = some id) : k = l := by
  obtain ⟨c, hc, hcid, hck⟩ := h.slotOwner k id hk
  obtain ⟨d, hd, hdid, hdl⟩ := h.slotOwner l id hl
  obtain rfl : c = d := List.inj_on_of_nodup_map h.ids_nodup hc hd (hcid.trans hdid.symm)
  exact Fin.ext (Int.ofNat_inj.mp (hck.symm.trans hdl))

/-- Rewriting one connection keeps the invariant when it keeps its index, when its record is
kept, set to own positions or cleared, and when the new tables map chunks to slots. -/
theorem Reached.rewrite (h : Reached s) (hc : c ∈ s.live) {c' : Connection cfg}
    {r : RdmaRemoteMem cfg} {states : Slot cfg → ConnState} (hid : c'.id = c.id)
    (hindex : c'.connIndex = c.connIndex)
    (hrecord : ∀ i, c'.sessChunkMap i ≠ -1 → c'.sessChunkMap i = ((i : ℕ) : ℤ) ∨
      c'.sessChunkMap i = c.sessChunkMap i)
    (howners : ∀ i, r.connMap i ≠ -1 → ∃ k : Slot cfg, r.connMap i = (k : ℕ)) :
    Reached (s.rewrite c' r states) where
  ids_nodup := by
    rw [live_rewrite, map_key_rewriteKey]
    exact h.ids_nodup
  selfRecorded := by
    intro d hd i hi
    rcases mem_live_rewrite hd with rfl | ⟨hd, -⟩
    · rcases hrecord i hi with hown | hold
      · exact hown
      · rw [hold] at hi ⊢
        exact h.selfRecorded c hc i hi
    · exact h.selfRecorded d hd i hi
  slotOwner := by
    intro k id hk
    obtain ⟨d, hd, hdid, hdk⟩ := h.slotOwner k id hk
    by_cases hdc : d.id = c.id
    · obtain rfl : d = c := List.inj_on_of_nodup_map h.ids_nodup hd hc hdc
      exact ⟨c', mem_rewriteKey_self hd hid, hid.trans hdid, hindex.trans hdk⟩
    · exact ⟨d, (mem_rewriteKey_iff (hid ▸ hdc)).mpr hd, hdid, hdk⟩
  owners := howners

theorem Reached.grantSession (h : Reached s) (hc : c ∈ s.live) {k : Slot cfg}
    (hk : c.connIndex = (k : ℕ)) {rkeys : Chunk cfg → BitVec 32} {target amount sizeGb : ℤ}
    {type : MessageType} : Reached (grantSession s c k rkeys target amount type sizeGb) := by
  refine h.rewrite hc rfl rfl (fun i _ => ?_) (fun i hi => ?_)
  · by_cases hg : i ∈ granted s.rdmaRemote target
    · exact .inl (if_pos hg)
    · exact .inr (if_neg hg)
  · by_cases hg : i ∈ granted s.rdmaRemote target
    · exact ⟨k, (if_pos hg).trans hk⟩
    · have hsame : (grantRemote rkeys (granted s.rdmaRemote target) amount c
          s.rdmaRemote).connMap i = s.rdmaRemote.connMap i := if_neg hg
      rw [hsame] at hi ⊢
      exact h.owners i hi

/-- A new connection object changes nothing but the list of connections. -/
theorem Reached.build (h : Reached s) {n : Connection cfg} (hnew : ∀ d ∈ s.live, d.id ≠ n.id)
    (hblank : n.sessChunkMap = fun _ => -1) {conns : Slot cfg → Option ℕ}
    {states : Slot cfg → ConnState} {connNum : ℤ}
    (hconns : ∀ k id, conns k = some id → s.conns k = some id ∨
      (n.id = id ∧ n.connIndex = (k : ℕ))) :
    Reached { s with
      live := n :: s.live, conns := conns, connsState := states, connNum := connNum } where
  ids_nodup := by
    refine List.nodup_cons.mpr ⟨fun hmem => ?_, h.ids_nodup⟩
    obtain ⟨d, hd, hid⟩ := List.mem_map.mp hmem
    exact hnew d hd hid
  selfRecorded := by
    intro d hd i hi
    rcases List.mem_cons.mp hd with rfl | hd
    · rw [hblank] at hi
      exact absurd rfl hi
    · exact h.selfRecorded d hd i hi
  slotOwner := by
    intro k id hk
    rcases hconns k id hk with hold | hself
    · obtain ⟨d, hd, hdk⟩ := h.slotOwner k id hold
      exact ⟨d, List.mem_cons_of_mem _ hd, hdk⟩
    · exact ⟨n, List.mem_cons_self, hself⟩
  owners := h.owners

theorem Reached.of_effect (h : Reached s) (heff : Effect s op t) : Reached t := by
  cases heff with
  | @build id mem k new idle =>
    refine h.build new rfl fun l i hl => ?_
    by_cases hlk : l = k
    · subst hlk
      rw [Function.update_self] at hl
      exact .inr ⟨Option.some_inj.mp hl, rfl⟩
    · rw [Function.update_of_ne hlk] at hl
      exact .inl hl
  | @reply id c mem same => exact h.rewrite mem rfl rfl (fun i _ => .inr rfl) h.owners
  | grantMany mem same slot => exact h.grantSession mem slot
  | grantOne mem same slot => exact h.grantSession mem slot
  | @stop id msg c states mem same own kept =>
    refine h.rewrite mem rfl rfl (fun i hi => .inr ?_) (fun i hi => ?_)
    · by_cases hflag : i ∈ flagged msg
      · exact absurd (if_pos hflag) hi
      · exact if_neg hflag
    · by_cases hflag : i ∈ flagged msg
      · exact absurd (if_pos hflag) hi
      · have hsame : (stopRemote (flagged msg) msg.sizeGb s.rdmaRemote).connMap i =
            s.rdmaRemote.connMap i := if_neg hflag
        rw [hsame] at hi ⊢
        exact h.owners i hi
  | @destroy id c k running mem same slot =>
    refine ⟨?_, fun d hd => h.selfRecorded d (mem_dropKey.mp hd).1, fun l i hl => ?_,
      fun i hi => ?_⟩
    · exact h.ids_nodup.sublist (List.filter_sublist.map _)
    · -- the slot of the closing connection is cleared, so no other slot points to it
      by_cases hlk : l = k
      · subst hlk
        simp at hl
      · simp only [Function.update_of_ne hlk] at hl
        obtain ⟨d, hd, hdid, hdl⟩ := h.slotOwner l i hl
        refine ⟨d, mem_dropKey.mpr ⟨hd, fun hdc => hlk ?_⟩, hdid, hdl⟩
        obtain rfl : d = c := List.inj_on_of_nodup_map h.ids_nodup hd mem hdc
        exact Fin.ext (Int.ofNat_inj.mp (hdl.symm.trans slot))
    · by_cases hsame : (releaseRemote c s.rdmaRemote).connMap i = s.rdmaRemote.connMap i
      · dsimp only at hi ⊢
        rw [hsame] at hi ⊢
        exact h.owners i hi
      · exact absurd (releaseRemote_connMap hsame).2 hi
  | @expand g memalign above =>
    refine ⟨h.ids_nodup, h.selfRecorded, h.slotOwner, ?_⟩
    rw [freeMemExpand_eq]
    exact h.owners
  | @evict stopG pos =>
    refine ⟨h.ids_nodup, h.selfRecorded, h.slotOwner, ?_⟩
    rw [evictUnmapped_eq]
    exact h.owners

theorem Reached.of_step (h : Reached s) (hstep : step s op = some t) : Reached t := by
  rcases step_cases h.selfRecorded hstep with heff | ⟨id, mem, rfl, -, hnew, rfl⟩
  · exact h.of_effect heff
  · exact h.build hnew rfl fun k i hk => .inl hk

theorem reached_of_run {freeMemG : ℤ} {memalign : Chunk cfg → BitVec 64} {ops : List (Op cfg)}
    (hrun : run step (rdmaSessionInit freeMemG memalign) ops = some s) : Reached s :=
  run_keeps (fun _ _ _ (h : Reached _) hstep => h.of_step hstep) (reached_init freeMemG memalign)
    hrun

end SystemDev.Server
