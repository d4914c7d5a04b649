import SystemDev.Library.Count
import SystemDev.Server.Reach

/-!
# Connection slots

`build_connection` looks for an idle slot and has no branch for the case that there is none:
the connection is counted all the same and keeps whatever `conn_index` its memory held. As
long as every connect request finds an idle slot, slots, connections and `conn_num` agree,
whatever messages arrive in between.

## Main results

* `SlotsKept.of_effect` — every step with a slot keeps the slots consistent
* `not_consistent_buildWithoutSlot` — a connection without a slot is one too many
* `slots_consistent_iff` — the runs along which the slots stay consistent
-/

namespace SystemDev.Server

open SystemDev.Library SystemDev.Rdma

variable {cfg : ServerConfig} {s t : RdmaSession cfg} {op : Op cfg} {c d : Connection cfg}

/-- The number of slots that are not idle. -/
def busySlots (states : Slot cfg → ConnState) : ℕ :=
  (Finset.univ.filter fun k => states k ≠ .idle).card

/-- Every live connection is found at its own slot, which is not idle, no two share an index,
and `conn_num` counts the connections and the slots in use. -/
structure SlotsConsistent (s : RdmaSession cfg) : Prop where
  slot : ∀ c ∈ s.live, ∃ k : Slot cfg, c.connIndex = (k : ℕ) ∧ s.conns k = some c.id ∧
    s.connsState k ≠ .idle
  distinct : (s.live.map Connection.connIndex).Nodup
  live_count : s.connNum = s.live.length
  slot_count : s.connNum = busySlots s.connsState

/-- Consistent slots, with what holds in every run anyway. -/
structure SlotsKept (s : RdmaSession cfg) : Prop extends Reached s, SlotsConsistent s

/-- A connect request finds an idle slot. -/
def FindsSlot (s : RdmaSession cfg) : Op cfg → Prop
  | .buildConnection _ _ => ∃ k, s.connsState k = .idle
  | _ => True

instance : ∀ op, Decidable (FindsSlot s op)
  | .buildConnection _ _ => inferInstanceAs (Decidable (∃ k, s.connsState k = .idle))
  | .done _ _ => .isTrue trivial
  | .sendFreeMemSize _ => .isTrue trivial
  | .requestChunks _ _ _ => .isTrue trivial
  | .requestSingleChunk _ _ _ => .isTrue trivial
  | .destroyConnection _ => .isTrue trivial
  | .expand _ _ => .isTrue trivial
  | .evictUnmapped _ => .isTrue trivial

/-! ### Counting slots -/

theorem busySlots_update (states : Slot cfg → ConnState) (k : Slot cfg) (state : ConnState) :
    busySlots (Function.update states k state) + (if states k ≠ .idle then 1 else 0) =
      busySlots states + if state ≠ .idle then 1 else 0 := by
  rw [busySlots, busySlots, Finset.card_filter, Finset.card_filter]
  exact sum_apply_update (fun st => if st ≠ .idle then 1 else 0) states k state

/-- Slots that are idle in the same places are as many. -/
theorem busySlots_congr {states states' : Slot cfg → ConnState}
    (h : ∀ k, states k = .idle ↔ states' k = .idle) : busySlots states = busySlots states' := by
  rw [busySlots, busySlots]
  congr 1
  ext k
  simp [h k]

/-- Moving a busy slot to another busy state makes no slot idle and none busy. -/
theorem update_idle_iff {states : Slot cfg → ConnState} {k l : Slot cfg} {state : ConnState}
    (hbusy : states k ≠ .idle) (hstate : state ≠ .idle) :
    Function.update states k state l = .idle ↔ states l = .idle := by
  by_cases hlk : l = k
  · subst hlk
    rw [Function.update_self]
    exact iff_of_false hstate hbusy
  · rw [Function.update_of_ne hlk]

/-! ### Steps that keep the slots -/

theorem slotsKept_init (freeMemG : ℤ) (memalign : Chunk cfg → BitVec 64) :
    SlotsKept (rdmaSessionInit freeMemG memalign) where
  toReached := reached_init freeMemG memalign
  slot := by simp [rdmaSessionInit]
  distinct := List.nodup_nil
  live_count := rfl
  slot_count := by simp [rdmaSessionInit, busySlots]

/-- The slot of a connection by its index. -/
theorem SlotsConsistent.at_index (h : SlotsConsistent s) (hc : c ∈ s.live) {k : Slot cfg}
    (hk : c.connIndex = (k : ℕ)) : s.conns k = some c.id ∧ s.connsState k ≠ .idle := by
  obtain ⟨l, hl, hslot⟩ := h.slot c hc
  obtain rfl : l = k := Fin.ext (Int.ofNat_inj.mp (hl.symm.trans hk))
  exact hslot

theorem SlotsConsistent.rewrite (h : SlotsConsistent s) (hids : (s.live.map Connection.id).Nodup)
    (hc : c ∈ s.live) {c' : Connection cfg} {r : RdmaRemoteMem cfg}
    {states : Slot cfg → ConnState} (hid : c'.id = c.id) (hindex : c'.connIndex = c.connIndex)
    (hstates : ∀ k, states k = .idle ↔ s.connsState k = .idle) :
    SlotsConsistent (s.rewrite c' r states) where
  slot := by
    intro d hd
    rcases mem_live_rewrite hd with rfl | ⟨hd, -⟩
    · obtain ⟨k, hk, hconns, hbusy⟩ := h.slot c hc
      exact ⟨k, hindex.trans hk, hid ▸ hconns, fun hidle => hbusy ((hstates k).mp hidle)⟩
    · obtain ⟨k, hk, hconns, hbusy⟩ := h.slot d hd
      exact ⟨k, hk, hconns, fun hidle => hbusy ((hstates k).mp hidle)⟩
  distinct := by
    rw [live_rewrite, map_rewriteKey fun d hd hkey => ?_]
    · exact h.distinct
    · obtain rfl : d = c := List.inj_on_of_nodup_map hids hd hc (hkey.trans hid)
      exact hindex.symm
  live_count := by
    rw [live_rewrite, rewriteKey, List.length_map]
    exact h.live_count
  slot_count := h.slot_count.trans (congrArg Nat.cast (busySlots_congr hstates).symm)

/-- A new connection takes an idle slot. -/
theorem SlotsConsistent.build (h : SlotsConsistent s) {k : Slot cfg} {n : Connection cfg}
    (hidle : s.connsState k = .idle) (hindex : n.connIndex = (k : ℕ)) :
    SlotsConsistent { s with
      live := n :: s.live
      conns := Function.update s.conns k (some n.id)
      connsState := Function.update s.connsState k .connected
      connNum := s.connNum + 1 } where
  slot := by
    intro d hd
    rcases List.mem_cons.mp hd with rfl | hd
    · exact ⟨k, hindex, Function.update_self .., by simp⟩
    · obtain ⟨l, hl, hconns, hbusy⟩ := h.slot d hd
      have hlk : l ≠ k := fun heq => hbusy (heq ▸ hidle)
      exact ⟨l, hl, (Function.update_of_ne hlk ..).trans hconns, fun h =>
        hbusy ((Function.update_of_ne hlk ..).symm.trans h)⟩
  distinct := by
    refine List.nodup_cons.mpr ⟨fun hmem => ?_, h.distinct⟩
    obtain ⟨d, hd, hdn⟩ := List.mem_map.mp hmem
    exact (h.at_index hd (hdn.trans hindex)).2 hidle
  live_count := by
    rw [h.live_count, List.length_cons]
    rfl
  slot_count := by
    have hupdate := busySlots_update s.connsState k .connected
    rw [if_neg (not_not.mpr hidle), if_pos (by decide)] at hupdate
    have hold := h.slot_count
    change s.connNum + 1 = (busySlots (Function.update s.connsState k .connected) : ℕ)
    omega

/-- A closing connection gives its slot back. -/
theorem SlotsConsistent.destroy (h : SlotsConsistent s) (hids : (s.live.map Connection.id).Nodup)
    (hc : c ∈ s.live) {k : Slot cfg} (hk : c.connIndex = (k : ℕ)) {r : RdmaRemoteMem cfg}
    {running : Bool} :
    SlotsConsistent { s with
      live := dropKey Connection.id c s.live
      conns := Function.update s.conns k none
      connsState := Function.update s.connsState k .idle
      connNum := s.connNum - 1
      rdmaRemote := r
      running := running } where
  slot := by
    intro d hd
    obtain ⟨hd, hne⟩ := mem_dropKey.mp hd
    obtain ⟨l, hl, hconns, hbusy⟩ := h.slot d hd
    have hlk : l ≠ k := by
      rintro rfl
      exact hne (Option.some_inj.mp (hconns.symm.trans (h.at_index hc hk).1))
    exact ⟨l, hl, (Function.update_of_ne hlk ..).trans hconns, fun h =>
      hbusy ((Function.update_of_ne hlk ..).symm.trans h)⟩
  distinct := h.distinct.sublist (List.filter_sublist.map _)
  live_count := by rw [length_dropKey hids hc, h.live_count]
  slot_count := by
    have hupdate := busySlots_update s.connsState k .idle
    rw [if_pos (h.at_index hc hk).2, if_neg (by decide)] at hupdate
    have hold := h.slot_count
    change s.connNum - 1 = (busySlots (Function.update s.connsState k .idle) : ℕ)
    omega

theorem SlotsConsistent.grantSession (h : SlotsConsistent s)
    (hids : (s.live.map Connection.id).Nodup) (hc : c ∈ s.live) {k : Slot cfg}
    (hk : c.connIndex = (k : ℕ)) {rkeys : Chunk cfg → BitVec 32} {target amount sizeGb : ℤ}
    {type : MessageType} :
    SlotsConsistent (grantSession s c k rkeys target amount type sizeGb) :=
  h.rewrite hids hc rfl rfl fun _ => update_idle_iff (h.at_index hc hk).2 (by decide)

/-- A `DONE` message moves no slot in or out of idle: it marks the slot of its sender. -/
theorem SlotsKept.idle_iff_of_done (h : SlotsKept s) {id : ℕ} {msg : Message cfg.maxFreeMemGb}
    (hstep : step s (.done id msg) = some t) (k : Slot cfg) :
    t.connsState k = .idle ↔ s.connsState k = .idle := by
  obtain ⟨c, hc, hrest⟩ := Option.bind_eq_some_iff.mp hstep
  obtain ⟨hmem, -⟩ := mem_live_of_conn? hc
  split_ifs at hrest
  have hown := recorded_of_recvDone hrest
  rw [recvDone_eq fun i hi => h.selfRecorded c hmem i (hown i hi)] at hrest
  simp only at hrest
  split_ifs at hrest
  · obtain ⟨l, hl, rfl⟩ := Option.map_eq_some_iff.mp hrest
    have hindex : c.connIndex = (l : ℕ) := index?_eq_some_iff.mp hl
    exact update_idle_iff (h.at_index hmem hindex).2 (by decide)
  · obtain rfl := Option.some_inj.mp hrest
    exact Iff.rfl

theorem SlotsKept.of_effect (h : SlotsKept s) (hstep : step s op = some t)
    (heff : Effect s op t) : SlotsKept t := by
  refine ⟨h.toReached.of_effect heff, ?_⟩
  cases heff with
  | build new idle => exact h.toSlotsConsistent.build idle rfl
  | reply mem same => exact h.toSlotsConsistent.rewrite h.ids_nodup mem rfl rfl fun _ => Iff.rfl
  | grantMany mem same slot => exact h.toSlotsConsistent.grantSession h.ids_nodup mem slot
  | grantOne mem same slot => exact h.toSlotsConsistent.grantSession h.ids_nodup mem slot
  | stop mem same own kept =>
    exact h.toSlotsConsistent.rewrite h.ids_nodup mem rfl rfl (h.idle_iff_of_done hstep)
  | destroy mem same slot => exact h.toSlotsConsistent.destroy h.ids_nodup mem slot
  | expand above => exact ⟨h.slot, h.distinct, h.live_count, h.slot_count⟩
  | evict pos => exact ⟨h.slot, h.distinct, h.live_count, h.slot_count⟩

/-! ### Runs -/

/-- A connection built without a slot is counted, and no slot is. -/
theorem not_consistent_buildWithoutSlot (h : SlotsConsistent s) {id : ℕ} {mem : Connection cfg} :
    ¬ SlotsConsistent (buildWithoutSlot s id mem) := by
  intro hbad
  have hcount : s.connNum + 1 = busySlots s.connsState := hbad.slot_count
  have hold := h.slot_count
  omega

theorem SlotsKept.of_step (h : SlotsKept s) (hop : FindsSlot s op) (hstep : step s op = some t) :
    SlotsKept t := by
  rcases step_cases h.selfRecorded hstep with heff | ⟨id, mem, rfl, hnone, -⟩
  · exact h.of_effect hstep heff
  · obtain ⟨k, hk⟩ := hop
    exact absurd hk (hnone k)

/-- A step after which the slots are consistent found a slot if it needed one. -/
theorem findsSlot_of_consistent (h : SlotsKept s) (hstep : step s op = some t)
    (ht : SlotsConsistent t) : FindsSlot s op := by
  rcases step_cases h.selfRecorded hstep with heff | ⟨id, mem, rfl, -, -, rfl⟩
  · cases heff with
    | build new idle => exact ⟨_, idle⟩
    | _ => trivial
  · exact absurd ht (not_consistent_buildWithoutSlot h.toSlotsConsistent)

/-- Along a run of the server the slots are consistent in every state exactly if every
connect request arrives while a slot is idle. -/
theorem slots_consistent_iff {freeMemG : ℤ} {memalign : Chunk cfg → BitVec 64}
    {ops : List (Op cfg)} (hrun : run step (rdmaSessionInit freeMemG memalign) ops = some t) :
    EveryState step SlotsConsistent (rdmaSessionInit freeMemG memalign) ops ↔
      EachStep step FindsSlot (rdmaSessionInit freeMemG memalign) ops := by
  have heach : EachStep step (fun _ _ => True) (rdmaSessionInit freeMemG memalign) ops :=
    eachStep_of_forall fun _ _ => trivial
  exact everyState_iff_eachStep
    (fun _ _ _ (h : SlotsKept _) _ hop hstep => h.of_step hop hstep)
    (fun _ h => h.toSlotsConsistent)
    (fun _ _ _ h _ hstep ht => findsSlot_of_consistent h hstep ht)
    (slotsKept_init freeMemG memalign) heach hrun

/-- The server as it is configured by default, with one slot. -/
def oneSlotServer : RdmaSession defaultConfig := rdmaSessionInit 24 fun _ => 0x1000

/-- A client that leaves before the next one comes. -/
theorem slots_consistent_in_turn :
    EveryState step SlotsConsistent oneSlotServer
      [.buildConnection 7 blankConnection, .destroyConnection 7,
        .buildConnection 8 blankConnection] := by
  have hsome : (run step oneSlotServer [.buildConnection 7 blankConnection, .destroyConnection 7,
      .buildConnection 8 blankConnection]).isSome := by decide +kernel
  obtain ⟨t, ht⟩ := Option.isSome_iff_exists.mp hsome
  exact (slots_consistent_iff ht).mpr (by decide +kernel)

/-- Two clients at a time: the second is counted, and has no slot. -/
theorem slots_inconsistent_together :
    ∃ t, run step oneSlotServer [.buildConnection 7 blankConnection,
      .buildConnection 8 blankConnection] = some t ∧ ¬ SlotsConsistent t := by
  have hcounts : (run step oneSlotServer [.buildConnection 7 blankConnection,
      .buildConnection 8 blankConnection]).any
        fun t => t.connNum ≠ (busySlots t.connsState : ℤ) := by decide +kernel
  obtain ⟨t, ht, hne⟩ := (Option.any_eq_true _ _).mp hcounts
  exact ⟨t, ht, fun h => of_decide_eq_true hne h.slot_count⟩

end SystemDev.Server
