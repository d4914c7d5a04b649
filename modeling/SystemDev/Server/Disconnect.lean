import SystemDev.Server.Messages

/-!
# Chunks of a closing connection

`destroy_connection` gives a connection's chunks back only when the connection's counter is
positive, and frees its slot in any case. Chunks that it leaves behind are mapped to a slot
without a connection, and belong in the tables to whoever takes the slot next.

The loop is right as long as a connection that records a chunk has a positive counter. Only
requests change both: a request adds the size it asks for to the counter, and records what
the grant loop finds. A size of zero or less is therefore the way to record chunks that are
not counted, and so is a size that takes the counter beyond the largest `int`.

## Main results

* `Releasable.of_effect` — the invariant is kept by requests that charge for what they get
* `releases_all_iff_charges` — the runs in which every disconnect releases everything
-/

namespace SystemDev.Server

open SystemDev.Library SystemDev.Rdma

variable {cfg : ServerConfig} {s t : RdmaSession cfg} {op : Op cfg} {c d : Connection cfg}
  {r : RdmaRemoteMem cfg}

/-- After `destroy_connection(c)` the chunks that `c` recorded can be granted again, none is
mapped to its slot, and the tables of all other chunks are as before. -/
structure ReleasedAll (s t : RdmaSession cfg) (c : Connection cfg) : Prop where
  grantable : ∀ i, c.sessChunkMap i ≠ -1 →
    t.rdmaRemote.connMap i = -1 ∧ freeChunk t.rdmaRemote i = true
  vacated : ∀ i, t.rdmaRemote.connMap i ≠ c.connIndex
  others : ∀ i, s.rdmaRemote.connMap i ≠ c.connIndex →
    t.rdmaRemote.connMap i = s.rdmaRemote.connMap i ∧
      t.rdmaRemote.mallocMap i = s.rdmaRemote.mallocMap i ∧
      t.rdmaRemote.connChunkMap i = s.rdmaRemote.connChunkMap i ∧
      t.rdmaRemote.regionList i = s.rdmaRemote.regionList i ∧
      t.rdmaRemote.mrList i = s.rdmaRemote.mrList i
  records : ∀ d ∈ s.live, d.id ≠ c.id → d ∈ t.live

/-- Whichever live connection is destroyed, its chunks are released. -/
def ReleasesAll (s : RdmaSession cfg) : Prop :=
  ∀ c ∈ s.live, ∃ t, destroyConnection s c = some t ∧ ReleasedAll s t c

/-- The operations of a run without `DONE` messages, in which connections are built while a
slot is idle. -/
def WithoutDone (s : RdmaSession cfg) : Op cfg → Prop
  | .buildConnection _ _ => ∃ k, s.connsState k = .idle
  | .done _ _ => False
  | _ => True

instance : ∀ op, Decidable (WithoutDone s op)
  | .buildConnection _ _ => inferInstanceAs (Decidable (∃ k, s.connsState k = .idle))
  | .done _ _ => .isFalse id
  | .sendFreeMemSize _ => .isTrue trivial
  | .requestChunks _ _ _ => .isTrue trivial
  | .requestSingleChunk _ _ _ => .isTrue trivial
  | .destroyConnection _ => .isTrue trivial
  | .expand _ _ => .isTrue trivial
  | .evictUnmapped _ => .isTrue trivial

theorem WithoutDone.ownDone (h : WithoutDone s op) : OwnDone s op := by
  cases op with
  | buildConnection id mem => exact h
  | done id msg => exact h.elim
  | _ => trivial

/-- A request for `n` by connection `id` leaves the counter positive, or records nothing for a
connection that records nothing. -/
def Charges (s : RdmaSession cfg) (id : ℕ) (n : ℤ) : Prop :=
  ∀ c ∈ s.live, c.id = id →
    0 < wrapInt (c.mappedChunkSize + n) ∨ (heldChunks c = [] ∧ freeChunks s.rdmaRemote = [])

instance (id : ℕ) (n : ℤ) : Decidable (Charges s id n) :=
  inferInstanceAs (Decidable (∀ c ∈ s.live, _ → _ ∨ (_ = [] ∧ _ = [])))

/-- Every request charges for what it gets. -/
def ChargesRequest (s : RdmaSession cfg) : Op cfg → Prop
  | .requestChunks id n _ => Charges s id n
  | .requestSingleChunk id _ _ => Charges s id 1
  | _ => True

instance : ∀ op, Decidable (ChargesRequest s op)
  | .requestChunks id n _ => inferInstanceAs (Decidable (Charges s id n))
  | .requestSingleChunk id _ _ => inferInstanceAs (Decidable (Charges s id 1))
  | .buildConnection _ _ => .isTrue trivial
  | .done _ _ => .isTrue trivial
  | .sendFreeMemSize _ => .isTrue trivial
  | .destroyConnection _ => .isTrue trivial
  | .expand _ _ => .isTrue trivial
  | .evictUnmapped _ => .isTrue trivial

/-- Every mapped chunk is recorded by a live connection, and a connection that records a chunk
has a positive counter. -/
structure Releasable (s : RdmaSession cfg) : Prop extends WellOwned s where
  held : ∀ i, s.rdmaRemote.connMap i ≠ -1 → ∃ c ∈ s.live, c.sessChunkMap i ≠ -1
  charged : ∀ c ∈ s.live, 0 < c.mappedChunkSize ∨ heldChunks c = []

/-- A mapped chunk is recorded by the connection whose slot it is mapped to. -/
theorem Releasable.recorded_of_connMap (h : Releasable s) (hc : c ∈ s.live) {i : Chunk cfg}
    (hi : s.rdmaRemote.connMap i = c.connIndex) : c.sessChunkMap i ≠ -1 := by
  obtain ⟨d, hd, hdi⟩ := h.held i (by rw [hi]; exact h.connIndex_ne hc)
  have hsame : d = c :=
    h.eq_of_connIndex hd hc ((h.recorded d hd i hdi).2.symm.trans hi)
  rwa [hsame] at hdi

/-- A connection with a positive counter, or without chunks, releases them all. -/
theorem releaseRemote_of_charged (h : 0 < c.mappedChunkSize ∨ heldChunks c = [])
    (r : RdmaRemoteMem cfg) (i : Chunk cfg) :
    (releaseRemote c r).connMap i = (if i ∈ heldChunks c then -1 else r.connMap i) ∧
      (releaseRemote c r).connChunkMap i =
        (if i ∈ heldChunks c then -1 else r.connChunkMap i) := by
  rw [releaseRemote]
  by_cases hpos : 0 < c.mappedChunkSize
  · rw [if_pos hpos]
    exact ⟨rfl, rfl⟩
  · have hnone : heldChunks c = [] := h.resolve_left hpos
    rw [if_neg hpos, hnone]
    exact ⟨rfl, rfl⟩

theorem releaseRemote_regionList (r : RdmaRemoteMem cfg) :
    (releaseRemote c r).regionList = r.regionList ∧ (releaseRemote c r).mrList = r.mrList := by
  rw [releaseRemote]
  split_ifs
  · exact ⟨rfl, rfl⟩
  · exact ⟨rfl, rfl⟩

theorem Releasable.releasesAll (h : Releasable s) : ReleasesAll s := by
  intro c hc
  obtain ⟨k, hk, -⟩ := h.slot c hc
  have hfreed := releaseRemote_of_charged (h.charged c hc) s.rdmaRemote
  obtain ⟨hregion, hmr⟩ := releaseRemote_regionList (c := c) s.rdmaRemote
  have hmalloc := releaseRemote_mallocMap (c := c) s.rdmaRemote
  refine ⟨_, destroyConnection_eq (h.selfRecorded c hc) hk, ?_, ?_, ?_, ?_⟩
  · intro i hi
    have hunmapped : (releaseRemote c s.rdmaRemote).connMap i = -1 := by
      rw [(hfreed i).1]
      exact if_pos (mem_heldChunks.mpr hi)
    refine ⟨hunmapped, freeChunk_iff.mpr ⟨?_, hunmapped⟩⟩
    rw [hmalloc]
    exact h.malloced i (h.mapped_of_recorded hc hi)
  · intro i
    change (releaseRemote c s.rdmaRemote).connMap i ≠ c.connIndex
    rw [(hfreed i).1]
    by_cases hi : i ∈ heldChunks c
    · rw [if_pos hi]
      exact (h.connIndex_ne hc).symm
    · rw [if_neg hi]
      exact fun hmap => hi (mem_heldChunks.mpr (h.recorded_of_connMap hc hmap))
  · intro i hi
    have hheld : i ∉ heldChunks c := by
      intro hmem
      exact hi (h.recorded c hc i (mem_heldChunks.mp hmem)).2
    dsimp only
    rw [(hfreed i).1, (hfreed i).2, hmalloc, hregion, hmr, if_neg hheld, if_neg hheld]
    exact ⟨rfl, rfl, rfl, rfl, rfl⟩
  · intro d hd hne
    exact List.mem_filter.mpr ⟨hd, by simpa using hne⟩

/-- A connection whose chunks are released has a positive counter or none to release. -/
theorem WellOwned.charged_of_releasedAll (h : WellOwned s) (hc : c ∈ s.live)
    (hdestroy : destroyConnection s c = some t) (hreleased : ReleasedAll s t c) :
    0 < c.mappedChunkSize ∨ heldChunks c = [] := by
  obtain ⟨k, hk, -⟩ := h.slot c hc
  rw [destroyConnection_eq (h.selfRecorded c hc) hk] at hdestroy
  obtain rfl := Option.some_inj.mp hdestroy
  by_contra hnot
  obtain ⟨hskip, hsome⟩ := not_or.mp hnot
  obtain ⟨i, hi⟩ := List.exists_mem_of_ne_nil _ hsome
  have hrec := mem_heldChunks.mp hi
  -- the loop is skipped, so the chunk is still mapped
  have hleft := (hreleased.grantable i hrec).1
  dsimp only at hleft
  rw [releaseRemote, if_neg hskip] at hleft
  exact h.mapped_of_recorded hc hrec hleft

/-! ### The invariant along a run -/

theorem granted_eq_nil_iff {n : ℤ} : granted r n = [] ↔ freeChunks r = [] := by
  rw [granted]
  cases freeChunks r with
  | nil => exact iff_of_true rfl rfl
  | cons i l => exact iff_of_false (List.cons_ne_nil _ _) (List.cons_ne_nil _ _)

/-- What a connection records after a grant. -/
theorem heldChunks_grantConn_eq_nil_iff {rkeys : Chunk cfg → BitVec 32} {n amount sizeGb : ℤ}
    {type : MessageType} :
    heldChunks (grantConn rkeys (granted r n) amount type sizeGb r c) = [] ↔
      heldChunks c = [] ∧ freeChunks r = [] := by
  rw [← granted_eq_nil_iff (n := n), List.eq_nil_iff_forall_not_mem,
    List.eq_nil_iff_forall_not_mem, List.eq_nil_iff_forall_not_mem, ← forall_and]
  refine forall_congr' fun i => ?_
  have hval : ((i : ℕ) : ℤ) ≠ -1 := by omega
  rw [mem_heldChunks, mem_heldChunks]
  by_cases hi : i ∈ granted r n
  · simp [grantConn, hi, hval]
  · simp [grantConn, hi]

theorem releasable_init (freeMemG : ℤ) (memalign : Chunk cfg → BitVec 64) :
    Releasable (rdmaSessionInit freeMemG memalign) where
  toWellOwned := wellOwned_init freeMemG memalign
  held := by simp [rdmaSessionInit]
  charged := by simp [rdmaSessionInit]

/-- A request keeps the invariant when it charges for what it gets. -/
theorem Releasable.grantSession (h : Releasable s) (hc : c ∈ s.live) {k : Slot cfg}
    {rkeys : Chunk cfg → BitVec 32} {n sizeGb : ℤ} {type : MessageType}
    (hcharges : Charges s c.id n) :
    Releasable (grantSession s c k rkeys n n type sizeGb) where
  toWellOwned := h.toWellOwned.grantSession hc
  held := by
    intro i hi
    have hself : grantConn rkeys (granted s.rdmaRemote n) n type sizeGb s.rdmaRemote c ∈
        (Server.grantSession s c k rkeys n n type sizeGb).live :=
      mem_rewriteKey_self hc rfl
    by_cases hg : i ∈ granted s.rdmaRemote n
    · have hrecords : (grantConn rkeys (granted s.rdmaRemote n) n type sizeGb s.rdmaRemote
          c).sessChunkMap i = ((i : ℕ) : ℤ) := if_pos hg
      exact ⟨_, hself, by omega⟩
    · obtain ⟨d, hd, hdi⟩ := h.held i (by simpa [Server.grantSession, RdmaSession.rewrite,
        grantRemote, hg] using hi)
      by_cases hid : d.id = c.id
      · obtain rfl := h.eq_of_id hd hc hid
        exact ⟨_, hself, by simpa [grantConn, hg] using hdi⟩
      · refine ⟨d, ?_, hdi⟩
        exact (mem_rewriteKey_iff (c := grantConn _ _ _ _ _ _ c) hid).mpr hd
  charged := by
    intro d hd
    rcases mem_live_rewrite hd with rfl | ⟨hd, -⟩
    · rw [heldChunks_grantConn_eq_nil_iff]
      exact hcharges c hc rfl
    · exact h.charged d hd

/-- The invariant rests on the owners and the records only. -/
theorem Releasable.of_sameOwners (h : Releasable s) (howned : WellOwned { s with rdmaRemote := r })
    (hmap : r.connMap = s.rdmaRemote.connMap) : Releasable { s with rdmaRemote := r } where
  toWellOwned := howned
  held := fun i hi => h.held i (by rwa [hmap] at hi)
  charged := h.charged

theorem Releasable.of_effect (h : Releasable s) (heff : Effect s op t) (hop : WithoutDone s op)
    (hcharges : ChargesRequest s op) : Releasable t := by
  have howned := h.toWellOwned.of_effect heff
  cases heff with
  | build new idle =>
    refine ⟨howned, fun i hi => ?_, fun d hd => ?_⟩
    · obtain ⟨d, hd, hdi⟩ := h.held i hi
      exact ⟨d, List.mem_cons_of_mem _ hd, hdi⟩
    · rcases List.mem_cons.mp hd with rfl | hd
      · exact .inr (by simp [heldChunks])
      · exact h.charged d hd
  | @reply id c mem same =>
    refine ⟨howned, fun i hi => ?_, fun d hd => ?_⟩
    · obtain ⟨d, hd, hdi⟩ := h.held i hi
      by_cases hid : d.id = c.id
      · obtain rfl := h.eq_of_id hd mem hid
        exact ⟨_, mem_rewriteKey_self hd rfl, hdi⟩
      · exact ⟨d, (mem_rewriteKey_iff (c := sendFreeMemSize _ c) hid).mpr hd, hdi⟩
    · rcases mem_live_rewrite hd with rfl | ⟨hd, -⟩
      · exact h.charged c mem
      · exact h.charged d hd
  | @grantMany id sizeGb rkeys c k mem same slot =>
    obtain rfl := same
    rw [chunkSizeGb, Int.tdiv_one]
    exact h.grantSession mem hcharges
  | @grantOne id sizeGb rkeys c k mem same slot =>
    obtain rfl := same
    exact h.grantSession mem hcharges
  | stop mem same own kept => exact hop.elim
  | @destroy id c k running mem same slot =>
    have hfreed := releaseRemote_of_charged (h.charged c mem) s.rdmaRemote
    refine ⟨howned, fun i hi => ?_, fun d hd => h.charged d (mem_dropKey.mp hd).1⟩
    change (releaseRemote c s.rdmaRemote).connMap i ≠ -1 at hi
    rw [(hfreed i).1] at hi
    -- a chunk that is still mapped was not recorded by the closing connection
    split_ifs at hi with hheld
    · exact absurd rfl hi
    · obtain ⟨d, hd, hdi⟩ := h.held i hi
      refine ⟨d, mem_dropKey.mpr ⟨hd, fun hid => ?_⟩, hdi⟩
      obtain rfl := h.eq_of_id hd mem hid
      exact hheld (mem_heldChunks.mpr hdi)
  | expand above => exact h.of_sameOwners howned (by rw [freeMemExpand_eq])
  | evict pos => exact h.of_sameOwners howned (by rw [evictUnmapped_eq])

/-- A request behind which every disconnect releases everything has charged for what it got. -/
theorem Releasable.chargesRequest (h : Releasable s) (heff : Effect s op t)
    (hafter : ReleasesAll t) : ChargesRequest s op := by
  have howned := h.toWellOwned.of_effect heff
  have hcharges : ∀ {c : Connection cfg} {k : Slot cfg} {rkeys : Chunk cfg → BitVec 32}
      {n sizeGb : ℤ} {type : MessageType}, c ∈ s.live →
      t = Server.grantSession s c k rkeys n n type sizeGb → Charges s c.id n := by
    rintro c k rkeys n sizeGb type hc rfl d hd hid
    obtain rfl := h.eq_of_id hd hc hid
    have hself : grantConn rkeys (granted s.rdmaRemote n) n type sizeGb s.rdmaRemote d ∈
        (Server.grantSession s d k rkeys n n type sizeGb).live :=
      mem_rewriteKey_self hd rfl
    obtain ⟨u, hu, hreleased⟩ := hafter _ hself
    have hcharged := howned.charged_of_releasedAll hself hu hreleased
    rwa [heldChunks_grantConn_eq_nil_iff] at hcharged
  cases heff with
  | @grantMany id sizeGb rkeys c k mem same slot =>
    obtain rfl := same
    rw [chunkSizeGb, Int.tdiv_one] at hcharges
    exact hcharges mem rfl
  | @grantOne id sizeGb rkeys c k mem same slot =>
    obtain rfl := same
    exact hcharges mem rfl
  | build new idle => trivial
  | reply mem same => trivial
  | stop mem same own kept => trivial
  | destroy mem same slot => trivial
  | expand above => trivial
  | evict pos => trivial

/-- Along every run without `DONE` messages in which connections find an idle slot: destroying
any live connection would release everything in every state reached, if and only if every
request leaves its connection's counter positive or finds nothing for a connection that
records nothing. -/
theorem releases_all_iff_charges (freeMemG : ℤ) (memalign : Chunk cfg → BitVec 64)
    (ops : List (Op cfg)) (s : RdmaSession cfg)
    (hops : EachStep step WithoutDone (rdmaSessionInit freeMemG memalign) ops)
    (hrun : run step (rdmaSessionInit freeMemG memalign) ops = some s) :
    EveryState step ReleasesAll (rdmaSessionInit freeMemG memalign) ops ↔
      EachStep step ChargesRequest (rdmaSessionInit freeMemG memalign) ops :=
  everyState_iff_eachStep
    (fun _ _ _ h hop hcharges hstep =>
      Releasable.of_effect h (step_effect h.toWellOwned hop.ownDone hstep) hop hcharges)
    (fun _ h => h.releasesAll)
    (fun _ _ _ h hop hstep hafter =>
      h.chargesRequest (step_effect h.toWellOwned hop.ownDone hstep) hafter)
    (releasable_init freeMemG memalign) hops hrun

/-- A client takes chunks twice and disconnects, and another one takes its slot. -/
def twoVisits : List (Op defaultConfig) :=
  [.buildConnection 7 blankConnection, .requestChunks 7 1 fun _ => 5,
    .requestSingleChunk 7 0 fun _ => 6, .destroyConnection 7,
    .buildConnection 8 blankConnection, .requestChunks 8 2 fun _ => 5]

theorem releases_all_iff_charges_twoVisits :
    EveryState step ReleasesAll (rdmaSessionInit 11 fun _ => 0x1000) twoVisits := by
  have hends : (run step (rdmaSessionInit 11 fun _ => 0x1000) twoVisits).isSome := by
    decide +kernel
  obtain ⟨s, hs⟩ := Option.isSome_iff_exists.mp hends
  exact (releases_all_iff_charges 11 _ twoVisits s (by decide +kernel) hs).mpr (by decide +kernel)

/-- A client that is counted the largest `int` asks for one chunk more, and its counter becomes
negative. -/
def overflowing : List (Op defaultConfig) :=
  [.buildConnection 7 blankConnection, .requestChunks 7 (2 ^ 31 - 1) fun _ => 5,
    .requestChunks 7 1 fun _ => 5]

example : ¬ EachStep step ChargesRequest (rdmaSessionInit 11 fun _ => 0x1000) overflowing := by
  decide +kernel

/-- A client asks for no chunk. -/
def emptyRequest : List (Op defaultConfig) :=
  [.buildConnection 7 blankConnection, .requestChunks 7 0 fun _ => 5]

/-- It is granted the only one there is, with a counter of zero, and its chunk stays mapped to
its slot when it disconnects. -/
theorem uncounted_chunk_is_not_released :
    EachStep step WithoutDone (rdmaSessionInit 9 fun _ => 0x1000) emptyRequest ∧
      ∃ s, run step (rdmaSessionInit 9 fun _ => 0x1000) emptyRequest = some s ∧
        ¬ ReleasesAll s := by
  have hrun : (run step (rdmaSessionInit 9 fun _ => 0x1000) emptyRequest).any fun s =>
      (s.conn? 7).any fun c => (heldChunks c).any fun i =>
        (destroyConnection s c).all fun t => t.rdmaRemote.connMap i ≠ -1 := by decide +kernel
  obtain ⟨s, hs, hstate⟩ := (Option.any_eq_true _ _).mp hrun
  obtain ⟨c, hc, hconn⟩ := (Option.any_eq_true _ _).mp hstate
  obtain ⟨i, hi, hleft⟩ := List.any_eq_true.mp hconn
  refine ⟨by decide +kernel, s, hs, fun hall => ?_⟩
  obtain ⟨t, ht, hreleased⟩ := hall c (mem_live_of_conn? hc).1
  rw [ht] at hleft
  exact of_decide_eq_true hleft (hreleased.grantable i (mem_heldChunks.mp hi)).1

end SystemDev.Server
