import Mathlib.Data.Fintype.Fin
import SystemDev.Server.Ownership

/-!
# The server's counters

`size_gb`, `mapped_size` and each connection's `mapped_chunk_size` are updated
apart from the loops that change the chunk tables. `Accounted` says that they count
what the tables hold. Every operation but a grant keeps them exact; a grant adds the
number of chunks that was asked for, so it keeps them exact only when it finds that
many (`ExactRequest`).

While the counters are exact they stay below the number of chunks, so no `int`
overflows before the first inexact request.

## Main results

* `Balanced.of_effect` — exact requests keep the inductive invariant
* `accounted_iff_exactRequest` — the runs whose counters stay exact
-/

namespace SystemDev.Server

open SystemDev.Library SystemDev.Rdma

variable {cfg : ServerConfig} {s t : RdmaSession cfg} {op : Op cfg} {c d : Connection cfg}
  {r : RdmaRemoteMem cfg}

/-! ### What the counters should count -/

/-- The number of chunks with `malloc_map = CHUNK_MALLOCED`. -/
def mallocedCount (r : RdmaRemoteMem cfg) : ℕ :=
  (Finset.univ.filter fun i => r.mallocMap i = .malloced).card

/-- The number of chunks with `conn_map != -1`. -/
def mappedCount (r : RdmaRemoteMem cfg) : ℕ :=
  (Finset.univ.filter fun i => r.connMap i ≠ -1).card

theorem length_freeChunks (h : ∀ i, r.connMap i ≠ -1 → r.mallocMap i = .malloced) :
    mallocedCount r = mappedCount r + (freeChunks r).length := by
  -- a malloced chunk is free or mapped, and no chunk is both
  refine card_marked_add _ _ (freeChunks_nodup r) (fun i => ?_) (fun i hi => ?_)
  · constructor
    · intro hm
      by_cases hmap : r.connMap i = -1
      · exact Or.inl (mem_freeChunks.mpr ⟨hm, hmap⟩)
      · exact Or.inr hmap
    · rintro (hfree | hmap)
      · exact (mem_freeChunks.mp hfree).1
      · exact h i hmap
  · simp [(mem_freeChunks.mp hi).2]

theorem length_emptyChunks (r : RdmaRemoteMem cfg) :
    cfg.maxFreeMemGb = mallocedCount r + (emptyChunks r).length := by
  have hall : (Finset.univ.filter fun _ : Chunk cfg => True).card = cfg.maxFreeMemGb := by simp
  rw [← hall]
  refine card_marked_add _ _ ((List.nodup_finRange _).filter _) (fun i => ?_) (fun i hi => ?_)
  · cases hm : r.mallocMap i <;> simp [emptyChunks, hm]
  · simp [mem_emptyChunks.mp hi]

theorem mappedCount_le (r : RdmaRemoteMem cfg) : mappedCount r ≤ cfg.maxFreeMemGb :=
  (Finset.card_filter_le _ _).trans_eq (Finset.card_fin _)

theorem mallocedCount_le (r : RdmaRemoteMem cfg) : mallocedCount r ≤ cfg.maxFreeMemGb :=
  (Finset.card_filter_le _ _).trans_eq (Finset.card_fin _)

theorem length_heldChunks_le (c : Connection cfg) : (heldChunks c).length ≤ cfg.maxFreeMemGb :=
  (List.length_filter_le _ _).trans_eq List.length_finRange

/-! ### How the counts change -/

theorem mappedCount_grantRemote (rkeys : Chunk cfg → BitVec 32) (target amount : ℤ)
    (hindex : c.connIndex ≠ -1) :
    mappedCount (grantRemote rkeys (granted r target) amount c r) =
      mappedCount r + (granted r target).length := by
  refine card_marked_add _ _ (granted_nodup r target) (fun i => ?_) (fun i hi => ?_)
  · by_cases hi : i ∈ granted r target
    · simp [grantRemote, hi, hindex]
    · simp [grantRemote, hi]
  · simp [(free_of_mem_granted hi).2]

theorem length_heldChunks_grantConn (rkeys : Chunk cfg → BitVec 32) (target amount sizeGb : ℤ)
    (type : MessageType) (hheld : ∀ i, c.sessChunkMap i ≠ -1 → r.connMap i ≠ -1) :
    (heldChunks (grantConn rkeys (granted r target) amount type sizeGb r c)).length =
      (heldChunks c).length + (granted r target).length := by
  rw [heldChunks, heldChunks, length_filter_finRange, length_filter_finRange]
  refine card_marked_add _ _ (granted_nodup r target) (fun i => ?_) (fun i hi => ?_)
  · by_cases hi : i ∈ granted r target
    · have hval : ((i : ℕ) : ℤ) ≠ -1 := by omega
      simp [grantConn, hi, hval]
    · simp [grantConn, hi]
  · have hfree := (free_of_mem_granted hi).2
    simp only [decide_eq_true_eq]
    exact fun hsess => hheld i hsess hfree

section Stop

variable {l : List (Chunk cfg)} (amount : ℤ)

theorem mallocedCount_stopRemote (hnd : l.Nodup) (hl : ∀ i ∈ l, r.mallocMap i = .malloced) :
    mallocedCount r = mallocedCount (stopRemote l amount r) + l.length := by
  refine card_marked_add _ _ hnd (fun i => ?_) (fun i hi => by simp [stopRemote, hi])
  by_cases hi : i ∈ l
  · simp [hi, hl i hi]
  · simp [stopRemote, hi]

theorem mappedCount_stopRemote (hnd : l.Nodup) (hl : ∀ i ∈ l, r.connMap i ≠ -1) :
    mappedCount r = mappedCount (stopRemote l amount r) + l.length := by
  refine card_marked_add _ _ hnd (fun i => ?_) (fun i hi => by simp [stopRemote, hi])
  by_cases hi : i ∈ l
  · simp [hi, hl i hi]
  · simp [stopRemote, hi]

theorem length_heldChunks_stopConn (hnd : l.Nodup) (hl : ∀ i ∈ l, c.sessChunkMap i ≠ -1) :
    (heldChunks c).length = (heldChunks (stopConn l amount c)).length + l.length := by
  rw [heldChunks, heldChunks, length_filter_finRange, length_filter_finRange]
  refine card_marked_add _ _ hnd (fun i => ?_) (fun i hi => by simp [stopConn, hi])
  by_cases hi : i ∈ l
  · simp [hi, hl i hi]
  · simp [stopConn, hi]

end Stop

theorem mappedCount_releaseRemote (hheld : ∀ i, c.sessChunkMap i ≠ -1 → r.connMap i ≠ -1)
    (hshare : c.mappedChunkSize = (heldChunks c).length) :
    mappedCount r = mappedCount (releaseRemote c r) + (heldChunks c).length := by
  refine card_marked_add _ _ (heldChunks_nodup c) (fun i => ?_) (fun i hi => ?_)
  · by_cases hi : i ∈ heldChunks c
    · simp [hi, hheld i (mem_heldChunks.mp hi)]
    · rw [releaseRemote]
      split_ifs <;> simp [hi]
  -- the share counts the held chunks, so the guard of the release holds
  · have hpos : 0 < c.mappedChunkSize := by
      have := List.length_pos_of_mem hi
      omega
    simp only [releaseRemote, hpos, hi, if_true, ne_eq, not_true, not_false_eq_true]

theorem mallocedCount_freeMemExpand (memalign : Chunk cfg → BitVec 64) (g : ℤ) :
    mallocedCount (freeMemExpand memalign r g) =
      mallocedCount r + (expanded r (expandSizeG r g)).length := by
  rw [freeMemExpand_eq]
  refine card_marked_add _ _ (expanded_nodup r _) (fun i => ?_) (fun i hi => ?_)
  · by_cases hi : i ∈ expanded r (expandSizeG r g)
    · simp [hi]
    · simp [hi]
  · simp [empty_of_mem_expanded hi]

theorem mallocedCount_evictUnmapped (stopG : ℤ) :
    mallocedCount r = mallocedCount (evictUnmapped r stopG).1 + (granted r stopG).length := by
  rw [evictUnmapped_eq]
  refine card_marked_add _ _ (granted_nodup r stopG) (fun i => ?_) (fun i hi => by simp [hi])
  by_cases hi : i ∈ granted r stopG
  · simp [hi, (free_of_mem_granted hi).1]
  · simp [hi]

/-- With an exact `size_gb` the amount of an expansion is computed without overflow. -/
theorem expandSizeG_eq (hsize : r.sizeGb = mallocedCount r) {g : ℤ}
    (habove : cfg.freeMemExpandThreshold < g) (hhost : g + cfg.maxFreeMemGb < 2 ^ 31) :
    expandSizeG r g = min (g - cfg.freeMemExpandThreshold) (emptyChunks r).length := by
  have hempty := length_emptyChunks r
  have hnonneg := cfg.evict_nonneg.trans cfg.evict_le_expand
  have hsum : IsInt (g - cfg.freeMemExpandThreshold + r.sizeGb) := ⟨by omega, by omega⟩
  have hrest : (cfg.maxFreeMemGb : ℤ) - r.sizeGb = (emptyChunks r).length := by omega
  have hle : (emptyChunks r).length ≤ cfg.maxFreeMemGb := by omega
  simp only [expandSizeG, wrapInt_of_isInt hsum, hrest, wrapInt_chunks hle]
  split_ifs <;> omega

/-- An expansion allocates as many chunks as it adds to `size_gb`. -/
theorem length_expanded (hsize : r.sizeGb = mallocedCount r) {g : ℤ}
    (habove : cfg.freeMemExpandThreshold < g) (hhost : g + cfg.maxFreeMemGb < 2 ^ 31) :
    ((expanded r (expandSizeG r g)).length : ℤ) = expandSizeG r g := by
  have hamount := expandSizeG_eq hsize habove hhost
  have hbound : 0 ≤ expandSizeG r g ∧ expandSizeG r g ≤ (emptyChunks r).length := by omega
  -- an expansion by zero happens only when no chunk is empty
  have hzero : expandSizeG r g = 0 → (emptyChunks r).length = 0 := by omega
  rw [expanded, length_chosen_reaches]
  split_ifs <;> omega

/-! ### The invariant -/

/-- The counters are exact, and each connection counts the chunks it records. -/
structure Balanced (s : RdmaSession cfg) : Prop extends WellOwned s where
  size : s.rdmaRemote.sizeGb = mallocedCount s.rdmaRemote
  mapped : s.rdmaRemote.mappedSize = mappedCount s.rdmaRemote
  total : s.rdmaRemote.mappedSize = (s.live.map Connection.mappedChunkSize).sum
  share : ∀ c ∈ s.live, c.mappedChunkSize = (heldChunks c).length

/-- What the server's replies rely on: the counters count what the tables hold, and
the free size that is sent is the number of allocated and unmapped chunks. -/
structure Accounted (s : RdmaSession cfg) : Prop where
  size : s.rdmaRemote.sizeGb = mallocedCount s.rdmaRemote
  mapped : s.rdmaRemote.mappedSize = mappedCount s.rdmaRemote
  total : s.rdmaRemote.mappedSize = (s.live.map Connection.mappedChunkSize).sum
  sent_nonneg : ∀ c, 0 ≤ (sendFreeMemSize s.rdmaRemote c).sendMsg.sizeGb
  sent : ∀ c, (sendFreeMemSize s.rdmaRemote c).sendMsg.sizeGb = (freeChunks s.rdmaRemote).length

theorem Balanced.accounted (h : Balanced s) : Accounted s := by
  have hfree := length_freeChunks h.malloced
  have hsize := h.size
  have hmapped := h.mapped
  have hsent : wrapInt (s.rdmaRemote.sizeGb - s.rdmaRemote.mappedSize) =
      (freeChunks s.rdmaRemote).length := by
    have hexact : s.rdmaRemote.sizeGb - s.rdmaRemote.mappedSize =
        (freeChunks s.rdmaRemote).length := by omega
    rw [hexact, wrapInt_chunks (length_freeChunks_le s.rdmaRemote)]
  refine ⟨h.size, h.mapped, h.total, fun c => ?_, fun c => hsent⟩
  change 0 ≤ wrapInt (s.rdmaRemote.sizeGb - s.rdmaRemote.mappedSize)
  omega

theorem WellOwned.mapped_of_recorded (h : WellOwned s) (hc : c ∈ s.live) {i : Chunk cfg}
    (hi : c.sessChunkMap i ≠ -1) : s.rdmaRemote.connMap i ≠ -1 := by
  rw [(h.recorded c hc i hi).2]
  exact h.connIndex_ne hc

/-- Connections are built while a slot is idle, and a `DONE` message flags chunks of
its sender and carries their number. -/
def Admitted (s : RdmaSession cfg) (op : Op cfg) : Prop :=
  OwnDone s op ∧ match op with
    | .done _ msg => msg.sizeGb = (flagged msg).length
    | _ => True

instance : Decidable (Admitted s op) :=
  have : Decidable (match op with
    | .done _ msg => msg.sizeGb = (flagged msg).length
    | _ => True) := by
    cases op <;> infer_instance
  inferInstanceAs (Decidable (_ ∧ _))

/-- A request that the free chunks can serve: `size_gb` is at least one and at most
their number, or both are zero; a single chunk needs one free chunk. -/
def ExactRequest (s : RdmaSession cfg) : Op cfg → Prop
  | .requestChunks _ n _ =>
    (1 ≤ n ∧ n ≤ (freeChunks s.rdmaRemote).length) ∨ (n = 0 ∧ freeChunks s.rdmaRemote = [])
  | .requestSingleChunk _ _ _ => freeChunks s.rdmaRemote ≠ []
  | _ => True

instance : ∀ op, Decidable (ExactRequest s op)
  | .requestChunks _ n _ => inferInstanceAs (Decidable ((1 ≤ n ∧ n ≤ _) ∨ (n = 0 ∧ _ = [])))
  | .requestSingleChunk _ _ _ => inferInstanceAs (Decidable (_ ≠ []))
  | .buildConnection _ _ => .isTrue trivial
  | .sendFreeMemSize _ => .isTrue trivial
  | .done _ _ => .isTrue trivial
  | .destroyConnection _ => .isTrue trivial
  | .expand _ _ => .isTrue trivial
  | .evictUnmapped _ => .isTrue trivial

/-- The exact requests are those whose loop grants the amount that is counted. -/
theorem length_granted_eq_iff (n : ℤ) :
    ((granted r n).length : ℤ) = n ↔
      (1 ≤ n ∧ n ≤ (freeChunks r).length) ∨ (n = 0 ∧ freeChunks r = []) := by
  rw [length_granted, ← List.length_eq_zero_iff]
  split_ifs <;> omega

/-! ### The invariant is kept -/

theorem balanced_init (freeMemG : ℤ) (memalign : Chunk cfg → BitVec 64) :
    Balanced (rdmaSessionInit freeMemG memalign) where
  toWellOwned := wellOwned_init freeMemG memalign
  size := by
    -- the order of the thresholds keeps the initial size nonnegative
    have hbound : 0 ≤ initialSizeGb cfg freeMemG ∧
        initialSizeGb cfg freeMemG ≤ cfg.maxFreeMemGb := by
      have := cfg.evict_nonneg
      have := cfg.evict_le_expand
      simp only [initialSizeGb]
      split_ifs <;> omega
    have hmarked : ∀ i : Chunk cfg,
        (rdmaSessionInit freeMemG memalign).rdmaRemote.mallocMap i = .malloced ↔
          (i : ℕ) < (initialSizeGb cfg freeMemG).toNat := by
      intro i
      simp only [rdmaSessionInit]
      split_ifs with hlt <;> simp <;> omega
    have hcard : mallocedCount (rdmaSessionInit freeMemG memalign).rdmaRemote =
        min cfg.maxFreeMemGb (initialSizeGb cfg freeMemG).toNat := by
      simp only [mallocedCount, hmarked]
      exact Fin.card_filter_val_lt
    rw [hcard]
    change initialSizeGb cfg freeMemG = _
    omega
  mapped := by simp [rdmaSessionInit, mappedCount]
  total := by simp [rdmaSessionInit]
  share := by simp [rdmaSessionInit]

/-- Rewriting one connection moves the sum of the shares by that connection's
change. -/
theorem WellOwned.sum_rewrite (h : WellOwned s) (hc : c ∈ s.live) (c' : Connection cfg)
    (hid : c'.id = c.id) {states : Slot cfg → ConnState} :
    ((s.rewrite c' r states).live.map Connection.mappedChunkSize).sum =
      (s.live.map Connection.mappedChunkSize).sum + (c'.mappedChunkSize - c.mappedChunkSize) :=
  sum_map_rewriteKey _ h.ids_nodup hc hid

/-- A grant of the amount it counts. -/
theorem Balanced.grantSession (h : Balanced s) (hc : c ∈ s.live) {k : Slot cfg}
    {rkeys : Chunk cfg → BitVec 32} {target amount sizeGb : ℤ} {type : MessageType}
    (hexact : ((granted s.rdmaRemote target).length : ℤ) = amount) :
    Balanced (grantSession s c k rkeys target amount type sizeGb) := by
  have hcount := mappedCount_grantRemote (r := s.rdmaRemote) rkeys target amount
    (h.connIndex_ne hc)
  have hheld := length_heldChunks_grantConn rkeys target amount sizeGb type
    fun i => h.mapped_of_recorded hc (i := i)
  have hmapped := h.mapped
  have hshare := h.share c hc
  -- both counters now count chunks of the pool, so neither is reduced
  have hmapped' : wrapInt (s.rdmaRemote.mappedSize + amount) =
      s.rdmaRemote.mappedSize + amount := by
    rw [hmapped, ← hexact, ← Nat.cast_add, ← hcount, wrapInt_chunks (mappedCount_le _)]
  have hshare' : wrapInt (c.mappedChunkSize + amount) = c.mappedChunkSize + amount := by
    rw [hshare, ← hexact, ← Nat.cast_add, ← hheld, wrapInt_chunks (length_heldChunks_le _)]
  refine ⟨h.toWellOwned.grantSession hc, h.size, ?_, ?_, ?_⟩
  · change wrapInt (s.rdmaRemote.mappedSize + amount) = mappedCount (grantRemote _ _ _ _ _)
    omega
  · have htotal := h.total
    rw [Server.grantSession, h.sum_rewrite hc (grantConn _ _ _ _ _ _ c) rfl]
    simp only [RdmaSession.rewrite, grantRemote, grantConn, hmapped', hshare']
    omega
  · intro d hd
    rcases mem_live_rewrite hd with rfl | ⟨hd, -⟩
    · change wrapInt (c.mappedChunkSize + amount) = _
      omega
    · exact h.share d hd

theorem Balanced.stop (h : Balanced s) (hc : c ∈ s.live) {l : List (Chunk cfg)} {amount : ℤ}
    {states : Slot cfg → ConnState} (hnd : l.Nodup) (hown : ∀ i ∈ l, c.sessChunkMap i ≠ -1)
    (hstates : ∀ k, states k = .idle → s.connsState k = .idle) (hamount : amount = l.length) :
    Balanced (s.rewrite (stopConn l amount c) (stopRemote l amount s.rdmaRemote) states) := by
  have hmalloced := mallocedCount_stopRemote (r := s.rdmaRemote) amount hnd
    fun i hi => h.malloced i (h.mapped_of_recorded hc (hown i hi))
  have hcount := mappedCount_stopRemote (r := s.rdmaRemote) amount hnd
    fun i hi => h.mapped_of_recorded hc (hown i hi)
  have hheld := length_heldChunks_stopConn amount hnd hown
  have hsize : s.rdmaRemote.sizeGb - amount =
      mallocedCount (stopRemote l amount s.rdmaRemote) := by
    rw [h.size]
    omega
  have hmapped : s.rdmaRemote.mappedSize - amount =
      mappedCount (stopRemote l amount s.rdmaRemote) := by
    rw [h.mapped]
    omega
  have hshare : c.mappedChunkSize - amount = (heldChunks (stopConn l amount c)).length := by
    rw [h.share c hc]
    omega
  refine ⟨h.toWellOwned.stop hc hown hstates, ?_, ?_, ?_, ?_⟩
  · change wrapInt (s.rdmaRemote.sizeGb - amount) = _
    rw [hsize, wrapInt_chunks (mallocedCount_le _)]
    rfl
  · change wrapInt (s.rdmaRemote.mappedSize - amount) = _
    rw [hmapped, wrapInt_chunks (mappedCount_le _)]
    rfl
  · have htotal := h.total
    rw [h.sum_rewrite hc (stopConn l amount c) rfl]
    change wrapInt (s.rdmaRemote.mappedSize - amount) =
      _ + (wrapInt (c.mappedChunkSize - amount) - c.mappedChunkSize)
    rw [hmapped, hshare, wrapInt_chunks (mappedCount_le _),
      wrapInt_chunks (length_heldChunks_le _)]
    omega
  · intro d hd
    rcases mem_live_rewrite hd with rfl | ⟨hd, -⟩
    · change wrapInt (c.mappedChunkSize - amount) = _
      rw [hshare, wrapInt_chunks (length_heldChunks_le _)]
    · exact h.share d hd

theorem releaseRemote_sizeGb : (releaseRemote c r).sizeGb = r.sizeGb := by
  rw [releaseRemote]
  split_ifs <;> rfl

theorem releaseRemote_mappedSize (hshare : 0 ≤ c.mappedChunkSize)
    (hmapped : IsInt (r.mappedSize - c.mappedChunkSize)) :
    (releaseRemote c r).mappedSize = r.mappedSize - c.mappedChunkSize := by
  rw [releaseRemote]
  split_ifs with hpos
  · exact wrapInt_of_isInt hmapped
  · omega

/-- Every admitted step keeps the counters exact, a grant if it finds what it counts. -/
theorem Balanced.of_effect (h : Balanced s) (heff : Effect s op t) (hadm : Admitted s op)
    (hexact : ExactRequest s op) : Balanced t := by
  have howned := h.toWellOwned.of_effect heff
  cases heff with
  | build new idle =>
    refine ⟨howned, h.size, h.mapped, ?_, ?_⟩
    · simpa using h.total
    · intro d hd
      rcases List.mem_cons.mp hd with rfl | hd
      · simp [heldChunks]
      · exact h.share d hd
  | @reply id c mem same =>
    refine ⟨howned, h.size, h.mapped, ?_, ?_⟩
    · rw [h.sum_rewrite mem (sendFreeMemSize s.rdmaRemote c) rfl]
      simpa [sendFreeMemSize, RdmaSession.rewrite] using h.total
    · intro d hd
      rcases mem_live_rewrite hd with rfl | ⟨hd, -⟩
      · exact h.share c mem
      · exact h.share d hd
  | @grantMany id sizeGb rkeys c k mem same slot =>
    refine h.grantSession mem ?_
    rw [chunkSizeGb, Int.tdiv_one]
    exact (length_granted_eq_iff sizeGb).mpr hexact
  | @grantOne id sizeGb rkeys c k mem same slot =>
    refine h.grantSession mem ?_
    have hpos : 0 < (freeChunks s.rdmaRemote).length := List.length_pos_iff.mpr hexact
    exact (length_granted_eq_iff 1).mpr (Or.inl (by omega))
  | @stop id msg c states mem same own kept =>
    exact h.stop mem (flagged_nodup msg) (fun i hi => own i (mem_flagged.mp hi)) kept hadm.2
  | @destroy id c k running mem same slot =>
    -- a share of zero skips the release, and then there is nothing to release
    have hshare := h.share c mem
    have hcount := mappedCount_releaseRemote (r := s.rdmaRemote)
      (fun i => h.mapped_of_recorded mem (i := i)) hshare
    have hold := h.mapped
    have hleft : s.rdmaRemote.mappedSize - c.mappedChunkSize =
        mappedCount (releaseRemote c s.rdmaRemote) := by omega
    have hmapped := releaseRemote_mappedSize (c := c) (r := s.rdmaRemote) (by omega) <| by
      rw [← wrapInt_eq_self_iff, hleft, wrapInt_chunks (mappedCount_le _)]
    refine ⟨howned, ?_, ?_, ?_, ?_⟩
    · have hmalloced : mallocedCount (releaseRemote c s.rdmaRemote) =
          mallocedCount s.rdmaRemote := by
        rw [mallocedCount, releaseRemote_mallocMap, mallocedCount]
      simp only [releaseRemote_sizeGb, hmalloced]
      exact h.size
    · exact hmapped.trans hleft
    · have htotal := h.total
      simp only [sum_map_dropKey Connection.mappedChunkSize h.ids_nodup mem, hmapped]
      omega
    · intro d hd
      exact h.share d (mem_dropKey.mp hd).1
  | @expand g memalign above room =>
    -- the amount is counted before the scan, which finds exactly that many
    have hlen := length_expanded h.size above room
    have hcount := mallocedCount_freeMemExpand (r := s.rdmaRemote) memalign g
    have hsize := h.size
    refine ⟨howned, ?_, ?_, ?_, h.share⟩
    · have hgrown : (freeMemExpand memalign s.rdmaRemote g).sizeGb =
          wrapInt (s.rdmaRemote.sizeGb + expandSizeG s.rdmaRemote g) := by rw [freeMemExpand_eq]
      change (freeMemExpand memalign s.rdmaRemote g).sizeGb = _
      rw [hgrown, hsize, ← hlen, ← Nat.cast_add, ← hcount, wrapInt_chunks (mallocedCount_le _)]
    · simp only [freeMemExpand_eq]
      exact h.mapped
    · simp only [freeMemExpand_eq]
      exact h.total
  | @evict stopG pos =>
    have hcount := mallocedCount_evictUnmapped (r := s.rdmaRemote) stopG
    have hsize := h.size
    refine ⟨howned, ?_, ?_, ?_, h.share⟩
    · have hshrunk : (evictUnmapped s.rdmaRemote stopG).1.sizeGb =
          wrapInt (s.rdmaRemote.sizeGb - (granted s.rdmaRemote stopG).length) := by
        rw [evictUnmapped_eq]
      have hleft : s.rdmaRemote.sizeGb - (granted s.rdmaRemote stopG).length =
          mallocedCount (evictUnmapped s.rdmaRemote stopG).1 := by omega
      change (evictUnmapped s.rdmaRemote stopG).1.sizeGb = _
      rw [hshrunk, hleft, wrapInt_chunks (mallocedCount_le _)]
    · simp only [evictUnmapped_eq]
      exact h.mapped
    · simp only [evictUnmapped_eq]
      exact h.total

/-- A grant after which the counters are still exact found what it counted. -/
theorem Balanced.granted_of_accounted (h : Balanced s) (hc : c ∈ s.live) {k : Slot cfg}
    {rkeys : Chunk cfg → BitVec 32} {target amount sizeGb : ℤ} {type : MessageType}
    (hfits : IsInt amount)
    (hafter : Accounted (Server.grantSession s c k rkeys target amount type sizeGb)) :
    ((granted s.rdmaRemote target).length : ℤ) = amount := by
  -- the table grew by the granted chunks and the counter by `amount`
  have hcount := mappedCount_grantRemote (r := s.rdmaRemote) rkeys target amount
    (h.connIndex_ne hc)
  have hbefore := h.mapped
  have hmapped : wrapInt (s.rdmaRemote.mappedSize + amount) =
      mappedCount (grantRemote _ _ _ _ _) := hafter.mapped
  obtain ⟨hlow, hhigh⟩ := hfits
  have hlength := length_granted_le s.rdmaRemote target
  have hmax := cfg.max_lt
  have hexact := eq_of_wrapInt_eq hmapped (by omega) (by omega)
  omega

theorem Balanced.exactRequest_of_accounted (h : Balanced s) (heff : Effect s op t)
    (hafter : Accounted t) : ExactRequest s op := by
  cases heff with
  | @grantMany id sizeGb rkeys c k mem same slot fits =>
    have hlen := h.granted_of_accounted mem fits hafter
    rw [chunkSizeGb, Int.tdiv_one] at hlen
    exact (length_granted_eq_iff sizeGb).mp hlen
  | @grantOne id sizeGb rkeys c k mem same slot =>
    have hlen := (length_granted_eq_iff 1).mp
      (h.granted_of_accounted mem (by decide) hafter)
    rw [ExactRequest, ← List.length_pos_iff]
    omega
  | build new idle => trivial
  | reply mem same => trivial
  | stop mem same own kept => trivial
  | destroy mem same slot => trivial
  | expand above => trivial
  | evict pos => trivial

/-- Along every run of admitted operations the counters are exact in every state
reached if and only if every request found as many chunks as it counts. -/
theorem accounted_iff_exactRequest (freeMemG : ℤ) (memalign : Chunk cfg → BitVec 64)
    (ops : List (Op cfg)) (s : RdmaSession cfg)
    (hops : EachStep step Admitted (rdmaSessionInit freeMemG memalign) ops)
    (hrun : run step (rdmaSessionInit freeMemG memalign) ops = some s) :
    EveryState step Accounted (rdmaSessionInit freeMemG memalign) ops ↔
      EachStep step ExactRequest (rdmaSessionInit freeMemG memalign) ops :=
  everyState_iff_eachStep
    (fun _ _ _ h hadm hexact hstep =>
      h.of_effect (step_effect h.toWellOwned hadm.1 hstep) hadm hexact)
    (fun _ h => h.accounted)
    (fun _ _ _ h hadm hstep hafter =>
      h.exactRequest_of_accounted (step_effect h.toWellOwned hadm.1 hstep) hafter)
    (balanced_init freeMemG memalign) hops hrun

/-- Two chunks are free and two are asked for, then one is given back. -/
theorem accounted_iff_exactRequest_visit :
    EveryState step Accounted (rdmaSessionInit 11 fun _ => 0x1000) visit := by
  have hends : (run step (rdmaSessionInit 11 fun _ => 0x1000) visit).isSome := by decide +kernel
  obtain ⟨s, hs⟩ := Option.isSome_iff_exists.mp hends
  exact (accounted_iff_exactRequest 11 _ visit s (by decide +kernel) hs).mpr (by decide +kernel)

/-- A client asks for two chunks. -/
def largeRequest : List (Op defaultConfig) :=
  [.buildConnection 7 blankConnection, .requestChunks 7 2 fun _ => 5]

/-- When one chunk is free `mapped_size` becomes two. -/
theorem accounted_fails_on_large_request :
    EachStep step Admitted (rdmaSessionInit 9 fun _ => 0x1000) largeRequest ∧
      ∃ s, run step (rdmaSessionInit 9 fun _ => 0x1000) largeRequest = some s ∧
        s.rdmaRemote.mappedSize = 2 ∧ mappedCount s.rdmaRemote = 1 ∧ ¬ Accounted s := by
  have hrun : (run step (rdmaSessionInit 9 fun _ => 0x1000) largeRequest).any fun s =>
      s.rdmaRemote.mappedSize = 2 ∧ mappedCount s.rdmaRemote = 1 := by decide +kernel
  obtain ⟨s, hs, hcounts⟩ := (Option.any_eq_true _ _).mp hrun
  obtain ⟨hsize, hcount⟩ := of_decide_eq_true hcounts
  refine ⟨by decide +kernel, s, hs, hsize, hcount, fun hacc => ?_⟩
  have hmapped := hacc.mapped
  omega

end SystemDev.Server
