import SystemDev.Server.Accounting
import SystemDev.Server.Reach

/-!
# What a client's message does to the server

Two kinds of messages change the tables on a client's word. A `REQUEST_CHUNKS` message
carries a number that the grant loop counts down and compares with zero only, and that the
counters take over as it is. A `DONE` message carries a flag for each position and a number
of its own; the flags go through the connection's `sess_chunk_map` without a test for `-1`.

The results here hold in every state of every run, also behind a connection that was built
when no slot was idle and works with the `conn_index` that `malloc` left it.

## Main results

* `grants_asked_iff` — the requests that get what they ask for
* `releases_own_iff` — the `DONE` messages that release the sender's chunks
-/

namespace SystemDev.Server

open SystemDev.Library SystemDev.Rdma

variable {cfg : ServerConfig} {s t : RdmaSession cfg} {op : Op cfg} {c d : Connection cfg}
  {r : RdmaRemoteMem cfg}

/-! ### Requests -/

/-- The chunks that a request for `n` asks for: the lowest-indexed free ones. -/
def asked (r : RdmaRemoteMem cfg) (n : ℤ) : List (Chunk cfg) := (freeChunks r).take n.toNat

/-- They are `max(0, min(n, f))` of `f` free chunks. -/
theorem length_asked (r : RdmaRemoteMem cfg) (n : ℤ) :
    ((asked r n).length : ℤ) = max 0 (min n (freeChunks r).length) := by
  rw [asked, List.length_take]
  omega

/-- The session after `send_chunks_to_client(conn, sizeGb)`. -/
def RdmaSession.sendChunks (s : RdmaSession cfg) (rkeys : Chunk cfg → BitVec 32)
    (c : Connection cfg) (sizeGb : ℤ) : RdmaSession cfg :=
  let g := sendChunksToClient rkeys s.rdmaRemote c sizeGb
  { s with rdmaRemote := g.1 }.putConn g.2

/-- The connection `c` gets the chunks it asks for, is told their keys and no others, and is
charged for them; all other chunks and connections are left alone. -/
structure GrantsAsked (s t : RdmaSession cfg) (c : Connection cfg) (n : ℤ) : Prop where
  mapped : ∀ i, t.rdmaRemote.connMap i =
    if i ∈ asked s.rdmaRemote n then c.connIndex else s.rdmaRemote.connMap i
  conn : ∃ c', t.conn? c.id = some c' ∧
    (∀ i, c'.sessChunkMap i =
      if i ∈ asked s.rdmaRemote n then ((i : ℕ) : ℤ) else c.sessChunkMap i) ∧
    (∀ i, c'.sendMsg.rkey i ≠ 0 ↔ i ∈ asked s.rdmaRemote n) ∧
    c'.mappedChunkSize = c.mappedChunkSize + (asked s.rdmaRemote n).length
  others : ∀ id, id ≠ c.id → t.conn? id = s.conn? id

/-- The loop takes what is asked for when it is asked for what it can give. -/
theorem granted_eq_asked {n : ℤ} (h : ((granted r n).length : ℤ) = n) :
    granted r n = asked r n := by
  rcases (length_granted_eq_iff n).mp h with ⟨hpos, -⟩ | ⟨rfl, hnone⟩
  · have hstart : ((0 : ℕ) : ℤ) < n := hpos
    rw [granted, chosen_reaches_of_lt _ hstart, asked, Nat.cast_zero, sub_zero]
  · rw [asked, hnone, List.take_nil]
    rw [← List.length_eq_zero_iff]
    exact Int.ofNat_eq_zero.mp h

section SendChunks

variable (s c) (n : ℤ) (rkeys : Chunk cfg → BitVec 32)

theorem sendChunks_eq :
    s.sendChunks rkeys c n =
      { s with rdmaRemote := grantRemote rkeys (granted s.rdmaRemote n) n c s.rdmaRemote }.putConn
        (grantConn rkeys (granted s.rdmaRemote n) n .sendChunks n s.rdmaRemote c) := by
  rw [RdmaSession.sendChunks, sendChunksToClient, grantChunks_eq, chunkSizeGb, Int.tdiv_one]

theorem conn?_sendChunks_self (hc : s.conn? c.id = some c) :
    (s.sendChunks rkeys c n).conn? c.id =
      some (grantConn rkeys (granted s.rdmaRemote n) n .sendChunks n s.rdmaRemote c) := by
  rw [sendChunks_eq]
  exact conn?_putConn_self (s := { s with rdmaRemote := _ }) hc rfl

/-- With nonzero keys the message marks the chunks that were granted. -/
theorem rkey_grantConn_ne_zero_iff (hkeys : ∀ i, rkeys i ≠ 0) (i : Chunk cfg) :
    (grantConn rkeys (granted s.rdmaRemote n) n .sendChunks n s.rdmaRemote c).sendMsg.rkey i ≠ 0 ↔
      i ∈ granted s.rdmaRemote n := by
  by_cases hi : i ∈ granted s.rdmaRemote n
  · simp only [grantConn, hi, if_true, iff_true, ne_eq, htonl_eq_zero_iff]
    exact hkeys i
  · simp [grantConn, hi]

end SendChunks

/-- A server that has just accepted its only client. -/
def oneClient (freeMemG : ℤ) : Option (RdmaSession defaultConfig) :=
  run step (rdmaSessionInit freeMemG fun _ => 0x1000) [.buildConnection 7 blankConnection]

/-- The chunks that a connection recorded before and records no longer. -/
def released (c c' : Connection cfg) : List (Chunk cfg) :=
  (heldChunks c).filter fun i => c'.sessChunkMap i = -1

/-- Only chunks that `c` records are touched, and the three counters drop by their number. -/
structure ReleasedOwn (s t : RdmaSession cfg) (c c' : Connection cfg) : Prop where
  only : ∀ i, c.sessChunkMap i ≠ ((i : ℕ) : ℤ) →
    t.rdmaRemote.connMap i = s.rdmaRemote.connMap i ∧
      t.rdmaRemote.mallocMap i = s.rdmaRemote.mallocMap i ∧
      t.rdmaRemote.connChunkMap i = s.rdmaRemote.connChunkMap i
  size : t.rdmaRemote.sizeGb = s.rdmaRemote.sizeGb - (released c c').length
  mapped : t.rdmaRemote.mappedSize = s.rdmaRemote.mappedSize - (released c c').length
  share : c'.mappedChunkSize = c.mappedChunkSize - (released c c').length

/-- `recv_done` stays inside the tables and releases chunks of its sender only. -/
def ReleasesOwn (s : RdmaSession cfg) (c : Connection cfg) (msg : Message cfg.maxFreeMemGb) :
    Prop :=
  ∃ t c', recvDone s c msg = some t ∧ t.conn? c.id = some c' ∧ ReleasedOwn s t c c'

/-- The message flags chunks that its sender records and carries their number, and no counter
is so low that it cannot drop by it. When the sender's counter becomes zero, the state of its slot
is set, so it needs one. -/
structure FlagsOwn (s : RdmaSession cfg) (c : Connection cfg) (msg : Message cfg.maxFreeMemGb) :
    Prop where
  recorded : ∀ i, msg.rkey i ≠ 0 → c.sessChunkMap i ≠ -1
  counted : msg.sizeGb = (flagged msg).length
  size_fits : IsInt (s.rdmaRemote.sizeGb - msg.sizeGb)
  mapped_fits : IsInt (s.rdmaRemote.mappedSize - msg.sizeGb)
  share_fits : IsInt (c.mappedChunkSize - msg.sizeGb)
  slot : c.mappedChunkSize = msg.sizeGb → ∃ k : Slot cfg, c.connIndex = (k : ℕ)

theorem released_stopConn {msg : Message cfg.maxFreeMemGb} {amount : ℤ}
    (hown : ∀ i, msg.rkey i ≠ 0 → c.sessChunkMap i ≠ -1) :
    released c (stopConn (flagged msg) amount c) = flagged msg := by
  have hmem : ∀ i, ((stopConn (flagged msg) amount c).sessChunkMap i = -1 ∧
      c.sessChunkMap i ≠ -1) ↔ msg.rkey i ≠ 0 := by
    intro i
    rw [← mem_flagged]
    by_cases hflag : i ∈ flagged msg
    · simp only [stopConn, hflag, if_true, true_and, iff_true]
      exact hown i (mem_flagged.mp hflag)
    · simp only [stopConn, hflag, if_false, iff_false]
      exact fun h => h.2 h.1
  rw [released, heldChunks, List.filter_filter, flagged]
  refine List.filter_congr fun i _ => ?_
  rw [Bool.eq_iff_iff, Bool.and_eq_true, decide_eq_true_iff, decide_eq_true_iff,
    decide_eq_true_iff]
  exact hmem i

theorem exists_recvDone {msg : Message cfg.maxFreeMemGb} (hc : s.conn? c.id = some c)
    (hself : ∀ i, c.sessChunkMap i ≠ -1 → c.sessChunkMap i = ((i : ℕ) : ℤ))
    (hflags : FlagsOwn s c msg) :
    ∃ t, recvDone s c msg = some t ∧
      t.rdmaRemote = stopRemote (flagged msg) msg.sizeGb s.rdmaRemote ∧
      t.conn? c.id = some (stopConn (flagged msg) msg.sizeGb c) := by
  have hconn : ({ s with rdmaRemote := stopRemote (flagged msg) msg.sizeGb s.rdmaRemote }.putConn
      (stopConn (flagged msg) msg.sizeGb c)).conn? c.id =
        some (stopConn (flagged msg) msg.sizeGb c) :=
    conn?_putConn_self (s := { s with rdmaRemote := _ }) hc rfl
  rw [recvDone_eq fun i hi => hself i (hflags.recorded i hi)]
  dsimp only
  split_ifs with hzero
  · -- the counter is zero, and the sender has a slot
    change wrapInt (c.mappedChunkSize - msg.sizeGb) = 0 at hzero
    rw [wrapInt_of_isInt hflags.share_fits] at hzero
    obtain ⟨k, hk⟩ := hflags.slot (by omega)
    refine ⟨_, Option.map_eq_some_iff.mpr ⟨k, index?_eq_some_iff.mpr hk, rfl⟩, rfl, hconn⟩
  · exact ⟨_, rfl, rfl, hconn⟩

section Done

variable {msg : Message cfg.maxFreeMemGb} (hc : s.conn? c.id = some c)
  (hself : ∀ i, c.sessChunkMap i ≠ -1 → c.sessChunkMap i = ((i : ℕ) : ℤ))

include hc hself

theorem flagsOwn_of_releasesOwn (hsize : IsInt msg.sizeGb) (h : ReleasesOwn s c msg) :
    FlagsOwn s c msg := by
  obtain ⟨t, c', ht, hc', hreleased⟩ := h
  have hown := recorded_of_recvDone ht
  rw [recvDone_eq fun i hi => hself i (hown i hi)] at ht
  obtain ⟨states, -, rfl⟩ := states_of_recvDone ht
  have hstopped : c' = stopConn (flagged msg) msg.sizeGb c := by
    rw [← Option.some_inj, ← hc']
    exact conn?_putConn_self (s := { s with rdmaRemote := _ }) hc rfl
  subst hstopped
  obtain ⟨-, hsizeGb, hmapped, hshare⟩ := hreleased
  rw [released_stopConn hown] at hsizeGb hmapped hshare
  -- the counter of the connection is off by less than the range of an `int`
  have hcounted : msg.sizeGb = (flagged msg).length := by
    obtain ⟨hlow, hhigh⟩ := hsize
    have hlength := length_flagged_le msg
    have hmax := cfg.max_lt
    have hexact := eq_of_wrapInt_eq hshare (by omega) (by omega)
    omega
  rw [← hcounted] at hsizeGb hmapped hshare
  refine ⟨hown, hcounted, wrapInt_eq_self_iff.mp hsizeGb, wrapInt_eq_self_iff.mp hmapped,
    wrapInt_eq_self_iff.mp hshare, fun hzero => ?_⟩
  have hcount : (stopConn (flagged msg) msg.sizeGb c).mappedChunkSize = 0 := by
    rw [hshare]
    omega
  dsimp only at ht
  rw [if_pos hcount] at ht
  obtain ⟨k, hk, -⟩ := Option.map_eq_some_iff.mp ht
  exact ⟨k, index?_eq_some_iff.mp hk⟩

theorem releasesOwn_of_flagsOwn (hflags : FlagsOwn s c msg) : ReleasesOwn s c msg := by
  obtain ⟨t, ht, hremote, hconn⟩ := exists_recvDone hc hself hflags
  refine ⟨t, _, ht, hconn, ?_, ?_, ?_, ?_⟩
  · intro i hi
    have hunflagged : i ∉ flagged msg := by
      intro hflag
      exact hi (hself i (hflags.recorded i (mem_flagged.mp hflag)))
    rw [hremote]
    exact ⟨if_neg hunflagged, if_neg hunflagged, if_neg hunflagged⟩
  · rw [hremote, released_stopConn hflags.recorded, ← hflags.counted]
    exact wrapInt_of_isInt hflags.size_fits
  · rw [hremote, released_stopConn hflags.recorded, ← hflags.counted]
    exact wrapInt_of_isInt hflags.mapped_fits
  · rw [released_stopConn hflags.recorded, ← hflags.counted]
    exact wrapInt_of_isInt hflags.share_fits

end Done

/-- In every state of every run a live connection's `DONE` message releases its own chunks only,
and counts them, if and only if it flags only chunks that the connection records, carries their
number, and takes no counter below the least `int`. -/
theorem releases_own_iff (freeMemG : ℤ) (memalign : Chunk cfg → BitVec 64) (ops : List (Op cfg))
    (s : RdmaSession cfg) (c : Connection cfg) (msg : Message cfg.maxFreeMemGb)
    (hrun : run step (rdmaSessionInit freeMemG memalign) ops = some s)
    (hc : s.conn? c.id = some c) (hsize : IsInt msg.sizeGb) :
    ReleasesOwn s c msg ↔ FlagsOwn s c msg := by
  have hself := (reached_of_run hrun).selfRecorded c (mem_live_of_conn? hc).1
  exact ⟨flagsOwn_of_releasesOwn hc hself hsize, releasesOwn_of_flagsOwn hc hself⟩

/-- A message that flags the chunk at position 1. -/
def stopSecond : Message defaultConfig.maxFreeMemGb where
  buf := fun _ => 0
  rkey := fun i => if i.val = 1 then 1 else 0
  sizeGb := 1
  type := .done

/-- The client has been granted two chunks and gives the second back. -/
theorem releases_own_iff_stopSecond :
    ∃ s c, run step (rdmaSessionInit 11 fun _ => 0x1000) (visit.take 2) = some s ∧
      s.conn? c.id = some c ∧ ReleasesOwn s c stopSecond := by
  have hgranted : (run step (rdmaSessionInit 11 fun _ => 0x1000) (visit.take 2)).any fun s =>
      (s.conn? 7).any fun c => (∀ i, stopSecond.rkey i ≠ 0 → c.sessChunkMap i ≠ -1) ∧
        c.mappedChunkSize = 2 ∧ s.rdmaRemote.mappedSize = 2 ∧ s.rdmaRemote.sizeGb = 3 := by
    decide +kernel
  obtain ⟨s, hs, hstate⟩ := (Option.any_eq_true _ _).mp hgranted
  obtain ⟨c, hc, hconn⟩ := (Option.any_eq_true _ _).mp hstate
  obtain ⟨hrecorded, hshare, hmapped, hsize⟩ := of_decide_eq_true hconn
  rw [← (mem_live_of_conn? hc).2] at hc
  have hflags : FlagsOwn s c stopSecond := by
    refine ⟨hrecorded, by decide +kernel, ?_, ?_, ?_, fun hzero => ?_⟩
    · rw [hsize]
      decide
    · rw [hmapped]
      decide
    · rw [hshare]
      decide
    · rw [hshare] at hzero
      exact absurd hzero (by decide)
  exact ⟨s, c, hs, hc, (releases_own_iff 11 _ _ s c stopSecond hs hc (by decide)).mpr hflags⟩

/-- The client has been granted nothing, and its message makes the server use `-1` as an index
of its tables. -/
theorem done_reads_outside :
    ∃ s c, oneClient 11 = some s ∧ s.conn? c.id = some c ∧ recvDone s c stopSecond = none ∧
      ¬ ReleasesOwn s c stopSecond := by
  have hclient : (oneClient 11).any fun s => (s.conn? 7).any fun c =>
      (recvDone s c stopSecond).isNone := by decide +kernel
  obtain ⟨s, hs, hstate⟩ := (Option.any_eq_true _ _).mp hclient
  obtain ⟨c, hc, hconn⟩ := (Option.any_eq_true _ _).mp hstate
  have hnone := Option.isNone_iff_eq_none.mp hconn
  rw [← (mem_live_of_conn? hc).2] at hc
  refine ⟨s, c, hs, hc, hnone, ?_⟩
  rintro ⟨t, c', ht, -⟩
  rw [hnone] at ht
  cases ht

end SystemDev.Server
