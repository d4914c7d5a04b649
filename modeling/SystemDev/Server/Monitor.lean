import SystemDev.Server.Victims

/-!
# The memory monitor

Once a second `free_mem` reads how much memory is free, mixes the value with the last one, and
counts how often it was low or high. After enough low turns it evicts, after enough high turns it
grows the pool. A low turn resets the count of high ones and the other way round; a turn between the
two thresholds leaves both counts alone.

The mixture is a computation in floating point, and is a parameter here.

An eviction that needs the clients stops at semaphores: it waits for the answer of each connection
it has asked, and for the `DONE` message of each that it tells to stop. `Monitored` is the server
with this thread, which runs from one wait to the next; the operations of the other threads happen
in between. When a wait ends is left open.

## Main results

* `evictMem_eq_finish` — without anything in between, the parts of an eviction make up `evict_mem`
* `Monitored.acts_at_limit` — evictions happen at each multiple of the limit among the low turns
  since the last high one, expansions at each multiple among the high turns since the last low one
-/

namespace SystemDev.Server

open SystemDev.Library SystemDev.Rdma

/-! ### The waits of `evict_mem` -/

/-- Where the thread of `free_mem` waits: between two turns, for the answer of the connection at a
slot, or for a connection that was told to stop. -/
inductive Wait (cfg : ServerConfig)
  | sleep
  | activity (sendList : Slot cfg → SendMark) (j k : ℤ) (list : EvictList cfg) (slot : Slot cfg)
      (id : ℕ) (rest : List (Slot cfg))
  | stop (sendList : Slot cfg → SendMark) (connIndex : Option (Slot cfg)) (id : ℕ)
      (rest : List (Slot cfg))

section Parts

variable {cfg : ServerConfig}

/-- The last loop of `evict_mem` up to its next wait. -/
def stopUntilWait (sendList : Slot cfg → SendMark) (connIndex : Option (Slot cfg)) :
    List (Slot cfg) → RdmaSession cfg → Option (RdmaSession cfg × Wait cfg)
  | [], s => some (s, .sleep)
  | i :: is, s => do
    let (s, sent) ← stopConnAt sendList connIndex (s, []) i
    -- a connection that has nothing to stop is told so, and not waited for
    if sent.any fun p => p.2.sizeGb ≠ 0 then
      (s.conns i).map fun id => (s, .stop sendList connIndex id is)
    else stopUntilWait sendList connIndex is s

/-- The loop that collects the answers, up to its next wait. Behind it come the sort and the last
loop. -/
def collectUntilWait (sendList : Slot cfg → SendMark) (j k : ℤ) :
    List (Slot cfg) → RdmaSession cfg × EvictList cfg → Option (RdmaSession cfg × Wait cfg)
  | [], g => do
    let (_, m) ← sortAndMark j k g.2.1 { session := g.1, sendList := sendList, connIndex := none }
    stopUntilWait m.sendList m.connIndex (List.finRange cfg.maxClient) m.session
  | i :: is, g =>
    if sendList i = .contacted then
      (g.1.conns i).map fun id => (g.1, .activity sendList j k g.2 i id is)
    else collectUntilWait sendList j k is g

/-- `evict_mem` up to its first wait. -/
def evictUntilWait (fuel : ℕ) (rand : ℕ → ℕ) (s : RdmaSession cfg) (stopG : ℤ) :
    Option (RdmaSession cfg × Wait cfg) := do
  let (s, selected) ← evictSelect fuel rand s stopG
  match selected with
  | none => some (s, .sleep)
  | some (sendList, j) => do
    let k ← contactedSize s sendList
    let s ← sendEvicts sendList j s
    collectUntilWait sendList j k (List.finRange cfg.maxClient)
      (s, (List.replicate k.toNat none, 0))

/-- What follows a wait, up to the next. `recvMsg` is the receive buffer of the connection that was
waited for. If that was destroyed in the meantime, its semaphore is freed memory. -/
def Wait.resume (recvMsg : Message cfg.maxFreeMemGb) (s : RdmaSession cfg) :
    Wait cfg → Option (RdmaSession cfg × Wait cfg)
  | .sleep => none
  | .activity sendList j k list slot id rest =>
    if s.conns slot = some id then
      (collectConn (fun _ => recvMsg) sendList (s, list) slot).bind
        (collectUntilWait sendList j k rest)
    else none
  | .stop sendList connIndex id rest =>
    if (s.conn? id).isSome then stopUntilWait sendList connIndex rest s else none

/-- The receive buffer that is read behind a wait. -/
def Wait.answer (recvMsg : Slot cfg → Message cfg.maxFreeMemGb) :
    Wait cfg → Message cfg.maxFreeMemGb
  | .activity _ _ _ _ slot _ _ => recvMsg slot
  | _ => ⟨fun _ => 0, fun _ => 0, 0, .done⟩

/-- The rest of an eviction, with at most `n` waits and nothing in between. -/
def Wait.finish (recvMsg : Slot cfg → Message cfg.maxFreeMemGb) :
    ℕ → RdmaSession cfg × Wait cfg → Option (RdmaSession cfg)
  | _, (s, .sleep) => some s
  | 0, _ => none
  | n + 1, (s, w) => (w.resume (w.answer recvMsg) s).bind (Wait.finish recvMsg n)

variable {s : RdmaSession cfg} {sendList : Slot cfg → SendMark} {connIndex : Option (Slot cfg)}
  {recvMsg : Slot cfg → Message cfg.maxFreeMemGb}

@[simp] theorem Wait.finish_sleep (n : ℕ) : Wait.finish recvMsg n (s, .sleep) = some s := by
  cases n <;> rfl

/-- The messages sent before do not matter for the next one. -/
theorem stopConnAt_append (sent : List (Slot cfg × Message cfg.maxFreeMemGb)) (i : Slot cfg) :
    stopConnAt sendList connIndex (s, sent) i =
      (stopConnAt sendList connIndex (s, []) i).map fun p => (p.1, sent ++ p.2) := by
  rw [stopConnAt, stopConnAt]
  cases sendList i with
  | untouched => simp
  | contacted =>
    cases s.connAt i with
    | none => rfl
    | some c => rfl
  | stopped =>
    cases connIndex with
    | none => rfl
    | some last =>
      cases hlast : s.connAt last with
      | none => simp
      | some lastConn =>
        cases hc : s.connAt i with
        | none => simp
        | some c => simp [hlast]

/-- The connection at a slot is left alone, or a message is put into its send buffer. -/
theorem stopConnAt_cases {i : Slot cfg}
    {p : RdmaSession cfg × List (Slot cfg × Message cfg.maxFreeMemGb)}
    (h : stopConnAt sendList connIndex (s, []) i = some p) :
    p = (s, []) ∨ ∃ c n, s.connAt i = some c ∧
      p = (s.putConn (sendStop c n), [(i, (sendStop c n).sendMsg)]) := by
  rw [stopConnAt] at h
  split at h
  case h_1 =>
    obtain ⟨last, -, h⟩ := Option.bind_eq_some_iff.mp h
    obtain ⟨lastConn, -, h⟩ := Option.bind_eq_some_iff.mp h
    obtain ⟨c, hc, h⟩ := Option.bind_eq_some_iff.mp h
    exact .inr ⟨c, _, hc, (Option.some_inj.mp h).symm⟩
  case h_2 =>
    obtain ⟨c, hc, h⟩ := Option.bind_eq_some_iff.mp h
    exact .inr ⟨c, _, hc, (Option.some_inj.mp h).symm⟩
  case h_3 => exact .inl (Option.some_inj.mp h).symm

/-- The last loop with its waits is the last loop. -/
theorem finish_stopUntilWait (is : List (Slot cfg)) {n : ℕ} (hn : is.length ≤ n)
    (s : RdmaSession cfg) (sent : List (Slot cfg × Message cfg.maxFreeMemGb)) :
    (stopUntilWait sendList connIndex is s).bind (Wait.finish recvMsg n) =
      (is.foldlM (stopConnAt sendList connIndex) (s, sent)).map Prod.fst := by
  induction is generalizing n s sent with
  | nil => simp [stopUntilWait]
  | cons i is ih =>
    obtain ⟨n, rfl⟩ : ∃ m, n = m + 1 := Nat.exists_eq_succ_of_ne_zero (by simp at hn; omega)
    have hrest : is.length ≤ n := by simpa using hn
    rw [stopUntilWait, List.foldlM_cons, stopConnAt_append sent]
    cases hstop : stopConnAt sendList connIndex (s, []) i with
    | none => rfl
    | some p =>
      rcases stopConnAt_cases hstop with rfl | ⟨c, m, hc, rfl⟩
      · simpa using ih (Nat.le_succ_of_le hrest) s sent
      · obtain ⟨hslot, hconn⟩ := conn?_of_connAt hc
        have hlive : (s.putConn (sendStop c m)).conn? c.id = some (sendStop c m) :=
          conn?_putConn_self hconn rfl
        have hslot' : (s.putConn (sendStop c m)).conns i = some c.id := hslot
        have hsize : (sendStop c m).sendMsg.sizeGb = m := rfl
        -- a wait is over at once, and its connection is still there
        by_cases hm : m = 0
        · rw [hm] at hsize
          simpa [hsize, hm] using ih (Nat.le_succ_of_le hrest) _ _
        · simpa [hsize, hm, hslot', Wait.finish, Wait.resume, hlive] using ih hrest _ _

/-- The loop that collects the answers, with its waits, is that loop with what comes behind it. -/
theorem finish_collectUntilWait {j k : ℤ} (is : List (Slot cfg)) {n : ℕ}
    (hn : is.length + cfg.maxClient ≤ n) (g : RdmaSession cfg × EvictList cfg) :
    (collectUntilWait sendList j k is g).bind (Wait.finish recvMsg n) =
      (is.foldlM (collectConn recvMsg sendList) g).bind fun p =>
        (sortAndMark j k p.2.1 ⟨p.1, sendList, none⟩).bind fun q =>
          (sendStops q.2).map Prod.fst := by
  induction is generalizing n g with
  | nil =>
    rw [collectUntilWait, List.foldlM_nil]
    cases hmark : sortAndMark j k g.2.1 ⟨g.1, sendList, none⟩ with
    | none => simp [hmark]
    | some q =>
      have hall : (List.finRange cfg.maxClient).length ≤ n := by simpa using hn
      have hstops : (stopUntilWait q.2.sendList q.2.connIndex (List.finRange cfg.maxClient)
          q.2.session).bind (Wait.finish recvMsg n) = (sendStops q.2).map Prod.fst :=
        finish_stopUntilWait _ hall q.2.session []
      simpa [hmark] using hstops
  | cons i is ih =>
    rw [collectUntilWait, List.foldlM_cons]
    by_cases hi : sendList i = .contacted
    · obtain ⟨n, rfl⟩ : ∃ m, n = m + 1 := Nat.exists_eq_succ_of_ne_zero (by simp at hn; omega)
      have hrest : is.length + cfg.maxClient ≤ n := by
        simp only [List.length_cons] at hn
        omega
      rw [if_pos hi]
      cases hid : g.1.conns i with
      | none =>
        have hnone : collectConn recvMsg sendList g i = none := by
          rw [collectConn, if_pos hi, RdmaSession.connAt, hid]
          rfl
        rw [hnone]
        rfl
      | some id =>
        have hsame : collectConn (fun _ => recvMsg i) sendList g i =
            collectConn recvMsg sendList g i := rfl
        rw [Option.map_some, Option.bind_some, Wait.finish, Wait.resume, if_pos hid, Wait.answer,
          hsame]
        swap
        · rintro ⟨⟩
        cases collectConn recvMsg sendList g i with
        | none => rfl
        | some g' => exact ih hrest g'
    · have hskip : collectConn recvMsg sendList g i = some g := if_neg hi
      rw [if_neg hi, hskip]
      exact ih (by simp only [List.length_cons] at hn; omega) g

/-- When nothing happens between its parts, an eviction is `evict_mem`. -/
theorem evictMem_eq_finish (fuel : ℕ) (rand : ℕ → ℕ) (s : RdmaSession cfg) (stopG : ℤ) :
    (evictMem fuel rand recvMsg s stopG).map Prod.fst =
      (evictUntilWait fuel rand s stopG).bind
        (Wait.finish recvMsg (cfg.maxClient + cfg.maxClient)) := by
  rw [evictMem, evictUntilWait]
  cases evictSelect fuel rand s stopG with
  | none => rfl
  | some p =>
    obtain ⟨u, selected⟩ := p
    cases selected with
    | none => simp
    | some q =>
      obtain ⟨sendList, j⟩ := q
      simp only [Option.bind_eq_bind, Option.bind_some, evictContacted]
      cases contactedSize u sendList with
      | none => rfl
      | some k =>
        cases sendEvicts sendList j u with
        | none => rfl
        | some v =>
          have hall : (List.finRange cfg.maxClient).length + cfg.maxClient ≤
              cfg.maxClient + cfg.maxClient := by rw [List.length_finRange]
          simp only [Option.bind_some, finish_collectUntilWait _ hall, collect, Option.map_bind,
            Function.comp_def]

end Parts

/-! ### Turns -/

/-- The limits of `free_mem`, and how it mixes the measured value with the last one. -/
structure MonitorConfig extends ServerConfig where
  memEvictHitThreshold : ℤ
  memExpandHitThreshold : ℤ
  mix : ℤ → ℤ → ℤ

/-- The variables of `free_mem` that outlive a turn. -/
structure FreeMem where
  lastFreeMemG : ℤ
  evictHitCount : ℤ
  expandHitCount : ℤ

/-- What a turn calls: nothing, `evict_mem`, or the branch that grows the pool. -/
inductive Decision
  | stay
  | evict (stopSizeG : ℤ)
  | expand (filteredFreeMemG : ℤ)

/-- One turn of the loop of `free_mem`, up to the calls it makes. -/
def FreeMem.turn (cfg : MonitorConfig) (r : RdmaRemoteMem cfg.toServerConfig) (freeMemG : ℤ)
    (v : FreeMem) : FreeMem × Decision :=
  let filtered := cfg.mix freeMemG v.lastFreeMemG
  if filtered < cfg.freeMemEvictThreshold then
    let hits := v.evictHitCount + 1
    if cfg.memEvictHitThreshold ≤ hits then
      let stop := wrapInt (cfg.freeMemEvictThreshold - filtered)
      let stop := if r.sizeGb < stop then r.sizeGb else stop
      -- the amount counts as free also where nothing is evicted
      (⟨wrapInt (filtered + stop), 0, 0⟩, if 0 < stop then .evict stop else .stay)
    else (⟨filtered, hits, 0⟩, .stay)
  else if cfg.freeMemExpandThreshold < filtered then
    let hits := v.expandHitCount + 1
    if cfg.memExpandHitThreshold ≤ hits then
      (⟨wrapInt (filtered - expandSizeG r filtered), 0, 0⟩, .expand filtered)
    else (⟨filtered, 0, hits⟩, .stay)
  else (⟨filtered, v.evictHitCount, v.expandHitCount⟩, .stay)

/-- Where a value lies. -/
inductive Zone
  | low
  | mid
  | high
  deriving DecidableEq

/-- The zone of a mixed value. -/
def MonitorConfig.zone (cfg : MonitorConfig) (filtered : ℤ) : Zone :=
  if filtered < cfg.freeMemEvictThreshold then .low
  else if cfg.freeMemExpandThreshold < filtered then .high
  else .mid

/-- An operation of `free_mem`. -/
def Op.OfFreeMem {cfg : ServerConfig} : Op cfg → Bool
  | .expand _ _ | .evictUnmapped _ => true
  | _ => false

/-- The server with the thread of `free_mem`. `zones` records the turns, the last one first. -/
structure Monitored (cfg : MonitorConfig) where
  session : RdmaSession cfg.toServerConfig
  freeMem : FreeMem
  wait : Wait cfg.toServerConfig
  zones : List Zone

namespace Monitored

variable {cfg : MonitorConfig}

/-- A turn of `free_mem` with what it reads and what the calls in it return, the end of a wait
inside of `evict_mem` with the receive buffer it is about, or an operation of another thread. -/
inductive Event (cfg : MonitorConfig)
  | turn (freeMemG : ℤ) (memalign : Chunk cfg.toServerConfig → BitVec 64) (fuel : ℕ)
      (rand : ℕ → ℕ)
  | resume (recvMsg : Message cfg.maxFreeMemGb)
  | op (o : Op cfg.toServerConfig)

/-- `free_mem` before its loop; the two values are read one after the other. -/
def init (initFreeMemG lastFreeMemG : ℤ) (memalign : Chunk cfg.toServerConfig → BitVec 64) :
    Monitored cfg where
  session := rdmaSessionInit initFreeMemG memalign
  freeMem := ⟨lastFreeMemG, 0, 0⟩
  wait := .sleep
  zones := []

/-- The zone of a turn that reads `freeMemG`. -/
def zone (s : Monitored cfg) (freeMemG : ℤ) : Zone :=
  cfg.zone (cfg.mix freeMemG s.freeMem.lastFreeMemG)

/-- The mixed value is not so far below zero that its distance from the threshold overflows. -/
def Measurable (s : Monitored cfg) (freeMemG : ℤ) : Prop :=
  IsInt (cfg.freeMemEvictThreshold - cfg.mix freeMemG s.freeMem.lastFreeMemG)

instance (s : Monitored cfg) (freeMemG : ℤ) : Decidable (s.Measurable freeMemG) :=
  inferInstanceAs (Decidable (IsInt _))

/-- What a turn that reads `freeMemG` does. -/
def turn (s : Monitored cfg) (freeMemG : ℤ) : FreeMem × Decision :=
  s.freeMem.turn cfg s.session.rdmaRemote freeMemG

/-- The calls of a turn, up to the first wait. -/
def perform (s : RdmaSession cfg.toServerConfig)
    (memalign : Chunk cfg.toServerConfig → BitVec 64) (fuel : ℕ) (rand : ℕ → ℕ) :
    Decision → Option (RdmaSession cfg.toServerConfig × Wait cfg.toServerConfig)
  | .stay => some (s, .sleep)
  | .evict stopSizeG => evictUntilWait fuel rand s stopSizeG
  | .expand filteredFreeMemG =>
    some ({ s with rdmaRemote := freeMemExpand memalign s.rdmaRemote filteredFreeMemG }, .sleep)

/-- One event. A turn begins when the one before it is over, and the loop of `free_mem` ends when
`running` is cleared; as in `step`, the free memory leaves an `int` room for the pool. -/
def step (s : Monitored cfg) : Event cfg → Option (Monitored cfg)
  | .turn freeMemG memalign fuel rand =>
    match s.wait with
    | .sleep =>
      if s.session.running ∧
          cfg.mix freeMemG s.freeMem.lastFreeMemG + cfg.maxFreeMemGb < 2 ^ 31 then
        (perform s.session memalign fuel rand (s.turn freeMemG).2).map fun p =>
          { session := p.1
            freeMem := (s.turn freeMemG).1
            wait := p.2
            zones := s.zone freeMemG :: s.zones }
      else none
    | _ => none
  | .resume recvMsg =>
    (s.wait.resume recvMsg s.session).map fun p => { s with session := p.1, wait := p.2 }
  | .op o =>
    if o.OfFreeMem then none
    else (Server.step s.session o).map fun session => { s with session := session }

/-! ### The counters -/

/-- The turns in zone `z` since the last one in zone `other`; turns between the thresholds are
passed over. -/
def hits (z other : Zone) : List Zone → ℕ
  | [] => 0
  | y :: zs => if y = z then hits z other zs + 1 else if y = other then 0 else hits z other zs

/-- A limit below one acts like one. -/
def limit (threshold : ℤ) : ℕ := max 1 threshold.toNat

theorem limit_pos (threshold : ℤ) : 0 < limit threshold :=
  Nat.lt_of_lt_of_le Nat.one_pos (Nat.le_max_left _ _)

theorem limit_le_iff (threshold : ℤ) (k : ℕ) :
    limit threshold ≤ k + 1 ↔ threshold ≤ (k : ℤ) + 1 := by
  rw [limit]
  omega

section Counter

variable {threshold count : ℤ} {n : ℕ} (hcount : count = (n % limit threshold : ℕ))
include hcount

/-- A count gets to its limit at the multiples of the limit. -/
theorem reached_iff : threshold ≤ count + 1 ↔ limit threshold ∣ n + 1 := by
  have hlt := Nat.mod_lt n (limit_pos threshold)
  rw [hcount, ← limit_le_iff, Nat.dvd_iff_mod_eq_zero, ← Nat.mod_add_mod]
  constructor
  · intro hle
    have hfull : n % limit threshold + 1 = limit threshold := Nat.le_antisymm hlt hle
    rw [hfull, Nat.mod_self]
  · intro hzero
    by_contra hnot
    rw [Nat.mod_eq_of_lt (Nat.lt_of_not_le hnot)] at hzero
    omega

/-- A count that is reset at its limit is the number of hits modulo the limit. -/
theorem count_next :
    (if threshold ≤ count + 1 then 0 else count + 1) = ((n + 1) % limit threshold : ℕ) := by
  split_ifs with hreached
  · rw [Nat.mod_eq_zero_of_dvd ((reached_iff hcount).mp hreached), Nat.cast_zero]
  · rw [hcount, ← limit_le_iff] at hreached
    rw [hcount, ← Nat.mod_add_mod, Nat.mod_eq_of_lt (Nat.lt_of_not_le hreached), Nat.cast_add,
      Nat.cast_one]

end Counter

/-- The counters are the hits modulo their limits. -/
structure Counts (s : Monitored cfg) : Prop where
  evict : s.freeMem.evictHitCount = (hits .low .high s.zones % limit cfg.memEvictHitThreshold : ℕ)
  expand :
    s.freeMem.expandHitCount = (hits .high .low s.zones % limit cfg.memExpandHitThreshold : ℕ)

theorem counts_init (initFreeMemG lastFreeMemG : ℤ)
    (memalign : Chunk cfg.toServerConfig → BitVec 64) :
    Counts (init initFreeMemG lastFreeMemG memalign : Monitored cfg) where
  evict := by simp [init, hits]
  expand := by simp [init, hits]

variable {s t : Monitored cfg} {freeMemG : ℤ}

theorem turn_low (h : s.zone freeMemG = .low) :
    ∃ last stop, (s.Measurable freeMemG → (0 < stop ↔ 0 < s.session.rdmaRemote.sizeGb)) ∧
      s.turn freeMemG =
      if cfg.memEvictHitThreshold ≤ s.freeMem.evictHitCount + 1 then
        (⟨last, 0, 0⟩, if 0 < stop then .evict stop else .stay)
      else (⟨cfg.mix freeMemG s.freeMem.lastFreeMemG, s.freeMem.evictHitCount + 1, 0⟩, .stay) := by
  rw [zone, MonitorConfig.zone] at h
  split_ifs at h with hlow
  rw [turn, FreeMem.turn, if_pos hlow]
  refine ⟨_, _, fun hfits => ?_, rfl⟩
  -- the value is below the threshold, so only an empty pool leaves nothing to evict
  rw [wrapInt_of_isInt hfits]
  split_ifs <;> omega

theorem turn_high (h : s.zone freeMemG = .high) :
    ∃ last, s.turn freeMemG =
      if cfg.memExpandHitThreshold ≤ s.freeMem.expandHitCount + 1 then
        (⟨last, 0, 0⟩, .expand (cfg.mix freeMemG s.freeMem.lastFreeMemG))
      else (⟨cfg.mix freeMemG s.freeMem.lastFreeMemG, 0, s.freeMem.expandHitCount + 1⟩, .stay) := by
  rw [zone, MonitorConfig.zone] at h
  split_ifs at h with hlow hhigh
  rw [turn, FreeMem.turn, if_neg hlow, if_pos hhigh]
  exact ⟨_, rfl⟩

theorem turn_mid (h : s.zone freeMemG = .mid) :
    s.turn freeMemG =
      (⟨cfg.mix freeMemG s.freeMem.lastFreeMemG, s.freeMem.evictHitCount,
        s.freeMem.expandHitCount⟩, .stay) := by
  rw [zone, MonitorConfig.zone] at h
  split_ifs at h with hlow hhigh
  rw [turn, FreeMem.turn, if_neg hlow, if_neg hhigh]

/-- A turn keeps the counters in step with the record. -/
theorem Counts.turn (h : Counts s) (session : RdmaSession cfg.toServerConfig)
    (wait : Wait cfg.toServerConfig) :
    Counts
      { session := session
        freeMem := (s.turn freeMemG).1
        wait := wait
        zones := s.zone freeMemG :: s.zones : Monitored cfg } := by
  cases hzone : s.zone freeMemG with
  | low =>
    obtain ⟨last, stop, -, hturn⟩ := turn_low hzone
    constructor
    · have hnext := count_next h.evict
      rw [hits, if_pos rfl, ← hnext, hturn]
      split_ifs <;> rfl
    · rw [hits, if_neg (by decide), if_pos rfl, hturn]
      split_ifs <;> simp
  | high =>
    obtain ⟨last, hturn⟩ := turn_high hzone
    constructor
    · rw [hits, if_neg (by decide), if_pos rfl, hturn]
      split_ifs <;> simp
    · have hnext := count_next h.expand
      rw [hits, if_pos rfl, ← hnext, hturn]
      split_ifs <;> rfl
  | mid =>
    rw [turn_mid hzone]
    exact ⟨h.evict, h.expand⟩

theorem Counts.step (h : Counts s) {e : Event cfg} (ht : Monitored.step s e = some t) :
    Counts t := by
  cases e with
  | turn freeMemG memalign fuel rand =>
    rw [Monitored.step] at ht
    split at ht
    · split_ifs at ht
      obtain ⟨p, -, rfl⟩ := Option.map_eq_some_iff.mp ht
      exact h.turn p.1 p.2
    · cases ht
  | resume recvMsg =>
    obtain ⟨p, -, rfl⟩ := Option.map_eq_some_iff.mp ht
    exact ⟨h.evict, h.expand⟩
  | op o =>
    rw [Monitored.step] at ht
    split_ifs at ht
    obtain ⟨session, -, rfl⟩ := Option.map_eq_some_iff.mp ht
    exact ⟨h.evict, h.expand⟩

/-- At any time of any run, for any value that can be subtracted from the threshold: the next turn
calls `evict_mem` if and only if it is low, the number of low turns since the last high one is then
a multiple of the limit, and the pool is not empty; it expands if and only if it is high, and the
number of high turns since the last low one is a multiple of its limit. Turns between the thresholds
do not count and do not interrupt. -/
theorem acts_at_limit (initFreeMemG lastFreeMemG : ℤ)
    (memalign : Chunk cfg.toServerConfig → BitVec 64) (events : List (Event cfg))
    (h : run Monitored.step (init initFreeMemG lastFreeMemG memalign) events = some t)
    (freeMemG : ℤ) (hfits : t.Measurable freeMemG) :
    ((∃ stop, (t.turn freeMemG).2 = .evict stop) ↔
      t.zone freeMemG = .low ∧ 0 < t.session.rdmaRemote.sizeGb ∧
        limit cfg.memEvictHitThreshold ∣ hits .low .high (t.zone freeMemG :: t.zones)) ∧
    ((∃ g, (t.turn freeMemG).2 = .expand g) ↔
      t.zone freeMemG = .high ∧
        limit cfg.memExpandHitThreshold ∣ hits .high .low (t.zone freeMemG :: t.zones)) := by
  have hcounts : Counts t := run_keeps (fun _ _ _ hs hstep => hs.step hstep) (counts_init ..) h
  cases hzone : t.zone freeMemG with
  | low =>
    obtain ⟨last, stop, hstop, hturn⟩ := turn_low hzone
    rw [hits, if_pos rfl, ← reached_iff hcounts.evict, ← hstop hfits, hturn]
    split_ifs with hreached hpos
    · simp [hreached, hpos]
    · simp [hpos]
    · simp [hreached]
  | high =>
    obtain ⟨last, hturn⟩ := turn_high hzone
    have hcount := reached_iff hcounts.expand
    simp only [hits, if_pos, ← hcount, hturn]
    split_ifs with hreached <;> simp [hreached]
  | mid => simp [turn_mid hzone]

/-- The limits of `rdma-common.h`. -/
def defaultMonitor : MonitorConfig :=
  { defaultConfig with
    memEvictHitThreshold := 1
    memExpandHitThreshold := 20
    mix := fun free last => (7 * free + 3 * last).tdiv 10 }

/-- Nineteen turns with much free memory. -/
def nineteenHigh : List (Event defaultMonitor) :=
  List.replicate 19 (.turn 20 (fun _ => 0) 0 fun _ => 0)

/-- After nineteen high turns the next one expands if it is high and evicts if it is low. With an
empty pool a low turn does not evict. -/
theorem nineteenHigh_next_expands :
    (∃ t, run Monitored.step (init 20 20 fun _ => 0x1000) nineteenHigh = some t ∧
      (∃ g, (t.turn 20).2 = .expand g) ∧ ∃ stop, (t.turn 0).2 = .evict stop) ∧
    ¬ ∃ stop, ((init 8 8 fun _ => 0 : Monitored defaultMonitor).turn 0).2 = .evict stop := by
  have hrun : run Monitored.step (init 20 20 fun _ => 0x1000) nineteenHigh = some _ := rfl
  have hhigh := (acts_at_limit 20 20 _ _ hrun 20 (by decide)).2
  have hlow := (acts_at_limit 20 20 _ _ hrun 0 (by decide)).1
  have hnone : run Monitored.step (init 8 8 fun _ => 0) ([] : List (Event defaultMonitor)) =
      some _ := rfl
  have hempty := (acts_at_limit 8 8 _ _ hnone 0 (by decide)).1
  refine ⟨⟨_, hrun, hhigh.mpr ⟨by decide, by decide⟩, hlow.mpr ⟨by decide, by decide, by decide⟩⟩,
    fun h => ?_⟩
  exact absurd (hempty.mp h).2.1 (by decide)

end Monitored

end SystemDev.Server
