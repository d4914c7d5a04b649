import SystemDev.Server.Collect

/-!
# Telling clients to stop

The last loop of `evict_mem` sends a `STOP` message to every contacted connection. A connection
without victims is told to stop nothing. All others are told the same number: it is read from
the connection that `conn_index` was left at by the sort, the owner of the last victim, and not
from the connection that the message goes to.

## Main results

* `exists_sendStops` — the messages of the last loop
* `stops_own_iff` — when every client is told the number of its own victims
* `evictMem_cases` — what `evict_mem` sends
* `Honest.evenVictims_iff` — what is left of the condition when clients answer as they should
-/

namespace SystemDev.Server

open SystemDev.Library SystemDev.Rdma

variable {cfg : ServerConfig} {s t u : RdmaSession cfg} {contacted : Finset (Slot cfg)}
  {recvMsg : Slot cfg → Message cfg.maxFreeMemGb} {g : Marking cfg} {i : Slot cfg}

/-! ### Writing through a slot -/

/-- No two slots point to one connection. -/
def Apart (s : RdmaSession cfg) : Prop :=
  ∀ k l id, s.conns k = some id → s.conns l = some id → k = l

theorem Reached.apart (h : Reached s) : Apart s := fun _ _ _ hk hl => h.eq_of_conns hk hl

theorem SameOwners.apart (h : SameOwners s t) (hs : Apart s) : Apart t := by
  intro k l id hk hl
  rw [h.conns] at hk hl
  exact hs k l id hk hl

/-- What is written back to a connection shows at its own slot only. -/
theorem connAt_putConn (h : Apart s) {c c' : Connection cfg} (hc : s.connAt i = some c)
    (hid : c'.id = c.id) : (s.putConn c').connAt = Function.update s.connAt i (some c') := by
  obtain ⟨hi, hconn⟩ := conn?_of_connAt hc
  have hconns : (s.putConn c').conns = s.conns := rfl
  funext l
  by_cases hl : l = i
  · subst hl
    rw [Function.update_self, RdmaSession.connAt, hconns, hi, Option.bind_some,
      conn?_putConn_self hconn hid]
  · rw [Function.update_of_ne hl, RdmaSession.connAt, RdmaSession.connAt, hconns]
    cases hn : s.conns l with
    | none => rfl
    | some n =>
      refine conn?_putConn_of_ne fun hsame => hl (h l i n hn ?_)
      rw [hi, hsame, hid]

/-! ### The last loop -/

/-- The number that every connection with victims is told. -/
def lastSize (g : Marking cfg) : ℤ :=
  ((g.connIndex.bind g.session.connAt).map fun c => c.sendMsg.sizeGb).getD 0

/-- The number of chunks that a connection is told to stop. -/
def stopSize (g : Marking cfg) (i : Slot cfg) : ℤ :=
  if g.sendList i = .stopped then lastSize g else 0

/-- The message to a connection. -/
def stopMessage (g : Marking cfg) (i : Slot cfg) : Option (Slot cfg × Message cfg.maxFreeMemGb) :=
  if g.sendList i = .untouched then none
  else (g.session.connAt i).map fun c => (i, (sendStop c (stopSize g i)).sendMsg)

/-- What the sort leaves for the last loop. -/
structure Stoppable (g : Marking cfg) : Prop where
  apart : Apart g.session
  live : ∀ i, g.sendList i ≠ .untouched → (g.session.connAt i).isSome
  lastLive : ∀ i, g.sendList i = .stopped → ∃ k, g.connIndex = some k ∧ (g.session.connAt k).isSome
  lastMark : ∀ k, g.connIndex = some k → g.sendList k ≠ .contacted

/-- The loop has changed counts and types of messages, and not the count that it reads. -/
structure StopsFrom (g : Marking cfg) (u : RdmaSession cfg) : Prop where
  same : SameOwners g.session u
  messages : ∀ i, (u.connAt i).map (fun c => sendStop c 0) =
    (g.session.connAt i).map fun c => sendStop c 0
  last : (g.connIndex.bind u.connAt).map (fun c => c.sendMsg.sizeGb) =
    (g.connIndex.bind g.session.connAt).map fun c => c.sendMsg.sizeGb

/-- Telling a connection its number keeps this. -/
theorem StopsFrom.putConn (hg : Stoppable g) (h : StopsFrom g u) {c : Connection cfg}
    (hc : u.connAt i = some c) (hi : g.sendList i ≠ .untouched) :
    StopsFrom g (u.putConn (sendStop c (stopSize g i))) := by
  have hconnAt : (u.putConn (sendStop c (stopSize g i))).connAt =
      Function.update u.connAt i (some (sendStop c (stopSize g i))) :=
    connAt_putConn (h.same.apart hg.apart) hc rfl
  refine ⟨h.same.trans (sameOwners_putConn _ _), fun l => ?_, ?_⟩
  · rw [hconnAt, ← h.messages]
    by_cases hl : l = i
    · subst hl
      rw [Function.update_self, hc]
      rfl
    · rw [Function.update_of_ne hl]
  · rw [hconnAt, ← h.last]
    cases hlast : g.connIndex with
    | none => rfl
    | some k =>
      rw [Option.bind_some, Option.bind_some]
      by_cases hk : k = i
      · -- its own count is written over itself
        subst hk
        have hstopped : g.sendList k = .stopped := by
          cases hmark : g.sendList k with
          | untouched => exact absurd hmark hi
          | contacted => exact absurd hmark (hg.lastMark k hlast)
          | stopped => rfl
        have hown := h.last
        simp only [hlast, Option.bind_some, hc, Option.map_some] at hown
        rw [Function.update_self, hc, Option.map_some, Option.map_some, stopSize, if_pos hstopped,
          lastSize, hlast, Option.bind_some, ← hown]
        rfl
      · rw [Function.update_of_ne hk]

/-- One connection. -/
theorem exists_stopConnAt (hg : Stoppable g) (h : StopsFrom g u) (i : Slot cfg)
    (out : List (Slot cfg × Message cfg.maxFreeMemGb)) :
    ∃ v, stopConnAt g.sendList g.connIndex (u, out) i = some (v, out ++ (stopMessage g i).toList) ∧
      StopsFrom g v := by
  by_cases hi : g.sendList i = .untouched
  · refine ⟨u, ?_, h⟩
    rw [stopConnAt, hi, stopMessage, if_pos hi, Option.toList_none, List.append_nil]
  · obtain ⟨d, hd⟩ := Option.isSome_iff_exists.mp (hg.live i hi)
    -- the connection differs from the one at the start in what is overwritten now
    have hmessage := h.messages i
    rw [hd, Option.map_some, Option.map_eq_some_iff] at hmessage
    obtain ⟨c, hc, hcd⟩ := hmessage
    have hsent : (stopMessage g i).toList = [(i, (sendStop c (stopSize g i)).sendMsg)] := by
      have hstop : sendStop d (stopSize g i) = sendStop c (stopSize g i) := by
        change sendStop (sendStop d 0) _ = sendStop (sendStop c 0) _
        rw [hcd]
      rw [stopMessage, if_neg hi, hd, Option.map_some, hstop, Option.toList_some]
    refine ⟨_, ?_, h.putConn hg hc hi⟩
    rw [hsent, stopConnAt]
    cases hmark : g.sendList i with
    | untouched => exact absurd hmark hi
    | contacted =>
      have hzero : stopSize g i = 0 := by
        rw [stopSize, hmark]
        rfl
      rw [hzero, hc]
      rfl
    | stopped =>
      obtain ⟨k, hk, hlive⟩ := hg.lastLive i hmark
      rw [← h.same.isSome_connAt] at hlive
      obtain ⟨last, hlast⟩ := Option.isSome_iff_exists.mp hlive
      have hsize : stopSize g i = last.sendMsg.sizeGb := by
        rw [stopSize, if_pos hmark, lastSize, ← h.last, hk, Option.bind_some, hlast]
        rfl
      rw [hsize, hk, hc]
      simp only [hlast, Option.bind_eq_bind, Option.bind_some]

theorem exists_sendStops (hg : Stoppable g) :
    ∃ v, sendStops g = some (v, (List.finRange cfg.maxClient).filterMap (stopMessage g)) := by
  have hloop : ∀ (is : List (Slot cfg)) (u : RdmaSession cfg)
      (out : List (Slot cfg × Message cfg.maxFreeMemGb)), StopsFrom g u →
      ∃ v, is.foldlM (stopConnAt g.sendList g.connIndex) (u, out) =
        some (v, out ++ is.filterMap (stopMessage g)) := by
    intro is
    induction is with
    | nil =>
      intro u out _
      exact ⟨u, by simp⟩
    | cons i is ih =>
      intro u out hu
      obtain ⟨v, hv, hnext⟩ := exists_stopConnAt hg hu i out
      obtain ⟨w, hw⟩ := ih v _ hnext
      refine ⟨w, ?_⟩
      have hmessages : (i :: is).filterMap (stopMessage g) =
          (stopMessage g i).toList ++ is.filterMap (stopMessage g) := by
        rw [List.filterMap_cons]
        cases stopMessage g i with
        | none => rfl
        | some p => rfl
      rw [List.foldlM_cons, hv, hmessages, ← List.append_assoc]
      exact hw
  exact hloop _ g.session [] ⟨.refl _, fun _ => rfl, rfl⟩

/-! ### What the sort leaves -/

/-- The chunks of a list of entries. -/
def chunksOf (es : List (ChunkActivity cfg)) : Finset (Chunk cfg) :=
  (es.map ChunkActivity.chunkIndex).toFinset

/-- The number of chunks of a set that are mapped to a slot. -/
def stake (s : RdmaSession cfg) (chunks : Finset (Chunk cfg)) (i : Slot cfg) : ℕ :=
  (chunks.filter fun m => s.rdmaRemote.connMap m = (i : ℕ)).card

theorem chunksOf_victimsAt (s : RdmaSession cfg) (i : Slot cfg) (es : List (ChunkActivity cfg)) :
    chunksOf (victimsAt s i es) =
      (chunksOf es).filter fun m => s.rdmaRemote.connMap m = (i : ℕ) := by
  ext m
  simp only [chunksOf, victimsAt, List.mem_toFinset, List.mem_map, List.mem_filter,
    Finset.mem_filter, decide_eq_true_eq]
  constructor
  · rintro ⟨e, ⟨he, hi⟩, rfl⟩
    exact ⟨⟨e, he, rfl⟩, hi⟩
  · rintro ⟨⟨e, he, rfl⟩, hi⟩
    exact ⟨e, ⟨he, hi⟩, rfl⟩

theorem victimsAt_eq_nil_iff {es : List (ChunkActivity cfg)} :
    victimsAt s i es = [] ↔ stake s (chunksOf es) i = 0 := by
  rw [stake, ← chunksOf_victimsAt, Finset.card_eq_zero, chunksOf, List.toFinset_eq_empty_iff,
    List.map_eq_nil_iff]

theorem mem_contacted_of_stake {chunks : Finset (Chunk cfg)}
    (howned : ∀ m ∈ chunks, ∃ i ∈ contacted, s.rdmaRemote.connMap m = (i : ℕ))
    (hi : stake s chunks i ≠ 0) : i ∈ contacted := by
  obtain ⟨m, hm⟩ := Finset.card_pos.mp (Nat.pos_of_ne_zero hi)
  obtain ⟨hmem, hslot⟩ := Finset.mem_filter.mp hm
  obtain ⟨l, hl, hml⟩ := howned m hmem
  obtain rfl : i = l := Fin.ext (Int.ofNat_inj.mp (hslot.symm.trans hml))
  exact hl

/-- A connection's victims are those at its slot. -/
theorem victimsOf_eq_victimsAt (h : Apart s) {c : Connection cfg} (hc : s.connAt i = some c)
    (es : List (ChunkActivity cfg)) : victimsOf s c.id es = victimsAt s i es := by
  refine List.filter_congr fun e _ => ?_
  rw [Bool.eq_iff_iff, decide_eq_true_eq, RdmaSession.ownedBy, Option.any_eq_true]
  constructor
  · rintro ⟨d, hd, hid⟩
    obtain ⟨k, hk, hdk⟩ := owner?_eq_some_iff.mp hd
    have hsame : s.conns k = some c.id := by
      rw [← of_decide_eq_true hid]
      exact (conn?_of_connAt hdk).1
    rwa [← h k i c.id hsame (conn?_of_connAt hc).1]
  · intro hi
    exact ⟨c, owner?_eq_some_iff.mpr ⟨i, hi, hc⟩, by simp⟩

theorem Marked.connAt {g' : Marking cfg} {es : List (ChunkActivity cfg)} (h : Marked g es g')
    (hg : Apart g.session) {c : Connection cfg} (hc : g.session.connAt i = some c) :
    g'.session.connAt i = some (markConn (victimsAt g.session i es) c) := by
  obtain ⟨hi, hconn⟩ := conn?_of_connAt hc
  rw [RdmaSession.connAt, h.same.conns, hi, Option.bind_some, h.messages, hconn, Option.map_some,
    victimsOf_eq_victimsAt hg hc]

theorem Rewritten.connAt {f : Connection cfg → Connection cfg} {js : List (Slot cfg)}
    (h : Rewritten f s js t) (hi : i ∈ js) {c : Connection cfg} (hc : s.connAt i = some c) :
    t.connAt i = some (f c) := by
  obtain ⟨hslot, hconn⟩ := conn?_of_connAt hc
  rw [RdmaSession.connAt, h.same.conns, hslot, Option.bind_some, h.conn, hconn, Option.map_some,
    if_pos ⟨i, hi, hslot⟩]

/-- A message that was reset flags the victims marked in it. -/
theorem length_flagged_markConn (s : RdmaSession cfg) (i : Slot cfg)
    (es : List (ChunkActivity cfg)) (c : Connection cfg) (n : ℤ) :
    (flagged (sendStop (markConn (victimsAt s i es) (resetConn c)) n).sendMsg).length =
      stake s (chunksOf es) i := by
  rw [flagged, length_filter_finRange, stake, ← chunksOf_victimsAt]
  congr 1
  ext m
  have hkey : (sendStop (markConn (victimsAt s i es) (resetConn c)) n).sendMsg.rkey m =
      if ∃ e ∈ victimsAt s i es, e.chunkIndex = m then 1 else 0 := rfl
  rw [Finset.mem_filter, chunksOf, List.mem_toFinset, List.mem_map, hkey, decide_eq_true_eq]
  by_cases hm : ∃ e ∈ victimsAt s i es, e.chunkIndex = m
  · rw [if_pos hm]
    exact iff_of_true ⟨Finset.mem_univ m, by decide⟩ hm
  · rw [if_neg hm]
    exact iff_of_false (fun h => h.2 rfl) hm

section Left

variable {g' : Marking cfg} {es : List (ChunkActivity cfg)} {j : ℤ}
  (hs : Apart s) (hlive : ∀ i ∈ contacted, (s.connAt i).isSome)
  (hsent : Rewritten (fun c => resetConn (sendEvict c j)) s
    ((List.finRange cfg.maxClient).filter (· ∈ contacted)) t)
  (hmarked : Marked ⟨t, contactList contacted, none⟩ es g')

include hsent hmarked

theorem sendList_left (i : Slot cfg) :
    g'.sendList i =
      if i ∈ contacted then if stake s (chunksOf es) i = 0 then .contacted else .stopped
      else .untouched := by
  rw [hmarked.sendList, hsent.same.victimsAt]
  simp only [contactList_eq_contacted_iff, ne_eq, victimsAt_eq_nil_iff]
  by_cases hi : i ∈ contacted
  · by_cases hstake : stake s (chunksOf es) i = 0
    · simp [hi, hstake, contactList]
    · simp [hi, hstake]
  · simp [hi, contactList]

/-- A contacted connection is told nothing, or the number that all are told. -/
theorem stopSize_left (hi : i ∈ contacted) :
    stopSize g' i = if stake s (chunksOf es) i = 0 then 0 else lastSize g' := by
  rw [stopSize, sendList_left hsent hmarked, if_pos hi]
  by_cases hstake : stake s (chunksOf es) i = 0
  · rw [if_pos hstake, if_pos hstake]
    rfl
  · rw [if_neg hstake, if_neg hstake, if_pos rfl]

include hs in
/-- The message of a contacted connection. -/
theorem connAt_left (hi : i ∈ contacted) {c : Connection cfg} (hc : s.connAt i = some c) :
    g'.session.connAt i =
      some (markConn (victimsAt s i es) (resetConn (sendEvict c j))) := by
  have hmem : i ∈ (List.finRange cfg.maxClient).filter (· ∈ contacted) := by simp [hi]
  have hreset := hsent.connAt hmem hc
  rw [hmarked.connAt (hsent.same.apart hs) hreset, hsent.same.victimsAt]

theorem connIndex_left {k : Slot cfg} (hk : g'.connIndex = some k) :
    stake s (chunksOf es) k ≠ 0 := by
  rcases hmarked.connIndex with ⟨hnone, -⟩ | ⟨l, hl, hvictims⟩
  · rw [hk] at hnone
    cases hnone
  · obtain rfl := Option.some_inj.mp (hk.symm.trans hl)
    rw [hsent.same.victimsAt] at hvictims
    exact fun hstake => hvictims (victimsAt_eq_nil_iff.mpr hstake)

include hs hlive in
theorem stoppable_left (howners : ∀ e ∈ es, (t.owner? e.chunkIndex).isSome) : Stoppable g' where
  apart := hmarked.same.apart (hsent.same.apart hs)
  live := by
    intro i hi
    rw [sendList_left hsent hmarked] at hi
    split_ifs at hi with hmem hstake
    · rw [hmarked.same.isSome_connAt, hsent.same.isSome_connAt]
      exact hlive i hmem
    · rw [hmarked.same.isSome_connAt, hsent.same.isSome_connAt]
      exact hlive i hmem
    · exact absurd rfl hi
  lastLive := by
    intro i hi
    rw [sendList_left hsent hmarked] at hi
    split_ifs at hi with hmem hstake
    rcases hmarked.connIndex with ⟨-, rfl⟩ | ⟨k, hk, hvictims⟩
    · exact absurd rfl hstake
    · -- the last victim has an owner, and it is at that slot
      refine ⟨k, hk, ?_⟩
      obtain ⟨e, he⟩ := List.exists_mem_of_ne_nil _ hvictims
      obtain ⟨hmem, hslot⟩ := List.mem_filter.mp he
      obtain ⟨c, hc⟩ := Option.isSome_iff_exists.mp (howners e hmem)
      obtain ⟨l, hl, hcl⟩ := owner?_eq_some_iff.mp hc
      have hlk : l = k := Fin.ext (Int.ofNat_inj.mp (hl.symm.trans (of_decide_eq_true hslot)))
      rw [hmarked.same.isSome_connAt, ← hlk, hcl]
      rfl
  lastMark := by
    intro k hk hmark
    have hstake := connIndex_left hsent hmarked hk
    rw [sendList_left hsent hmarked, if_neg hstake] at hmark
    split_ifs at hmark

/-- The number that is told is the number of victims of the connection it was left at. -/
theorem exists_lastSize_left (hs : Apart s) (hlive : ∀ i ∈ contacted, (s.connAt i).isSome)
    (howned : ∀ m ∈ chunksOf es, ∃ i ∈ contacted, s.rdmaRemote.connMap m = (i : ℕ))
    (hi : stake s (chunksOf es) i ≠ 0) :
    ∃ k, stake s (chunksOf es) k ≠ 0 ∧ lastSize g' = (victimsAt s k es).length := by
  rcases hmarked.connIndex with ⟨-, rfl⟩ | ⟨k, hk, -⟩
  · exact absurd rfl hi
  · have hstake := connIndex_left hsent hmarked hk
    have hmem := mem_contacted_of_stake howned hstake
    obtain ⟨c, hc⟩ := Option.isSome_iff_exists.mp (hlive k hmem)
    refine ⟨k, hstake, ?_⟩
    rw [lastSize, hk, Option.bind_some, connAt_left hs hsent hmarked hmem hc]
    exact zero_add _

/-- A contacted connection gets a message that flags its victims. -/
theorem stopMessage_left (hs : Apart s) (hlive : ∀ i ∈ contacted, (s.connAt i).isSome)
    (hi : i ∈ contacted) :
    ∃ msg, stopMessage g' i = some (i, msg) ∧ msg.sizeGb = stopSize g' i ∧
      (flagged msg).length = stake s (chunksOf es) i := by
  obtain ⟨c, hc⟩ := Option.isSome_iff_exists.mp (hlive i hi)
  have htouched : g'.sendList i ≠ .untouched := by
    rw [sendList_left hsent hmarked, if_pos hi]
    split_ifs <;> simp
  refine ⟨_, ?_, rfl, length_flagged_markConn s i es (sendEvict c j) (stopSize g' i)⟩
  rw [stopMessage, if_neg htouched, connAt_left hs hsent hmarked hi hc, Option.map_some]

theorem stopMessage_left_of_not_mem (hi : i ∉ contacted) : stopMessage g' i = none := by
  rw [stopMessage, sendList_left hsent hmarked, if_neg hi, if_pos rfl]

/-- The messages carry what they flag, and add up to `j`, if and only if the numbers that the
contacted connections are told are those of their victims, and add up to `j`. -/
theorem counted_left_iff (hs : Apart s) (hlive : ∀ i ∈ contacted, (s.connAt i).isSome) (n : ℤ) :
    ((∀ p ∈ (List.finRange cfg.maxClient).filterMap (stopMessage g'),
        p.2.sizeGb = (flagged p.2).length) ∧
      (((List.finRange cfg.maxClient).filterMap (stopMessage g')).map
        fun p => p.2.sizeGb).sum = n) ↔
      (∀ i ∈ contacted, stopSize g' i = stake s (chunksOf es) i) ∧
        ∑ i ∈ contacted, stopSize g' i = n := by
  have hsum : (((List.finRange cfg.maxClient).filterMap (stopMessage g')).map
      fun p => p.2.sizeGb).sum = ∑ i ∈ contacted, stopSize g' i := by
    rw [sum_map_filterMap, ← sum_map_finRange_ite]
    congr 2
    funext i
    by_cases hi : i ∈ contacted
    · obtain ⟨msg, hmsg, hsize, -⟩ := stopMessage_left hsent hmarked hs hlive hi
      rw [hmsg, if_pos hi, ← hsize]
      rfl
    · rw [stopMessage_left_of_not_mem hsent hmarked hi, if_neg hi]
      rfl
  rw [hsum]
  refine and_congr_left fun _ => ?_
  simp only [List.mem_filterMap, List.mem_finRange, true_and]
  constructor
  · intro hall i hi
    obtain ⟨msg, hmsg, hsize, hflags⟩ := stopMessage_left hsent hmarked hs hlive hi
    rw [← hsize, ← hflags]
    exact hall _ ⟨i, hmsg⟩
  · rintro hall p ⟨i, hp⟩
    by_cases hi : i ∈ contacted
    · obtain ⟨msg, hmsg, hsize, hflags⟩ := stopMessage_left hsent hmarked hs hlive hi
      obtain rfl := Option.some_inj.mp (hmsg.symm.trans hp)
      change msg.sizeGb = (flagged msg).length
      rw [hsize, hflags]
      exact hall i hi
    · rw [stopMessage_left_of_not_mem hsent hmarked hi] at hp
      cases hp

end Left

/-! ### Own victims -/

/-- Every `STOP` message carries the number of chunks that it flags, and these add up to the
number of chunks to evict. -/
def StopsOwn (s : RdmaSession cfg) (contacted : Finset (Slot cfg))
    (recvMsg : Slot cfg → Message cfg.maxFreeMemGb) (j : ℤ) : Prop :=
  ∃ t stops, evictContacted recvMsg s (contactList contacted) j = some (t, stops) ∧
    (∀ p ∈ stops, p.2.sizeGb = (flagged p.2).length) ∧ (stops.map fun p => p.2.sizeGb).sum = j

/-- The `j` least active chunks of the answers. -/
def victimChunks (contacted : Finset (Slot cfg)) (recvMsg : Slot cfg → Message cfg.maxFreeMemGb)
    (j : ℤ) : Finset (Chunk cfg) :=
  chunksOf (victims j.toNat (reportedBy recvMsg contacted))

/-- The answers fill the list, the victims are `j` chunks of contacted connections, and
connections that have victims have equally many. -/
structure EvenVictims (s : RdmaSession cfg) (contacted : Finset (Slot cfg))
    (recvMsg : Slot cfg → Message cfg.maxFreeMemGb) (j : ℤ) : Prop where
  room : wordCount recvMsg contacted ≤ (s.listSize contacted).toNat
  full : 0 < j → wordCount recvMsg contacted = (s.listSize contacted).toNat
  count : ((victimChunks contacted recvMsg j).card : ℤ) = j
  owned : ∀ m ∈ victimChunks contacted recvMsg j,
    ∃ i ∈ contacted, s.rdmaRemote.connMap m = (i : ℕ)
  even : ∀ i l, stake s (victimChunks contacted recvMsg j) i ≠ 0 →
    stake s (victimChunks contacted recvMsg j) l ≠ 0 →
    stake s (victimChunks contacted recvMsg j) i = stake s (victimChunks contacted recvMsg j) l

/-- `evict_mem` behind the selection is the last loop after the victims were flagged, if the
list is filled and used inside its bounds. -/
theorem exists_evictContacted_iff (hlive : ∀ i ∈ contacted, (s.connAt i).isSome)
    (recvMsg : Slot cfg → Message cfg.maxFreeMemGb) (j : ℤ) :
    ∃ t, Rewritten (fun c => resetConn (sendEvict c j)) s
        ((List.finRange cfg.maxClient).filter (· ∈ contacted)) t ∧
      ∀ out, evictContacted recvMsg s (contactList contacted) j = some out ↔
        wordCount recvMsg contacted ≤ (s.listSize contacted).toNat ∧
          (0 < j → wordCount recvMsg contacted = (s.listSize contacted).toNat ∧
            j ≤ wordCount recvMsg contacted) ∧
          ∃ g', (victims j.toNat (reportedBy recvMsg contacted)).foldlM markVictim
              ⟨t, contactList contacted, none⟩ = some g' ∧ sendStops g' = some out := by
  obtain ⟨t, ht, hsent⟩ := exists_collected hlive recvMsg j (s.listSize contacted)
  refine ⟨t, hsent, fun out => ?_⟩
  have hphases : evictContacted recvMsg s (contactList contacted) j =
      ((sendEvicts (contactList contacted) j s).bind fun u =>
        collect recvMsg (contactList contacted) (s.listSize contacted) u).bind fun p =>
        (sortAndMark j (s.listSize contacted) p.2.1
          ⟨p.1, contactList contacted, none⟩).bind fun q => sendStops q.2 := by
    rw [evictContacted, contactedSize_eq hlive, Option.bind_assoc]
    rfl
  rw [hphases, ht]
  by_cases hroom : wordCount recvMsg contacted ≤ (s.listSize contacted).toNat
  · rw [if_pos hroom, Option.bind_some]
    constructor
    · intro h
      obtain ⟨p, hp, hstops⟩ := Option.bind_eq_some_iff.mp h
      have hfull : 0 < j → _ := fun hj => full_of_sortAndMark hp hj
      rw [length_reportedBy] at hfull
      have hlength : 0 < j → wordCount recvMsg contacted = (s.listSize contacted).toNat ∧
          j ≤ wordCount recvMsg contacted :=
        fun hj => ⟨le_antisymm hroom (hfull hj).1, (hfull hj).2⟩
      refine ⟨hroom, hlength, ?_⟩
      rw [← length_reportedBy] at hlength
      obtain ⟨list, hlist⟩ := exists_sortAndMark_eq hlength ⟨t, contactList contacted, none⟩
      obtain ⟨g', hg', rfl⟩ := Option.map_eq_some_iff.mp (hlist.symm.trans hp)
      exact ⟨g', hg', hstops⟩
    · rintro ⟨-, hlength, g', hg', hstops⟩
      rw [← length_reportedBy] at hlength
      obtain ⟨list, hlist⟩ := exists_sortAndMark_eq hlength ⟨t, contactList contacted, none⟩
      rw [hg', Option.map_some] at hlist
      rw [hlist, Option.bind_some]
      exact hstops
  · rw [if_neg hroom, Option.bind_none]
    exact iff_of_false (by simp) fun h => hroom h.1

theorem card_chunksOf_le (es : List (ChunkActivity cfg)) : (chunksOf es).card ≤ es.length := by
  have hle := (es.map ChunkActivity.chunkIndex).toFinset_card_le
  rwa [List.length_map] at hle

theorem length_victims_le (j : ℕ) (entries : List (ChunkActivity cfg)) :
    (victims j entries).length ≤ j ∧ (victims j entries).length ≤ entries.length := by
  rw [victims, List.length_take, (leastFirst_settled j entries).perm.length_eq]
  exact ⟨min_le_left _ _, min_le_right _ _⟩

/-- As many chunks as entries: no chunk is named twice. -/
theorem card_chunksOf_eq_iff {es : List (ChunkActivity cfg)} :
    (chunksOf es).card = es.length ↔ (es.map ChunkActivity.chunkIndex).Nodup := by
  rw [← Multiset.coe_nodup, ← Multiset.toFinset_card_eq_card_iff_nodup, Multiset.coe_card,
    List.length_map]
  rfl

/-- When the victims are different chunks, the victims at a slot are as many as its chunks. -/
theorem length_victimsAt {es : List (ChunkActivity cfg)} (h : (chunksOf es).card = es.length)
    (s : RdmaSession cfg) (i : Slot cfg) :
    (victimsAt s i es).length = stake s (chunksOf es) i := by
  have hnodup := card_chunksOf_eq_iff.mp h
  have hown : ((victimsAt s i es).map ChunkActivity.chunkIndex).Nodup :=
    hnodup.sublist (List.filter_sublist.map _)
  rw [stake, ← chunksOf_victimsAt, chunksOf, List.toFinset_card_of_nodup hown, List.length_map]

theorem sum_stake (s : RdmaSession cfg) (contacted : Finset (Slot cfg))
    (chunks : Finset (Chunk cfg)) :
    ∑ i ∈ contacted, stake s chunks i =
      (chunks.filter fun m => ∃ i ∈ contacted, s.rdmaRemote.connMap m = (i : ℕ)).card := by
  have hinjective : Function.Injective fun i : Slot cfg => ((i : ℕ) : ℤ) :=
    fun _ _ h => Fin.ext (Int.ofNat_inj.mp h)
  convert sum_card_filter_eq contacted chunks s.rdmaRemote.connMap _ hinjective
  rfl

/-- When the connections' shares of no more than `j` chunks add up to `j`, the chunks are `j` and
each belongs to one of the connections. -/
theorem owned_of_sum_stake {chunks : Finset (Chunk cfg)} {j : ℤ}
    (hsum : ((∑ i ∈ contacted, stake s chunks i : ℕ) : ℤ) = j) (hle : chunks.card ≤ j.toNat) :
    (chunks.card : ℤ) = j ∧
      ∀ m ∈ chunks, ∃ i ∈ contacted, s.rdmaRemote.connMap m = (i : ℕ) := by
  have hfilter := Finset.card_filter_le chunks
    fun m => ∃ i ∈ contacted, s.rdmaRemote.connMap m = (i : ℕ)
  rw [← sum_stake] at hfilter
  have hcount : (chunks.card : ℤ) = j := by omega
  refine ⟨hcount, Finset.card_filter_eq_iff.mp ?_⟩
  rw [← sum_stake]
  omega

theorem evenVictims_of_stopsOwn (hs : Apart s) (hlive : ∀ i ∈ contacted, (s.connAt i).isSome)
    {j : ℤ} (h : StopsOwn s contacted recvMsg j) : EvenVictims s contacted recvMsg j := by
  obtain ⟨v, stops, hrun, hcounted⟩ := h
  obtain ⟨t, hsent, hiff⟩ := exists_evictContacted_iff hlive recvMsg j
  obtain ⟨hroom, hfull, g', hg', hstops⟩ := (hiff _).mp hrun
  obtain ⟨hmarked, howners⟩ := marked_of_foldlM hg'
  obtain ⟨v', hv'⟩ := exists_sendStops (stoppable_left hs hlive hsent hmarked howners)
  obtain ⟨rfl, rfl⟩ := Prod.mk.inj (Option.some_inj.mp (hv'.symm.trans hstops))
  obtain ⟨htold, hsum⟩ := (counted_left_iff hsent hmarked hs hlive j).mp hcounted
  -- the numbers of own victims add up to `j`, so no victim is counted twice or left out
  have htotal : ((∑ i ∈ contacted, stake s (victimChunks contacted recvMsg j) i : ℕ) : ℤ) = j := by
    rw [Nat.cast_sum]
    exact (Finset.sum_congr rfl fun i hi => (htold i hi).symm).trans hsum
  have hbound : (victimChunks contacted recvMsg j).card ≤ j.toNat :=
    (card_chunksOf_le _).trans (length_victims_le j.toNat (reportedBy recvMsg contacted)).1
  obtain ⟨hcount, howned⟩ := owned_of_sum_stake htotal hbound
  have hlast : ∀ i, stake s (victimChunks contacted recvMsg j) i ≠ 0 →
      (stake s (victimChunks contacted recvMsg j) i : ℤ) = lastSize g' := by
    intro i hi
    have hmem := mem_contacted_of_stake howned hi
    have hsize : stopSize g' i = lastSize g' :=
      (stopSize_left hsent hmarked hmem).trans (if_neg hi)
    exact (htold i hmem).symm.trans hsize
  refine ⟨hroom, fun hj => (hfull hj).1, hcount, howned, fun i l hi hl => ?_⟩
  exact Int.ofNat_inj.mp ((hlast i hi).trans (hlast l hl).symm)

theorem stopsOwn_of_evenVictims (hs : Apart s) (hlive : ∀ i ∈ contacted, (s.connAt i).isSome)
    {j : ℤ} (h : EvenVictims s contacted recvMsg j) : StopsOwn s contacted recvMsg j := by
  obtain ⟨t, hsent, hiff⟩ := exists_evictContacted_iff hlive recvMsg j
  have hbound := length_victims_le j.toNat (reportedBy recvMsg contacted)
  rw [length_reportedBy] at hbound
  have hcard : (victimChunks contacted recvMsg j).card ≤ _ := card_chunksOf_le _
  have hcount := h.count
  have hdistinct : (victimChunks contacted recvMsg j).card =
      (victims j.toNat (reportedBy recvMsg contacted)).length := by omega
  have howners : ∀ e ∈ victims j.toNat (reportedBy recvMsg contacted),
      (t.owner? e.chunkIndex).isSome := by
    intro e he
    obtain ⟨i, hi, hslot⟩ := h.owned e.chunkIndex
      (List.mem_toFinset.mpr (List.mem_map_of_mem he))
    obtain ⟨c, hc⟩ := Option.isSome_iff_exists.mp (hlive i hi)
    rw [hsent.same.isSome_owner, owner?_eq_some_iff.mpr ⟨i, hslot, hc⟩]
    rfl
  obtain ⟨g', hg'⟩ := exists_foldlM_markVictim (g := ⟨t, contactList contacted, none⟩) howners
  obtain ⟨hmarked, -⟩ := marked_of_foldlM hg'
  obtain ⟨v, hv⟩ := exists_sendStops (stoppable_left hs hlive hsent hmarked howners)
  have henough : 0 < j → wordCount recvMsg contacted = (s.listSize contacted).toNat ∧
      j ≤ wordCount recvMsg contacted := fun hj => ⟨h.full hj, by omega⟩
  refine ⟨v, _, (hiff _).mpr ⟨h.room, henough, g', hg', hv⟩,
    (counted_left_iff hsent hmarked hs hlive j).mpr ?_⟩
  have htold : ∀ i ∈ contacted,
      stopSize g' i = stake s (victimChunks contacted recvMsg j) i := by
    intro i hi
    have hsize := stopSize_left hsent hmarked hi
    by_cases hstake : stake s (victimChunks contacted recvMsg j) i = 0
    · rw [hstake]
      exact hsize.trans (if_pos hstake)
    · obtain ⟨k, hk, hlast⟩ := exists_lastSize_left hsent hmarked hs hlive h.owned hstake
      rw [length_victimsAt hdistinct] at hlast
      exact (hsize.trans (if_neg hstake)).trans
        (hlast.trans (congrArg Nat.cast (h.even k i hk hstake)))
  refine ⟨htold, ?_⟩
  rw [Finset.sum_congr rfl htold, ← Nat.cast_sum, sum_stake,
    Finset.card_filter_eq_iff.mpr h.owned, hcount]

/-- In every state of every run, for every set of contacted connections, every content of their
answers and every number of chunks to evict: every client is told the number of its own victims,
and these add up, if and only if the answers fill the list, the victims are that many chunks of
contacted clients, and clients with victims have equally many. -/
theorem stops_own_iff (freeMemG : ℤ) (memalign : Chunk cfg → BitVec 64) (ops : List (Op cfg))
    (s : RdmaSession cfg) (contacted : Finset (Slot cfg))
    (recvMsg : Slot cfg → Message cfg.maxFreeMemGb) (j : ℤ)
    (hrun : run step (rdmaSessionInit freeMemG memalign) ops = some s)
    (hlive : ∀ i ∈ contacted, (s.connAt i).isSome) :
    StopsOwn s contacted recvMsg j ↔ EvenVictims s contacted recvMsg j :=
  ⟨evenVictims_of_stopsOwn (reached_of_run hrun).apart hlive,
    stopsOwn_of_evenVictims (reached_of_run hrun).apart hlive⟩

/-- `evict_mem` stops after freeing unmapped chunks, or sends the messages above for the
connections that it selected. -/
theorem evictMem_cases {fuel : ℕ} {rand : ℕ → ℕ} {stopG : ℤ}
    {stops : List (Slot cfg × Message cfg.maxFreeMemGb)}
    (h : evictMem fuel rand recvMsg s stopG = some (t, stops)) :
    ((evictUnmapped s.rdmaRemote stopG).2 : ℤ) = stopG ∧ stops = [] ∨
      ∃ contacted j, evictContacted recvMsg
        { s with rdmaRemote := (evictUnmapped s.rdmaRemote stopG).1 } (contactList contacted) j =
          some (t, stops) := by
  obtain ⟨⟨u, selected⟩, hselect, hrest⟩ := Option.bind_eq_some_iff.mp h
  simp only [evictSelect] at hselect
  split_ifs at hselect with henough
  · obtain ⟨rfl, rfl⟩ := Prod.mk.inj (Option.some_inj.mp hselect)
    exact .inl ⟨henough, (Prod.mk.inj (Option.some_inj.mp hrest)).2.symm⟩
  · obtain ⟨⟨sendList, j⟩, hconns, hpair⟩ := Option.map_eq_some_iff.mp hselect
    obtain ⟨rfl, rfl⟩ := Prod.mk.inj hpair
    obtain ⟨contacted, rfl⟩ := exists_contactList_of_selectConns hconns
    exact .inr ⟨contacted, j, hrest⟩

/-- The contacted clients answer for their chunks and no others, and the counters are exact. -/
structure Honest (s : RdmaSession cfg) (contacted : Finset (Slot cfg))
    (recvMsg : Slot cfg → Message cfg.maxFreeMemGb) : Prop where
  reported : ∀ i ∈ contacted, ∀ m, (recvMsg i).buf m ≠ 0 ↔ s.rdmaRemote.connMap m = (i : ℕ)
  share : ∀ i ∈ contacted, s.share i = stake s Finset.univ i

/-- Then no chunk is named twice, and there are as many entries as counted chunks. -/
theorem Honest.chunksOf_reportedBy (h : Honest s contacted recvMsg) :
    chunksOf (reportedBy recvMsg contacted) =
      Finset.univ.filter fun m => ∃ i ∈ contacted, s.rdmaRemote.connMap m = (i : ℕ) := by
  ext m
  simp only [chunksOf, List.mem_toFinset, List.mem_map, Finset.mem_filter, Finset.mem_univ,
    true_and, mem_reportedBy]
  constructor
  · rintro ⟨e, ⟨i, hi, he⟩, rfl⟩
    exact ⟨i, hi, (h.reported i hi _).mp (mem_reported.mp he).1⟩
  · rintro ⟨i, hi, hm⟩
    exact ⟨⟨ntohll .little ((recvMsg i).buf m), m⟩,
      ⟨i, hi, mem_reported.mpr ⟨(h.reported i hi m).mpr hm, rfl⟩⟩, rfl⟩

theorem Honest.wordCount_eq (h : Honest s contacted recvMsg) :
    wordCount recvMsg contacted = ∑ i ∈ contacted, stake s Finset.univ i := by
  refine Finset.sum_congr rfl fun i hi => ?_
  rw [stake]
  congr 1
  ext m
  rw [Finset.mem_filter, Finset.mem_filter, h.reported i hi]

/-- With honest clients and no more chunks to evict than they have, the numbers are right if
and only if clients with victims have equally many. -/
theorem Honest.evenVictims_iff (h : Honest s contacted recvMsg) {j : ℤ} (hj : 0 ≤ j)
    (hle : j ≤ ∑ i ∈ contacted, s.share i) :
    EvenVictims s contacted recvMsg j ↔
      ∀ i l, stake s (victimChunks contacted recvMsg j) i ≠ 0 →
        stake s (victimChunks contacted recvMsg j) l ≠ 0 →
        stake s (victimChunks contacted recvMsg j) i =
          stake s (victimChunks contacted recvMsg j) l := by
  refine ⟨EvenVictims.even, fun heven => ?_⟩
  have hshare : ∑ i ∈ contacted, s.share i = wordCount recvMsg contacted := by
    rw [h.wordCount_eq, Nat.cast_sum]
    exact Finset.sum_congr rfl h.share
  have hnodup : ((reportedBy recvMsg contacted).map ChunkActivity.chunkIndex).Nodup := by
    rw [← card_chunksOf_eq_iff, h.chunksOf_reportedBy, length_reportedBy, h.wordCount_eq, sum_stake]
  have hperm := (leastFirst_settled j.toNat (reportedBy recvMsg contacted)).perm
  have hvictims : ((victims j.toNat (reportedBy recvMsg contacted)).map
      ChunkActivity.chunkIndex).Nodup :=
    ((hperm.map _).nodup_iff.mpr hnodup).sublist ((List.take_sublist _ _).map _)
  -- no chunk is counted twice, so the sum stays within an `int`
  have hsize : s.listSize contacted = wordCount recvMsg contacted := by
    have hle : wordCount recvMsg contacted ≤ cfg.maxFreeMemGb := by
      rw [← length_reportedBy, ← card_chunksOf_eq_iff.mpr hnodup]
      exact (Finset.card_le_univ _).trans_eq (Fintype.card_fin _)
    rw [RdmaSession.listSize, hshare, wrapInt_chunks hle]
  refine ⟨?_, fun _ => ?_, ?_, fun m hm => ?_, heven⟩
  · rw [hsize, Int.toNat_natCast]
  · rw [hsize, Int.toNat_natCast]
  · rw [victimChunks, card_chunksOf_eq_iff.mpr hvictims, victims, List.length_take,
      hperm.length_eq, length_reportedBy]
    omega
  · obtain ⟨e, he, rfl⟩ := List.mem_map.mp (List.mem_toFinset.mp hm)
    obtain ⟨i, hi, hei⟩ := mem_reportedBy.mp (mem_of_mem_victims he)
    exact ⟨i, hi, (h.reported i hi _).mp (mem_reported.mp hei).1⟩

/-- A server for two clients. -/
def twoClients : ServerConfig := { defaultConfig with maxClient := 2 }

/-- The first client is granted `a` chunks, the second `b`. -/
def twoRequests (a b : ℤ) : List (Op twoClients) :=
  [.buildConnection 7 blankConnection, .buildConnection 8 blankConnection,
    .requestChunks 7 a fun _ => 5, .requestChunks 8 b fun _ => 5]

/-- Each reports its own chunks, with growing activities. -/
def ownActivities (a b : ℕ) : Slot twoClients → Message twoClients.maxFreeMemGb :=
  answers fun i m =>
    if (i = 0 ∧ m < a) ∨ (i = 1 ∧ a ≤ m ∧ m < a + b) then htonll .little (BitVec.ofNat 64 (m + 1))
    else 0

/-- Two clients with a chunk each, both evicted. -/
theorem stops_own_iff_oneEach :
    ∃ s, run step (rdmaSessionInit 10 fun _ => 0x1000) (twoRequests 1 1) = some s ∧
      (∀ i ∈ Finset.univ, (s.connAt i).isSome) ∧
      StopsOwn s Finset.univ (ownActivities 1 1) 2 := by
  have hrun : (run step (rdmaSessionInit 10 fun _ => 0x1000) (twoRequests 1 1)).any fun s =>
      (∀ i ∈ Finset.univ, (s.connAt i).isSome) ∧ s.listSize Finset.univ = 2 ∧
        (∀ m ∈ victimChunks Finset.univ (ownActivities 1 1) 2,
          ∃ i : Slot twoClients, i ∈ Finset.univ ∧ s.rdmaRemote.connMap m = ((i : ℕ) : ℤ)) ∧
        ∀ i, stake s (victimChunks Finset.univ (ownActivities 1 1) 2) i = 1 := by decide +kernel
  obtain ⟨s, hs, hstate⟩ := (Option.any_eq_true _ _).mp hrun
  obtain ⟨hlive, hshare, howned, heven⟩ := of_decide_eq_true hstate
  have hwords : wordCount (ownActivities 1 1) Finset.univ = 2 := by decide +kernel
  refine ⟨s, hs, hlive, (stops_own_iff 10 _ _ s _ _ 2 hs hlive).mpr
    ⟨?_, fun _ => ?_, by decide +kernel, howned, fun i l _ _ => ?_⟩⟩
  · rw [hwords, hshare]
    decide
  · rw [hwords, hshare]
    rfl
  · rw [heven, heven]

/-- The first client has two chunks, the second has one, which is evicted last. Both are told
to stop one chunk. -/
theorem uneven_victims_are_miscounted :
    ∃ s, run step (rdmaSessionInit 11 fun _ => 0x1000) (twoRequests 2 1) = some s ∧
      (∀ i ∈ Finset.univ, (s.connAt i).isSome) ∧
      (∀ (i : Slot twoClients) m,
        (ownActivities 2 1 i).buf m ≠ 0 ↔ s.rdmaRemote.connMap m = (i : ℕ)) ∧
      ¬ StopsOwn s Finset.univ (ownActivities 2 1) 3 := by
  have hrun : (run step (rdmaSessionInit 11 fun _ => 0x1000) (twoRequests 2 1)).any fun s =>
      (∀ i ∈ Finset.univ, (s.connAt i).isSome) ∧
        (∀ (i : Slot twoClients) m, (ownActivities 2 1 i).buf m ≠ 0 ↔
          s.rdmaRemote.connMap m = ((i : ℕ) : ℤ)) ∧
        ∃ i l, stake s (victimChunks Finset.univ (ownActivities 2 1) 3) i = 2 ∧
          stake s (victimChunks Finset.univ (ownActivities 2 1) 3) l = 1 := by decide +kernel
  obtain ⟨s, hs, hstate⟩ := (Option.any_eq_true _ _).mp hrun
  obtain ⟨hlive, hreported, i, l, hi, hl⟩ := of_decide_eq_true hstate
  refine ⟨s, hs, hlive, hreported, fun hown => ?_⟩
  have heven := (evenVictims_of_stopsOwn (reached_of_run hs).apart hlive hown).even i l
    (by rw [hi]; decide) (by rw [hl]; decide)
  rw [hi, hl] at heven
  exact absurd heven (by decide)

end SystemDev.Server
