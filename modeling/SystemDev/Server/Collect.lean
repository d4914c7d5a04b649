import SystemDev.Library.Count
import SystemDev.Library.Fill
import SystemDev.Server.Victims

/-!
# The list of activities

`evict_mem` allocates its list for as many entries as the contacted connections count chunks,
fills it with one entry for each nonzero word of their answers, and sorts as many entries as it
allocated. Nothing compares the three numbers before the list is used: the test `n != k` prints
a message.

The loops up to the sort rewrite messages (`Rewritten`) and fill the list; what they fill in can
be read off the answers (`reportedBy`).

## Main results

* `collect_eq` — the list after all answers, if they fit
* `list_inside_iff` — when the list is written and read inside its bounds
-/

namespace SystemDev.Server

open SystemDev.Library SystemDev.Rdma

variable {cfg : ServerConfig} {s t : RdmaSession cfg} {contacted : Finset (Slot cfg)}
  {recvMsg : Slot cfg → Message cfg.maxFreeMemGb}

/-- `send_list` for a set of connections to contact. -/
def contactList (contacted : Finset (Slot cfg)) (i : Slot cfg) : SendMark :=
  if i ∈ contacted then .contacted else .untouched

theorem contactList_eq_contacted_iff {i : Slot cfg} :
    contactList contacted i = .contacted ↔ i ∈ contacted := by
  by_cases hi : i ∈ contacted
  · simp [contactList, hi]
  · simp [contactList, hi]

/-- The selection leaves such a list. -/
theorem exists_contactList_of_selectConns {fuel : ℕ} {rand : ℕ → ℕ} {evictG j : ℤ}
    {sendList : Slot cfg → SendMark} (h : selectConns fuel rand s evictG = some (sendList, j)) :
    ∃ contacted, sendList = contactList contacted := by
  have hpick : ∀ (g : Selection cfg) (m : Chunk cfg) (g' : Selection cfg),
      (∀ i, g.sendList i ≠ .stopped) → selectChunk s.rdmaRemote.connMap g m = some g' →
      ∀ i, g'.sendList i ≠ .stopped := by
    intro g m g' hkept hpicked i
    obtain ⟨k, -, rfl⟩ := Option.map_eq_some_iff.mp hpicked
    by_cases hi : i = k
    · simp [hi]
    · simp [hi, hkept i]
  have hmarks : ∀ i, sendList i ≠ .stopped := by
    rw [selectConns] at h
    by_cases hall : s.rdmaRemote.mappedSize < evictG + extraChunkNum
    · rw [if_pos hall] at h
      obtain ⟨rfl, -⟩ := Prod.mk.inj (Option.some_inj.mp h)
      intro i
      dsimp only
      split_ifs <;> simp
    · rw [if_neg hall] at h
      obtain ⟨g, hg, hpair⟩ := Option.map_eq_some_iff.mp h
      obtain ⟨rfl, -⟩ := Prod.mk.inj hpair
      exact takeEach_keeps hpick (by simp [initialSelection]) hg
  refine ⟨Finset.univ.filter fun i => sendList i = .contacted, funext fun i => ?_⟩
  cases hi : sendList i with
  | untouched => simp [contactList, hi]
  | contacted => simp [contactList, hi]
  | stopped => exact absurd hi (hmarks i)

/-- The `mapped_chunk_size` of the connection at a slot. -/
def RdmaSession.share (s : RdmaSession cfg) (i : Slot cfg) : ℤ :=
  ((s.connAt i).map Connection.mappedChunkSize).getD 0

/-- The size of the list: the shares of the contacted connections, added up in an `int`. -/
def RdmaSession.listSize (s : RdmaSession cfg) (contacted : Finset (Slot cfg)) : ℤ :=
  wrapInt (∑ i ∈ contacted, s.share i)

theorem contactedSize_eq (hlive : ∀ i ∈ contacted, (s.connAt i).isSome) :
    contactedSize s (contactList contacted) = some (s.listSize contacted) := by
  have hloop : ∀ (is : List (Slot cfg)) (k : ℤ), IsInt k →
      is.foldlM (fun k i => if i ∈ contacted then
        (s.connAt i).map fun c => wrapInt (k + c.mappedChunkSize) else some k) k =
        some (wrapInt (k + (is.map fun i => if i ∈ contacted then s.share i else 0).sum)) := by
    intro is
    induction is with
    | nil =>
      intro k hk
      simpa using (wrapInt_of_isInt hk).symm
    | cons i is ih =>
      intro k hk
      rw [List.foldlM_cons, List.map_cons, List.sum_cons, ← add_assoc]
      by_cases hi : i ∈ contacted
      · obtain ⟨c, hc⟩ := Option.isSome_iff_exists.mp (hlive i hi)
        have hshare : s.share i = c.mappedChunkSize := by simp [RdmaSession.share, hc]
        rw [if_pos hi, hc, if_pos hi, hshare, ← wrapInt_wrapInt_add]
        exact ih _ (isInt_wrapInt _)
      · rw [if_neg hi, if_neg hi, add_zero]
        exact ih k hk
  simp only [contactedSize, contactList_eq_contacted_iff]
  rw [hloop _ 0 (by decide), zero_add, sum_map_finRange_ite, RdmaSession.listSize]

/-! ### Rewriting the messages of the contacted connections -/

/-- The connections that the slots `js` point to were rewritten by `f`. -/
structure Rewritten (f : Connection cfg → Connection cfg) (s : RdmaSession cfg)
    (js : List (Slot cfg)) (t : RdmaSession cfg) : Prop where
  same : SameOwners s t
  conn : ∀ id, t.conn? id =
    (s.conn? id).map fun c => if ∃ j ∈ js, s.conns j = some id then f c else c

section Rewriting

variable {f : Connection cfg → Connection cfg}

theorem rewritten_nil (s : RdmaSession cfg) : Rewritten f s [] s where
  same := .refl s
  conn := by simp

/-- One more rewriting in front; it is no matter if the connection is rewritten again. -/
theorem Rewritten.cons (hid : ∀ c, (f c).id = c.id) (hagain : ∀ c, f (f c) = f c)
    {j : Slot cfg} {js : List (Slot cfg)} {c : Connection cfg} (hc : s.connAt j = some c)
    (h : Rewritten f (s.putConn (f c)) js t) : Rewritten f s (j :: js) t where
  same := (sameOwners_putConn s (f c)).trans h.same
  conn := by
    intro n
    obtain ⟨hj, hconn⟩ := conn?_of_connAt hc
    have hconns : ∀ i, (s.putConn (f c)).conns i = s.conns i := fun _ => rfl
    rw [h.conn]
    simp only [hconns, List.exists_mem_cons_iff, hj, Option.some_inj]
    by_cases hn : c.id = n
    · subst hn
      rw [conn?_putConn_self hconn (hid c), hconn]
      simp [hagain]
    · rw [conn?_putConn_of_ne (by rw [hid]; exact Ne.symm hn)]
      simp only [hn, false_or]

theorem Rewritten.comp {f' : Connection cfg → Connection cfg} {js : List (Slot cfg)}
    {u : RdmaSession cfg} (h : Rewritten f s js t) (h' : Rewritten f' t js u) :
    Rewritten (fun c => f' (f c)) s js u where
  same := h.same.trans h'.same
  conn := by
    intro n
    rw [h'.conn, h.conn, h.same.conns, Option.map_map]
    congr 1
    funext c
    by_cases hn : ∃ j ∈ js, s.conns j = some n
    · simp only [Function.comp_apply, if_pos hn]
    · simp only [Function.comp_apply, if_neg hn]

/-- The loop over all connections that rewrites the contacted ones. -/
theorem exists_foldlM_rewritten (hid : ∀ c, (f c).id = c.id) (hagain : ∀ c, f (f c) = f c)
    (is : List (Slot cfg)) (hlive : ∀ i ∈ contacted, (s.connAt i).isSome) :
    ∃ t, is.foldlM (fun s i => if i ∈ contacted then
        (s.connAt i).map fun c => s.putConn (f c) else some s) s = some t ∧
      Rewritten f s (is.filter (· ∈ contacted)) t := by
  induction is generalizing s with
  | nil => exact ⟨s, rfl, rewritten_nil s⟩
  | cons i is ih =>
    rw [List.foldlM_cons]
    by_cases hi : i ∈ contacted
    · obtain ⟨c, hc⟩ := Option.isSome_iff_exists.mp (hlive i hi)
      have hlater : ∀ l ∈ contacted, ((s.putConn (f c)).connAt l).isSome := by
        intro l hl
        rw [(sameOwners_putConn s (f c)).isSome_connAt]
        exact hlive l hl
      obtain ⟨t, ht, hrest⟩ := ih hlater
      refine ⟨t, ?_, ?_⟩
      · rw [if_pos hi, hc]
        exact ht
      · rw [List.filter_cons_of_pos (by simp [hi])]
        exact .cons hid hagain hc hrest
    · obtain ⟨t, ht, hrest⟩ := ih hlive
      refine ⟨t, ?_, ?_⟩
      · rw [if_neg hi]
        exact ht
      · rw [List.filter_cons_of_neg (by simp [hi])]
        exact hrest

end Rewriting

/-- `send_evict` to the contacted connections. -/
theorem exists_sendEvicts (hlive : ∀ i ∈ contacted, (s.connAt i).isSome) (j : ℤ) :
    ∃ t, sendEvicts (contactList contacted) j s = some t ∧
      Rewritten (fun c => sendEvict c j) s
        ((List.finRange cfg.maxClient).filter (· ∈ contacted)) t := by
  simp only [sendEvicts, contactList_eq_contacted_iff]
  exact exists_foldlM_rewritten (f := fun c => sendEvict c j) (fun _ => rfl) (fun _ => rfl) _ hlive

/-- A connection whose message was cleared to flag victims in it. -/
def resetConn (c : Connection cfg) : Connection cfg :=
  { c with sendMsg := { c.sendMsg with sizeGb := 0, rkey := fun _ => 0 } }

/-! ### The entries -/

/-- The entry for one word of an answer. -/
def report (msg : Message cfg.maxFreeMemGb) (m : Chunk cfg) : Option (ChunkActivity cfg) :=
  if msg.buf m = 0 then none else some ⟨ntohll .little (msg.buf m), m⟩

/-- The entries for an answer. -/
def reported (msg : Message cfg.maxFreeMemGb) : List (ChunkActivity cfg) :=
  (List.finRange cfg.maxFreeMemGb).filterMap (report msg)

/-- The entries for all answers. -/
def reportedBy (recvMsg : Slot cfg → Message cfg.maxFreeMemGb) (contacted : Finset (Slot cfg)) :
    List (ChunkActivity cfg) :=
  (List.finRange cfg.maxClient).flatMap fun i => if i ∈ contacted then reported (recvMsg i) else []

/-- The number of nonzero words in the answers. -/
def wordCount (recvMsg : Slot cfg → Message cfg.maxFreeMemGb) (contacted : Finset (Slot cfg)) : ℕ :=
  ∑ i ∈ contacted, (Finset.univ.filter fun m => (recvMsg i).buf m ≠ 0).card

theorem mem_reported {msg : Message cfg.maxFreeMemGb} {e : ChunkActivity cfg} :
    e ∈ reported msg ↔
      msg.buf e.chunkIndex ≠ 0 ∧ e.activity = ntohll .little (msg.buf e.chunkIndex) := by
  simp only [reported, List.mem_filterMap, List.mem_finRange, true_and, report]
  constructor
  · rintro ⟨m, hm⟩
    split_ifs at hm with hzero
    obtain rfl := Option.some_inj.mp hm
    exact ⟨hzero, rfl⟩
  · rintro ⟨hword, hactivity⟩
    refine ⟨e.chunkIndex, ?_⟩
    rw [if_neg hword, ← hactivity]

theorem mem_reportedBy {e : ChunkActivity cfg} :
    e ∈ reportedBy recvMsg contacted ↔ ∃ i ∈ contacted, e ∈ reported (recvMsg i) := by
  simp only [reportedBy, List.mem_flatMap, List.mem_finRange, true_and]
  refine exists_congr fun i => ?_
  by_cases hi : i ∈ contacted
  · simp [hi]
  · simp [hi]

theorem length_reported (msg : Message cfg.maxFreeMemGb) :
    (reported msg).length = (Finset.univ.filter fun m => msg.buf m ≠ 0).card := by
  have hfilter : (reported msg).length =
      ((List.finRange cfg.maxFreeMemGb).filter fun m => msg.buf m ≠ 0).length := by
    rw [reported, List.length_filterMap_eq_countP, ← List.countP_eq_length_filter]
    congr 1
    funext m
    by_cases hm : msg.buf m = 0
    · rw [report, if_pos hm]
      simp only [hm, ne_eq, not_true, decide_false, Option.isSome_none]
    · rw [report, if_neg hm]
      simp only [hm, ne_eq, not_false_eq_true, decide_true, Option.isSome_some]
  rw [hfilter, length_filter_finRange]
  simp

theorem length_reportedBy :
    (reportedBy recvMsg contacted).length = wordCount recvMsg contacted := by
  rw [reportedBy, List.length_flatMap, wordCount, ← sum_map_finRange_ite]
  congr 2
  funext i
  by_cases hi : i ∈ contacted
  · simp only [hi, if_true, length_reported]
  · simp only [hi, if_false, List.length_nil]

theorem foldlM_collectChunk (msg : Message cfg.maxFreeMemGb) (g : EvictList cfg) :
    (List.finRange cfg.maxFreeMemGb).foldlM (collectChunk msg) g =
      ((reported msg).map some).foldlM push g := by
  rw [reported, List.foldlM_map, List.foldlM_filterMap]
  congr 1
  funext g m
  by_cases hm : msg.buf m = 0
  · simp only [collectChunk, report, hm, if_true]
    rfl
  · simp only [collectChunk, report, hm, if_false]
    rfl

/-- All contacted connections are reset, and the entries of their answers are put into the
list one after the other. -/
theorem exists_foldlM_collectConn (hlive : ∀ i ∈ contacted, (s.connAt i).isSome)
    (recvMsg : Slot cfg → Message cfg.maxFreeMemGb) (g : EvictList cfg) :
    ∃ t, (List.finRange cfg.maxClient).foldlM (collectConn recvMsg (contactList contacted)) (s, g) =
        (((reportedBy recvMsg contacted).map some).foldlM push g).map (fun l => (t, l)) ∧
      Rewritten resetConn s ((List.finRange cfg.maxClient).filter (· ∈ contacted)) t := by
  obtain ⟨t, ht, hreset⟩ := exists_foldlM_rewritten (f := resetConn) (fun _ => rfl) (fun _ => rfl)
    (List.finRange cfg.maxClient) hlive
  refine ⟨t, ?_, hreset⟩
  -- the session and the list do not look at each other
  rw [foldlM_prod (g := fun s i => if i ∈ contacted then
      (s.connAt i).map fun c => s.putConn (resetConn c) else some s)
    (h := fun g i => if i ∈ contacted then
      (List.finRange cfg.maxFreeMemGb).foldlM (collectChunk (recvMsg i)) g else some g)]
  · rw [ht, Option.bind_some]
    congr 1
    rw [reportedBy]
    induction List.finRange cfg.maxClient generalizing g with
    | nil => rfl
    | cons i is ih =>
      rw [List.foldlM_cons, List.flatMap_cons, List.map_append, List.foldlM_append,
        foldlM_collectChunk]
      by_cases hi : i ∈ contacted
      · rw [if_pos hi, if_pos hi]
        exact congrArg _ (funext fun g => ih g)
      · rw [if_neg hi, if_neg hi]
        exact ih g
  · rintro ⟨u, g⟩ i
    simp only [collectConn, contactList_eq_contacted_iff]
    split_ifs with hi
    · cases u.connAt i with
      | none => rfl
      | some c => rfl
    · rfl

/-- The list of `k` entries after the first of them were written. -/
def evictList (k : ℕ) (entries : List (ChunkActivity cfg)) : List (Option (ChunkActivity cfg)) :=
  entries.map some ++ List.replicate (k - entries.length) none

/-- The list after all answers, if it has room for them. -/
theorem collect_eq (hlive : ∀ i ∈ contacted, (s.connAt i).isSome)
    (recvMsg : Slot cfg → Message cfg.maxFreeMemGb) (k : ℤ) :
    ∃ t, collect recvMsg (contactList contacted) k s =
        (if wordCount recvMsg contacted ≤ k.toNat then
          some (t, evictList k.toNat (reportedBy recvMsg contacted), wordCount recvMsg contacted)
        else none) ∧
      Rewritten resetConn s ((List.finRange cfg.maxClient).filter (· ∈ contacted)) t := by
  obtain ⟨t, ht, hreset⟩ := exists_foldlM_collectConn hlive recvMsg
    (List.replicate k.toNat none, 0)
  refine ⟨t, ?_, hreset⟩
  rw [collect, ht, foldlM_push (Nat.zero_le _), List.length_map, List.length_replicate,
    length_reportedBy, Nat.zero_add]
  split_ifs with hroom
  · rw [Option.map_some, overwrite, evictList, List.length_map, length_reportedBy, List.take_zero,
      List.nil_append, Nat.zero_add, List.drop_replicate]
  · rfl

theorem isSome_readEntry_evictList {k n : ℕ} {entries : List (ChunkActivity cfg)} :
    (readEntry (evictList k entries) n).isSome ↔ n < entries.length := by
  rw [readEntry, evictList]
  by_cases hn : n < entries.length
  · rw [List.getElem?_append_left (by rwa [List.length_map])]
    simp [hn]
  · rw [List.getElem?_append_right (by rw [List.length_map]; omega), List.getElem?_replicate]
    split_ifs <;> simp [hn]

theorem mem_evictList {k : ℕ} {entries : List (ChunkActivity cfg)} {e : ChunkActivity cfg} :
    some e ∈ evictList k entries ↔ e ∈ entries := by
  simp [evictList, List.mem_replicate]

/-- A full list has no gap. -/
theorem evictList_length (entries : List (ChunkActivity cfg)) :
    evictList entries.length entries = entries.map some := by
  simp [evictList]

/-- Sorting reads every entry behind the first, and settles the first `j`. So it ends only on a
list that is full and has `j` entries. -/
theorem full_of_sortAndMark {j k : ℤ} {entries : List (ChunkActivity cfg)} {g : Marking cfg}
    {p : List (Option (ChunkActivity cfg)) × Marking cfg}
    (h : sortAndMark j k (evictList k.toNat entries) g = some p) (hj : 0 < j) :
    k.toNat ≤ entries.length ∧ j ≤ entries.length := by
  have hread : ∀ m < j.toNat, m < entries.length ∧
      ∀ m', m < m' → m' < k.toNat → m' < entries.length := by
    intro m hm
    have hwritten := written_of_exchangeRounds _ h m (List.mem_range'_1.mpr (by omega))
    simpa only [isSome_readEntry_evictList] using hwritten
  constructor
  · obtain ⟨hfirst, hbehind⟩ := hread 0 (by omega)
    by_contra hgap
    have hlast := hbehind entries.length hfirst (by omega)
    omega
  · obtain ⟨hlast, -⟩ := hread (j.toNat - 1) (by omega)
    omega

/-- On such a list, or with nothing to evict, it flags the victims. -/
theorem exists_sortAndMark_eq {j k : ℤ} {entries : List (ChunkActivity cfg)}
    (hfull : 0 < j → entries.length = k.toNat ∧ j ≤ entries.length) (g : Marking cfg) :
    ∃ list, sortAndMark j k (evictList k.toNat entries) g =
      ((victims j.toNat entries).foldlM markVictim g).map fun g' => (list, g') := by
  by_cases hj : 0 < j
  · obtain ⟨hlength, henough⟩ := hfull hj
    refine ⟨(settled j.toNat entries).map some, ?_⟩
    rw [sortAndMark, ← hlength, evictList_length]
    exact exchangeRounds_append _ markVictim [] (by omega) g
  · refine ⟨evictList k.toNat entries, ?_⟩
    rw [sortAndMark, Int.toNat_of_nonpos (by omega : j ≤ 0)]
    rfl

/-! ### Bounds -/

/-- The list is written inside its bounds, and if it is sorted at all, what is read was written
from an answer and names a mapped chunk with a live owner. -/
def ListInside (s : RdmaSession cfg) (contacted : Finset (Slot cfg))
    (recvMsg : Slot cfg → Message cfg.maxFreeMemGb) (j : ℤ) : Prop :=
  ∃ k t l n p, contactedSize s (contactList contacted) = some k ∧
    ((sendEvicts (contactList contacted) j s).bind
      fun u => collect recvMsg (contactList contacted) k u) = some (t, l, n) ∧
    sortAndMark j k l ⟨t, contactList contacted, none⟩ = some p ∧
    ∀ e, some e ∈ l → (∃ i ∈ contacted, e ∈ reported (recvMsg i)) ∧
      (0 < j → (t.owner? e.chunkIndex).isSome)

/-- There are no more nonzero words than counted chunks, and if chunks are to be evicted, as
many, and no fewer than are to be evicted, each at the position of a chunk with a live owner. -/
structure WordsFit (s : RdmaSession cfg) (contacted : Finset (Slot cfg))
    (recvMsg : Slot cfg → Message cfg.maxFreeMemGb) (j : ℤ) : Prop where
  room : wordCount recvMsg contacted ≤ (s.listSize contacted).toNat
  full : 0 < j → wordCount recvMsg contacted = (s.listSize contacted).toNat
  enough : 0 < j → j ≤ wordCount recvMsg contacted
  owned : 0 < j → ∀ i ∈ contacted, ∀ m, (recvMsg i).buf m ≠ 0 → (s.owner? m).isSome

/-- The loops up to the sort: if the answers fit, they are in the list, and the contacted
connections have empty messages. -/
theorem exists_collected (hlive : ∀ i ∈ contacted, (s.connAt i).isSome)
    (recvMsg : Slot cfg → Message cfg.maxFreeMemGb) (j k : ℤ) :
    ∃ t, ((sendEvicts (contactList contacted) j s).bind
        fun u => collect recvMsg (contactList contacted) k u) =
        (if wordCount recvMsg contacted ≤ k.toNat then
          some (t, evictList k.toNat (reportedBy recvMsg contacted), wordCount recvMsg contacted)
        else none) ∧
      Rewritten (fun c => resetConn (sendEvict c j)) s
        ((List.finRange cfg.maxClient).filter (· ∈ contacted)) t := by
  obtain ⟨u, hu, hsent⟩ := exists_sendEvicts hlive j
  have hlater : ∀ i ∈ contacted, (u.connAt i).isSome := by
    intro i hi
    rw [hsent.same.isSome_connAt]
    exact hlive i hi
  obtain ⟨t, ht, hreset⟩ := collect_eq hlater recvMsg k
  refine ⟨t, ?_, hsent.comp hreset⟩
  rw [hu, Option.bind_some, ht]

theorem wordsFit_of_listInside (hlive : ∀ i ∈ contacted, (s.connAt i).isSome) {j : ℤ}
    (h : ListInside s contacted recvMsg j) : WordsFit s contacted recvMsg j := by
  obtain ⟨k, t, l, n, p, hk, hcollect, hsort, hentries⟩ := h
  obtain rfl := Option.some_inj.mp ((contactedSize_eq hlive).symm.trans hk)
  obtain ⟨t', ht', hrewritten⟩ := exists_collected hlive recvMsg j (s.listSize contacted)
  rw [ht'] at hcollect
  split_ifs at hcollect with hroom
  obtain ⟨rfl, rfl, rfl⟩ : t' = t ∧ _ = l ∧ _ = n := by simpa using hcollect
  have hfull := fun hj : 0 < j => full_of_sortAndMark hsort hj
  rw [length_reportedBy] at hfull
  refine ⟨hroom, fun hj => le_antisymm hroom (hfull hj).1, fun hj => (hfull hj).2,
    fun hj i hi m hm => ?_⟩
  have hmem : some (⟨ntohll .little ((recvMsg i).buf m), m⟩ : ChunkActivity cfg) ∈
      evictList (s.listSize contacted).toNat (reportedBy recvMsg contacted) := by
    refine List.mem_append_left _ (List.mem_map_of_mem ?_)
    exact mem_reportedBy.mpr ⟨i, hi, mem_reported.mpr ⟨hm, rfl⟩⟩
  have howner := (hentries _ hmem).2 hj
  rwa [hrewritten.same.isSome_owner] at howner

theorem listInside_of_wordsFit (hlive : ∀ i ∈ contacted, (s.connAt i).isSome) {j : ℤ}
    (h : WordsFit s contacted recvMsg j) : ListInside s contacted recvMsg j := by
  obtain ⟨t, ht, hrewritten⟩ := exists_collected hlive recvMsg j (s.listSize contacted)
  rw [if_pos h.room] at ht
  have hreported : ∀ e ∈ reportedBy recvMsg contacted,
      (∃ i ∈ contacted, e ∈ reported (recvMsg i)) ∧ (0 < j → (t.owner? e.chunkIndex).isSome) := by
    intro e he
    obtain ⟨i, hi, hei⟩ := mem_reportedBy.mp he
    refine ⟨⟨i, hi, hei⟩, fun hj => ?_⟩
    rw [hrewritten.same.isSome_owner]
    exact h.owned hj i hi _ (mem_reported.mp hei).1
  have hvictims : ∀ e ∈ victims j.toNat (reportedBy recvMsg contacted),
      (t.owner? e.chunkIndex).isSome := by
    intro e he
    have hj : 0 < j.toNat := by
      by_contra hnone
      simp [victims, Nat.eq_zero_of_not_pos hnone] at he
    exact (hreported e (mem_of_mem_victims he)).2 (by omega)
  obtain ⟨list, hlist⟩ := exists_sortAndMark_eq (k := s.listSize contacted)
    (fun hj => ⟨length_reportedBy.trans (h.full hj), by rw [length_reportedBy]; exact h.enough hj⟩)
    ⟨t, contactList contacted, none⟩
  obtain ⟨g', hg'⟩ := exists_foldlM_markVictim (g := ⟨t, contactList contacted, none⟩) hvictims
  rw [hg', Option.map_some] at hlist
  exact ⟨_, t, _, _, _, contactedSize_eq hlive, ht, hlist,
    fun e he => hreported e (mem_evictList.mp he)⟩

/-- For every session, every set of contacted connections, every content of their answers and
every number of chunks to evict: the list is filled and used inside its bounds if and only if
the answers have as many nonzero words as the connections count chunks, at the positions of
chunks with an owner. -/
theorem list_inside_iff (s : RdmaSession cfg) (contacted : Finset (Slot cfg))
    (recvMsg : Slot cfg → Message cfg.maxFreeMemGb) (j : ℤ)
    (hlive : ∀ i ∈ contacted, (s.connAt i).isSome) :
    ListInside s contacted recvMsg j ↔ WordsFit s contacted recvMsg j :=
  ⟨wordsFit_of_listInside hlive, listInside_of_wordsFit hlive⟩

/-- Answers with given words. -/
def answers (word : ℕ → ℕ → BitVec 64) (i : Slot cfg) : Message cfg.maxFreeMemGb where
  buf := fun m => word i m
  rkey := fun _ => 0
  sizeGb := 0
  type := .activity

/-- The only client answers with a word for each of its first `n` positions. -/
def firstWords (n : ℕ) : Slot defaultConfig → Message defaultConfig.maxFreeMemGb :=
  answers fun _ m => if m < n then 5 else 0

/-- It has two chunks and reports both. -/
theorem list_inside_iff_bothReported :
    ∃ s, run step (rdmaSessionInit 11 fun _ => 0x1000) (visit.take 2) = some s ∧
      (∀ i ∈ Finset.univ, (s.connAt i).isSome) ∧
      ListInside s Finset.univ (firstWords 2) 1 := by
  have hrun : (run step (rdmaSessionInit 11 fun _ => 0x1000) (visit.take 2)).any fun s =>
      (∀ i ∈ Finset.univ, (s.connAt i).isSome) ∧ s.listSize Finset.univ = 2 ∧
        ∀ i ∈ Finset.univ, ∀ m, (firstWords 2 i).buf m ≠ 0 →
          (s.owner? m).isSome := by decide +kernel
  obtain ⟨s, hs, hstate⟩ := (Option.any_eq_true _ _).mp hrun
  obtain ⟨hlive, hshare, howned⟩ := of_decide_eq_true hstate
  have hwords : wordCount (firstWords 2) Finset.univ = 2 := by decide +kernel
  refine ⟨s, hs, hlive, (list_inside_iff s _ _ 1 hlive).mpr ⟨?_, ?_, ?_, fun _ => howned⟩⟩
  · rw [hwords, hshare]
    decide
  · intro _
    rw [hwords, hshare]
    rfl
  · intro _
    rw [hwords]
    decide

/-- It reports an activity of zero for its second chunk. The sort then compares the first entry
with one that was never written. -/
theorem idle_chunk_is_read_unwritten :
    ∃ s, run step (rdmaSessionInit 11 fun _ => 0x1000) (visit.take 2) = some s ∧
      (∀ i ∈ Finset.univ, (s.connAt i).isSome) ∧
      ¬ ListInside s Finset.univ (firstWords 1) 1 := by
  have hrun : (run step (rdmaSessionInit 11 fun _ => 0x1000) (visit.take 2)).any fun s =>
      (∀ i ∈ Finset.univ, (s.connAt i).isSome) ∧ s.listSize Finset.univ = 2 := by
    decide +kernel
  obtain ⟨s, hs, hstate⟩ := (Option.any_eq_true _ _).mp hrun
  obtain ⟨hlive, hshare⟩ := of_decide_eq_true hstate
  have hwords : wordCount (firstWords 1) Finset.univ = 1 := by decide +kernel
  refine ⟨s, hs, hlive, fun hinside => ?_⟩
  have hfull := (wordsFit_of_listInside hlive hinside).full (by decide)
  rw [hwords, hshare] at hfull
  exact absurd hfull (by decide)

end SystemDev.Server
