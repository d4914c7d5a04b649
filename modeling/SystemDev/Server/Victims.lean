import SystemDev.Server.Evict

/-!
# The victims of an eviction

Behind the activities of the contacted clients `evict_mem` brings the least active chunks to the
front of its list, one in each round, and flags the chunk of a round in the message of its
owner: the connection that the slot in `conn_map` points to.

The loop only rewrites messages. Which connection a chunk belongs to is the same before and
after (`SameOwners`), so each flag can be read off the list of victims (`Marked`), and the
messages of two stretches of victims are those of one (`Marked.append`).

## Main results

* `marked_of_foldlM` — the messages after a list of victims
* `least_active_are_flagged` — sorting and flagging on a list of activities
-/

namespace SystemDev.Server

open SystemDev.Library SystemDev.Rdma

variable {cfg : ServerConfig} {s t u : RdmaSession cfg} {c : Connection cfg}
  {i : Chunk cfg} {k : Slot cfg}

/-! ### Owners -/

/-- `session.conns[session.rdma_remote.conn_map[i]]`, dereferenced. -/
def RdmaSession.owner? (s : RdmaSession cfg) (i : Chunk cfg) : Option (Connection cfg) :=
  (index? cfg.maxClient (s.rdmaRemote.connMap i)).bind s.connAt

/-- The owner of a chunk is the connection `id`. -/
def RdmaSession.ownedBy (s : RdmaSession cfg) (id : ℕ) (i : Chunk cfg) : Bool :=
  (s.owner? i).any fun c => c.id = id

theorem owner?_eq_some_iff :
    s.owner? i = some c ↔
      ∃ k : Slot cfg, s.rdmaRemote.connMap i = (k : ℕ) ∧ s.connAt k = some c := by
  rw [RdmaSession.owner?, Option.bind_eq_some_iff]
  exact exists_congr fun k => and_congr_left fun _ => index?_eq_some_iff

theorem conn?_of_connAt (h : s.connAt k = some c) :
    s.conns k = some c.id ∧ s.conn? c.id = some c := by
  obtain ⟨id, hid, hc⟩ := Option.bind_eq_some_iff.mp h
  obtain rfl := (mem_live_of_conn? hc).2
  exact ⟨hid, hc⟩

/-- The chunk tables, the pointers in `conns` and the objects they point to are the same; what
the objects hold may differ. -/
structure SameOwners (s t : RdmaSession cfg) : Prop where
  remote : t.rdmaRemote = s.rdmaRemote
  conns : t.conns = s.conns
  ids : ∀ id, (t.conn? id).map Connection.id = (s.conn? id).map Connection.id

theorem SameOwners.refl (s : RdmaSession cfg) : SameOwners s s := ⟨rfl, rfl, fun _ => rfl⟩

theorem SameOwners.trans (h : SameOwners s t) (h' : SameOwners t u) : SameOwners s u :=
  ⟨h'.remote.trans h.remote, h'.conns.trans h.conns, fun id => (h'.ids id).trans (h.ids id)⟩

theorem sameOwners_putConn (s : RdmaSession cfg) (c : Connection cfg) :
    SameOwners s (s.putConn c) where
  remote := rfl
  conns := rfl
  ids := by
    intro id
    rw [conn?_putConn, Option.map_map]
    congr 1
    funext d
    by_cases hd : d.id = c.id
    · simp [hd]
    · simp [hd]

theorem SameOwners.connAt (h : SameOwners s t) (k : Slot cfg) :
    (t.connAt k).map Connection.id = (s.connAt k).map Connection.id := by
  rw [RdmaSession.connAt, RdmaSession.connAt, h.conns]
  cases s.conns k with
  | none => rfl
  | some id => exact h.ids id

theorem SameOwners.isSome_connAt (h : SameOwners s t) (k : Slot cfg) :
    (t.connAt k).isSome = (s.connAt k).isSome := by
  have hid := congrArg Option.isSome (h.connAt k)
  rwa [Option.isSome_map, Option.isSome_map] at hid

theorem SameOwners.owner (h : SameOwners s t) (i : Chunk cfg) :
    (t.owner? i).map Connection.id = (s.owner? i).map Connection.id := by
  rw [RdmaSession.owner?, RdmaSession.owner?, h.remote]
  cases index? cfg.maxClient (s.rdmaRemote.connMap i) with
  | none => rfl
  | some k => exact h.connAt k

theorem SameOwners.isSome_owner (h : SameOwners s t) (i : Chunk cfg) :
    (t.owner? i).isSome = (s.owner? i).isSome := by
  have hid := congrArg Option.isSome (h.owner i)
  rwa [Option.isSome_map, Option.isSome_map] at hid

theorem ownedBy_eq (s : RdmaSession cfg) (id : ℕ) (i : Chunk cfg) :
    s.ownedBy id i = ((s.owner? i).map Connection.id).any fun n => n = id := by
  rw [RdmaSession.ownedBy, Option.any_map]

theorem SameOwners.ownedBy (h : SameOwners s t) : t.ownedBy = s.ownedBy := by
  funext id i
  rw [ownedBy_eq, ownedBy_eq, h.owner]

/-! ### Flagging victims -/

/-- A connection whose message flags the chunks of the victims, and counts them. -/
def markConn (victims : List (ChunkActivity cfg)) (c : Connection cfg) : Connection cfg :=
  { c with
    sendMsg :=
      { c.sendMsg with
        rkey := fun i => if ∃ e ∈ victims, e.chunkIndex = i then 1 else c.sendMsg.rkey i
        sizeGb := c.sendMsg.sizeGb + victims.length } }

theorem markConn_nil : (markConn [] : Connection cfg → Connection cfg) = id := by
  funext c
  simp [markConn]

theorem markConn_singleton (e : ChunkActivity cfg) (c : Connection cfg) :
    markConn [e] c =
      { c with
        sendMsg :=
          { c.sendMsg with
            rkey := Function.update c.sendMsg.rkey e.chunkIndex 1
            sizeGb := c.sendMsg.sizeGb + 1 } } := by
  refine Connection.ext rfl rfl rfl rfl (Message.ext rfl ?_ rfl rfl)
  funext i
  dsimp only
  rw [Function.update_apply]
  refine if_congr ?_ rfl rfl
  simp only [List.mem_singleton, exists_eq_left]
  exact eq_comm

theorem markConn_append (es fs : List (ChunkActivity cfg)) :
    markConn fs ∘ markConn es = markConn (es ++ fs) := by
  funext c
  refine Connection.ext rfl rfl rfl rfl (Message.ext rfl ?_ ?_ rfl)
  · funext i
    simp only [Function.comp_apply, markConn, List.mem_append, or_and_right, exists_or]
    by_cases hf : ∃ f ∈ fs, f.chunkIndex = i
    · rw [if_pos hf, if_pos (Or.inr hf)]
    · rw [if_neg hf]
      simp only [hf, or_false]
  · simp only [Function.comp_apply, markConn, List.length_append, Nat.cast_add, add_assoc]

/-- The victims that belong to a connection. -/
def victimsOf (s : RdmaSession cfg) (id : ℕ) (es : List (ChunkActivity cfg)) :
    List (ChunkActivity cfg) :=
  es.filter fun e => s.ownedBy id e.chunkIndex

/-- The victims whose chunks are mapped to a slot. -/
def victimsAt (s : RdmaSession cfg) (k : Slot cfg) (es : List (ChunkActivity cfg)) :
    List (ChunkActivity cfg) :=
  es.filter fun e => s.rdmaRemote.connMap e.chunkIndex = (k : ℕ)

theorem SameOwners.victimsAt (h : SameOwners s t) (k : Slot cfg) (es : List (ChunkActivity cfg)) :
    victimsAt t k es = victimsAt s k es := by
  rw [Server.victimsAt, Server.victimsAt, h.remote]

theorem victimsAt_append (s : RdmaSession cfg) (k : Slot cfg) (es fs : List (ChunkActivity cfg)) :
    victimsAt s k (es ++ fs) = victimsAt s k es ++ victimsAt s k fs :=
  List.filter_append es fs

/-- What flagging a list of victims changes. -/
structure Marked (g : Marking cfg) (es : List (ChunkActivity cfg)) (g' : Marking cfg) : Prop where
  same : SameOwners g.session g'.session
  messages : ∀ id, g'.session.conn? id =
    (g.session.conn? id).map (markConn (victimsOf g.session id es))
  sendList : ∀ k, g'.sendList k =
    if g.sendList k = .contacted ∧ victimsAt g.session k es ≠ [] then .stopped else g.sendList k
  connIndex : g'.connIndex = g.connIndex ∧ es = [] ∨
    ∃ k, g'.connIndex = some k ∧ victimsAt g.session k es ≠ []

theorem marked_nil (g : Marking cfg) : Marked g [] g where
  same := .refl _
  messages := by
    intro n
    rw [victimsOf, List.filter_nil, markConn_nil, Option.map_id, id_eq]
  sendList := by simp [victimsAt]
  connIndex := .inl ⟨rfl, rfl⟩

theorem Marked.append {g₁ g₂ g₃ : Marking cfg} {es fs : List (ChunkActivity cfg)}
    (h : Marked g₁ es g₂) (h' : Marked g₂ fs g₃) : Marked g₁ (es ++ fs) g₃ where
  same := h.same.trans h'.same
  messages := by
    intro id
    rw [h'.messages, h.messages, Option.map_map, markConn_append, victimsOf, victimsOf, victimsOf,
      h.same.ownedBy, List.filter_append]
  sendList := by
    intro k
    rw [h'.sendList, h.sendList, h.same.victimsAt, victimsAt_append]
    by_cases hk : g₁.sendList k = .contacted
    · by_cases hes : victimsAt g₁.session k es = []
      · simp [hk, hes]
      · simp [hk, hes]
    · simp [hk]
  connIndex := by
    rcases h'.connIndex with ⟨hkept, rfl⟩ | ⟨k, hk, hlast⟩
    · rw [List.append_nil, hkept]
      exact h.connIndex
    · refine .inr ⟨k, hk, ?_⟩
      rw [h.same.victimsAt] at hlast
      rw [victimsAt_append]
      exact List.append_ne_nil_of_right_ne_nil _ hlast

/-- The first victim of a list. -/
theorem marked_singleton {g g' : Marking cfg} {e : ChunkActivity cfg}
    (h : markVictim g e = some g') :
    Marked g [e] g' ∧ (g.session.owner? e.chunkIndex).isSome := by
  obtain ⟨k, hk, h⟩ := Option.bind_eq_some_iff.mp h
  obtain ⟨c, hc, rfl⟩ := Option.map_eq_some_iff.mp h
  have hconn := (conn?_of_connAt hc).2
  have howner : g.session.owner? e.chunkIndex = some c :=
    owner?_eq_some_iff.mpr ⟨k, index?_eq_some_iff.mp hk, hc⟩
  have hslot : ∀ l, victimsAt g.session l [e] = if l = k then [e] else [] := by
    intro l
    rw [victimsAt, List.filter_singleton, index?_eq_some_iff.mp hk]
    by_cases hl : l = k
    · simp [hl]
    · simp [hl, Fin.val_inj, Ne.symm hl]
  refine ⟨⟨sameOwners_putConn _ _, fun n => ?_, fun l => ?_, .inr ⟨k, rfl, ?_⟩⟩, by simp [howner]⟩
  · dsimp only
    rw [← markConn_singleton]
    by_cases hn : n = c.id
    · subst hn
      have hown : victimsOf g.session c.id [e] = [e] := by
        simp [victimsOf, RdmaSession.ownedBy, howner]
      have hself : (g.session.putConn (markConn [e] c)).conn? c.id = some (markConn [e] c) :=
        conn?_putConn_self hconn rfl
      rw [hself, hconn, hown, Option.map_some]
    · have hother : victimsOf g.session n [e] = [] := by
        simp [victimsOf, RdmaSession.ownedBy, howner, Ne.symm hn]
      rw [conn?_putConn_of_ne (c := markConn [e] c) hn, hother, markConn_nil, Option.map_id, id_eq]
  · dsimp only
    rw [hslot]
    by_cases hl : l = k
    · subst hl
      by_cases hcontacted : g.sendList l = .contacted
      · simp [hcontacted]
      · simp [hcontacted]
    · by_cases hcontacted : g.sendList k = .contacted
      · simp [hl, hcontacted]
      · simp [hl, hcontacted]
  · rw [hslot, if_pos rfl]
    exact List.cons_ne_nil e []

theorem marked_of_foldlM {es : List (ChunkActivity cfg)} {g g' : Marking cfg}
    (h : es.foldlM markVictim g = some g') :
    Marked g es g' ∧ ∀ e ∈ es, (g.session.owner? e.chunkIndex).isSome := by
  induction es generalizing g with
  | nil =>
    obtain rfl := Option.some_inj.mp h
    exact ⟨marked_nil g, by simp⟩
  | cons e es ih =>
    obtain ⟨g₁, hg₁, hrest⟩ := Option.bind_eq_some_iff.mp h
    obtain ⟨hfirst, howner⟩ := marked_singleton hg₁
    obtain ⟨hlater, howners⟩ := ih hrest
    refine ⟨hfirst.append hlater, fun f hf => ?_⟩
    rcases List.mem_cons.mp hf with rfl | hf
    · exact howner
    · rw [← hfirst.same.isSome_owner]
      exact howners f hf

/-- Victims with an owner can all be flagged. -/
theorem exists_foldlM_markVictim {es : List (ChunkActivity cfg)} {g : Marking cfg}
    (h : ∀ e ∈ es, (g.session.owner? e.chunkIndex).isSome) :
    ∃ g', es.foldlM markVictim g = some g' := by
  induction es generalizing g with
  | nil => exact ⟨g, rfl⟩
  | cons e es ih =>
    obtain ⟨c, hc⟩ := Option.isSome_iff_exists.mp (h e List.mem_cons_self)
    obtain ⟨k, hk, hck⟩ := owner?_eq_some_iff.mp hc
    obtain ⟨g₁, hg₁⟩ : ∃ g₁, markVictim g e = some g₁ := by
      rw [markVictim, index?_eq_some_iff.mpr hk, Option.bind_some, hck]
      exact ⟨_, rfl⟩
    obtain ⟨hfirst, -⟩ := marked_singleton hg₁
    obtain ⟨g', hg'⟩ := ih (g := g₁) fun f hf => by
      rw [hfirst.same.isSome_owner]
      exact h f (List.mem_cons_of_mem e hf)
    refine ⟨g', ?_⟩
    rw [List.foldlM_cons, hg₁]
    exact hg'

/-! ### Sorting -/

/-- The list after the rounds that settle its first `j` entries. -/
def settled (j : ℕ) (entries : List (ChunkActivity cfg)) : List (ChunkActivity cfg) :=
  exchangeSort (fun e => e.activity.toNat) j entries

/-- The first `j` entries of that list. -/
def victims (j : ℕ) (entries : List (ChunkActivity cfg)) : List (ChunkActivity cfg) :=
  (settled j entries).take j

/-- On a list without gaps the double loop settles `j` entries and flags them. -/
theorem sortAndMark_eq {j : ℕ} {entries : List (ChunkActivity cfg)} (hj : j ≤ entries.length)
    (g : Marking cfg) :
    sortAndMark j entries.length (entries.map some) g =
      ((victims j entries).foldlM markVictim g).map fun g' =>
        ((settled j entries).map some, g') :=
  exchangeRounds_append _ markVictim [] hj g

/-- The list is reordered, its first `j` entries are in order and none behind them is less
active. -/
structure LeastFirst (j : ℕ) (entries list : List (ChunkActivity cfg)) : Prop where
  perm : list.Perm entries
  sorted : (list.take j).Pairwise fun a b => a.activity ≤ b.activity
  least : ∀ a ∈ list.take j, ∀ b ∈ list.drop j, a.activity ≤ b.activity

theorem leastFirst_settled (j : ℕ) (entries : List (ChunkActivity cfg)) :
    LeastFirst j entries (settled j entries) := by
  obtain ⟨hsorted, hleast⟩ :=
    exchangeSort_least (fun e : ChunkActivity cfg => e.activity.toNat) j entries
  exact ⟨exchangeSort_perm _ j entries, hsorted, hleast⟩

theorem mem_of_mem_victims {j : ℕ} {entries : List (ChunkActivity cfg)} {e : ChunkActivity cfg}
    (he : e ∈ victims j entries) : e ∈ entries :=
  (leastFirst_settled j entries).perm.mem_iff.mp (List.mem_of_mem_take he)

/-- Exactly the chunks of the victims are flagged, each in the message of its owner; all other
flags are as they were. -/
def FlagsVictims (s t : RdmaSession cfg) (victims : List (ChunkActivity cfg)) : Prop :=
  ∀ id c, s.conn? id = some c → ∃ c', t.conn? id = some c' ∧ ∀ i, c'.sendMsg.rkey i =
    if (∃ e ∈ victims, e.chunkIndex = i) ∧ s.ownedBy id i then 1 else c.sendMsg.rkey i

theorem Marked.flagsVictims {g g' : Marking cfg} {es : List (ChunkActivity cfg)}
    (h : Marked g es g') : FlagsVictims g.session g'.session es := by
  intro id c hc
  refine ⟨_, by rw [h.messages, hc, Option.map_some], fun i => ?_⟩
  have hmem : (∃ e ∈ victimsOf g.session id es, e.chunkIndex = i) ↔
      (∃ e ∈ es, e.chunkIndex = i) ∧ g.session.ownedBy id i := by
    simp only [victimsOf, List.mem_filter]
    constructor
    · rintro ⟨e, ⟨he, hown⟩, rfl⟩
      exact ⟨⟨e, he, rfl⟩, hown⟩
    · rintro ⟨⟨e, he, rfl⟩, hown⟩
      exact ⟨e, ⟨he, hown⟩, rfl⟩
  exact if_congr hmem rfl rfl

/-- For every list of entries whose chunks have an owner and every `j` up to its length the
double loop ends, with the `j` least active entries in front, in order, and with exactly their
chunks flagged. Entries may name a chunk twice. -/
theorem least_active_are_flagged (entries : List (ChunkActivity cfg)) (j : ℕ) (g : Marking cfg)
    (hj : j ≤ entries.length)
    (howners : ∀ e ∈ entries, (g.session.owner? e.chunkIndex).isSome) :
    ∃ list g', sortAndMark j entries.length (entries.map some) g = some (list.map some, g') ∧
      LeastFirst j entries list ∧ FlagsVictims g.session g'.session (list.take j) := by
  obtain ⟨g', hg'⟩ := exists_foldlM_markVictim fun e (he : e ∈ victims j entries) =>
    howners e (mem_of_mem_victims he)
  refine ⟨settled j entries, g', ?_, leastFirst_settled j entries,
    (marked_of_foldlM hg').1.flagsVictims⟩
  rw [sortAndMark_eq hj, hg', Option.map_some]

/-- The first two chunks, the second less active. -/
def secondLessActive : List (ChunkActivity defaultConfig) :=
  ((List.finRange defaultConfig.maxFreeMemGb).take 2).map fun i => ⟨BitVec.ofNat 64 (9 - i.val), i⟩

theorem least_active_are_flagged_secondOfTwo :
    ∃ s, run step (rdmaSessionInit 11 fun _ => 0x1000) (visit.take 2) = some s ∧
      ∃ list g', sortAndMark (1 : ℕ) secondLessActive.length (secondLessActive.map some)
          ⟨s, fun _ => .contacted, none⟩ = some (list.map some, g') ∧
        LeastFirst 1 secondLessActive list ∧ FlagsVictims s g'.session (list.take 1) := by
  have hrun : (run step (rdmaSessionInit 11 fun _ => 0x1000) (visit.take 2)).any fun s =>
      ∀ e ∈ secondLessActive, (s.owner? e.chunkIndex).isSome := by decide +kernel
  obtain ⟨s, hs, hstate⟩ := (Option.any_eq_true _ _).mp hrun
  exact ⟨s, hs, least_active_are_flagged secondLessActive 1 ⟨s, fun _ => .contacted, none⟩
    (by decide) (of_decide_eq_true hstate)⟩

end SystemDev.Server
