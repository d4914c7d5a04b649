import SystemDev.APlusB.Sum

/-!
# How an exchange ends

If no call fails and the connection holds, every exchange ends after a bounded number of steps, and
the server returns 0. The client need not: it takes one completion for each event, and asks for the
next event before it does so. When the completion of its send comes first, and that of the reply
before it has asked again, the second completion raises no event. The client then waits forever,
with the sum in its buffer and the completion in its queue.
-/

namespace SystemDev.APlusB

open Library

variable {c : Setup} {s t : State} {log : List Transfer} {k k' : Client} {v v' : Server}

/-- A step that is not a failure. -/
def Event.Regular : Event → Prop
  | .clientFails | .serverFails | .breaks => False
  | _ => True

/-! ### Regular exchanges end -/

/-- Steps that are still to come, for a client at `pc`. -/
def ClientPc.rank : ClientPc → ℕ
  | .postRecv => 20
  | .postWrite => 15
  | .postSend => 10
  | .getEvent => 3
  | .reqNotify => 2
  | .pollCq => 1
  | .returned _ => 0

/-- Steps that are still to come, for a server at `pc`. -/
def ServerPc.rank : ServerPc → ℕ
  | .getEvent => 12
  | .reqNotify => 11
  | .pollCq => 10
  | .add => 9
  | .getSendEvent => 2
  | .pollSend => 1
  | .returned _ => 0

/-- Steps that a posted request brings with it. -/
def Work.rank : Work → ℕ
  | rdmaWrite => 1
  | send => 6

/-- A bound on the steps still to come: a completion is worth a turn of the client's loop. -/
def State.rank (s : State) : ℕ :=
  s.client.pc.rank + 4 * s.client.cq.entries.length + (s.client.sends.map Work.rank).sum +
    5 * s.client.unacked.toNat + s.server.pc.rank + 6 * s.server.sendPosted.toNat +
      s.server.unacked.toNat

theorem rank_client (h : clientCall c s.broken s.client = some k') :
    { s with client := k' }.rank < s.rank := by
  cases hpc : s.client.pc with
  | postRecv =>
    simp only [clientCall, hpc] at h
    split at h
    · cases h
      simp [State.rank, hpc, ClientPc.rank]
      omega
    · cases h
      simp [State.rank, hpc, ClientPc.rank]
  | postWrite =>
    simp only [clientCall, hpc, Option.some_inj] at h
    subst h
    cases s.broken with
    | true =>
      simp [State.rank, hpc, ClientPc.rank, Client.post]
      omega
    | false =>
      simp [State.rank, hpc, ClientPc.rank, Client.post, Work.rank]
      omega
  | postSend =>
    simp only [clientCall, hpc, Option.some_inj] at h
    subst h
    cases s.broken with
    | true =>
      simp [State.rank, hpc, ClientPc.rank, Client.post]
      omega
    | false =>
      simp [State.rank, hpc, ClientPc.rank, Client.post, Work.rank]
      omega
  | getEvent =>
    simp only [clientCall, hpc] at h
    split at h
    · cases h
      simp [State.rank, hpc, ClientPc.rank]
    · cases h
  | reqNotify =>
    simp only [clientCall, hpc, Option.some_inj] at h
    subst h
    simp [State.rank, hpc, ClientPc.rank]
  | pollCq =>
    simp only [clientCall, hpc] at h
    split at h
    · cases h
      simp [State.rank, hpc, ClientPc.rank]
    · rename_i wc rest hentries
      -- one completion less, at most one turn more
      have hdrop : s.client.cq.drop.entries.length + 1 = s.client.cq.entries.length := by
        simp [hentries]
      split at h
      · cases h
        simp only [State.rank, hpc, ClientPc.rank]
        omega
      · split at h
        · cases h
          simp only [State.rank, hpc, ClientPc.rank]
          omega
        · cases h
          simp only [State.rank, hpc, ClientPc.rank]
          omega
  | returned ret => simp [clientCall, hpc] at h

theorem rank_server (h : serverCall c s.broken s.server = some v') :
    { s with server := v' }.rank < s.rank := by
  cases hpc : s.server.pc with
  | getEvent =>
    simp only [serverCall, hpc] at h
    split at h
    · cases h
      simp [State.rank, hpc, ServerPc.rank]
    · cases h
  | reqNotify =>
    simp only [serverCall, hpc, Option.some_inj] at h
    subst h
    simp [State.rank, hpc, ServerPc.rank]
  | pollCq =>
    simp only [serverCall, hpc] at h
    split at h
    · cases h
      simp [State.rank, hpc, ServerPc.rank]
    · split at h <;> cases h <;> simp [State.rank, hpc, ServerPc.rank]
  | add =>
    simp only [serverCall, hpc] at h
    have hposted := Bool.toNat_le s.server.sendPosted
    split at h
    · cases h
      simp [State.rank, hpc, ServerPc.rank]
    · cases h
      simp only [State.rank, hpc, ServerPc.rank, Bool.toNat_true]
      omega
  | getSendEvent =>
    simp only [serverCall, hpc] at h
    split at h
    · cases h
      simp [State.rank, hpc, ServerPc.rank]
    · cases h
  | pollSend =>
    simp only [serverCall, hpc] at h
    split at h
    · cases h
      simp [State.rank, hpc, ServerPc.rank]
    · split at h <;> cases h <;> simp [State.rank, hpc, ServerPc.rank]
  | returned ret => simp [serverCall, hpc] at h

/-- Every regular step brings the end nearer. -/
theorem rank_step (hlow : c.buf.toNat < 2 ^ 32) {ev : Event} (hev : ev.Regular)
    (h : step c s ev = some t) : t.rank < s.rank := by
  cases ev with
  | client =>
    obtain ⟨k, hk, rfl⟩ := Option.map_eq_some_iff.mp h
    exact rank_client hk
  | server =>
    obtain ⟨v, hv, rfl⟩ := Option.map_eq_some_iff.mp h
    exact rank_server hv
  | transmit =>
    obtain ⟨-, rest, ⟨hsends, -, rfl⟩ | ⟨-, hpermits, -⟩ | ⟨hsends, -, rfl⟩⟩ := transmit_cases h
    · simp [State.rank, State.afterWrite, hsends, Work.rank]
    · rw [(permits_iff c).mpr hlow] at hpermits
      cases hpermits
    · simp only [State.rank, State.afterSend, hsends, List.map_cons, List.sum_cons, Work.rank,
        Bool.toNat_true]
      omega
  | clientAck =>
    obtain ⟨-, hunacked, rfl⟩ := clientAck_cases h
    simp only [State.rank, hunacked, NotifyQueue.add_entries, List.length_append,
      List.length_singleton, Bool.toNat_true, Bool.toNat_false]
    omega
  | reply =>
    obtain ⟨-, hposted, -, rfl⟩ := reply_cases h
    simp only [State.rank, State.afterReply, hposted, NotifyQueue.add_entries, List.length_append,
      List.length_singleton, Bool.toNat_true, Bool.toNat_false]
    omega
  | serverAck =>
    obtain ⟨-, hunacked, rfl⟩ := serverAck_cases h
    simp [State.rank, hunacked]
  | clientFails => exact hev.elim
  | serverFails => exact hev.elim
  | breaks => exact hev.elim

/-! ### The client of a regular exchange -/

/-- The client has not posted all its requests. -/
def ClientPc.Early : ClientPc → Prop
  | .postRecv | .postWrite | .postSend => True
  | _ => False

/-- The reply's completion is there and no event will tell of it. -/
structure Stranded (k : Client) : Prop where
  entries_eq : k.cq.entries = [⟨0, true⟩]
  acked : k.unacked = false

/-- The client's half of the invariant of regular exchanges. -/
structure ClientLive (log : List Transfer) (k : Client) : Prop where
  known : ∀ wc ∈ k.cq.entries, wc = ⟨2, true⟩ ∨ wc = ⟨0, true⟩
  nodup : k.cq.entries.Nodup
  acked : ⟨2, true⟩ ∈ k.cq.entries → k.unacked = false ∧ .send ∈ log
  sent : k.unacked = true → .send ∈ log
  answered : .reply ∈ log → ⟨0, true⟩ ∈ k.cq.entries ∨ k.pc = .returned 0
  ready : k.pc = .postRecv ∨ k.recvPosted = true ∨ .reply ∈ log
  early : k.pc.Early → k.cq = ⟨[], true, 0⟩
  posted : ¬ k.pc.Early → [.rdmaWrite, .send] <+: log ++ k.sends.map Work.transfer
  calm : k.pc = .getEvent → k.cq.pending ≤ k.cq.entries.length ∧
    (k.cq.pending = 0 → k.cq.entries = [] ∧ k.cq.armed = true ∨ Stranded k)
  woken : k.pc = .reqNotify ∨ k.pc = .pollCq → k.cq.pending < k.cq.entries.length
  heard : k.pc = .pollCq → k.cq.Heard
  ended : ∀ ret, k.pc = .returned ret → ret = 0

/-- A completion is added while the client is past its requests. -/
theorem ClientLive.add {log' : List Transfer} {wc : Wc} {recvPosted unacked : Bool}
    {buf0 : BitVec 32} (h : ClientLive log k) (hearly : ¬ k.pc.Early) (hwc : wc ∉ k.cq.entries)
    (hknown : wc = ⟨2, true⟩ ∨ wc = ⟨0, true⟩) (hstranded : ¬ Stranded k)
    (hacked : ⟨2, true⟩ ∈ k.cq.entries ++ [wc] → unacked = false ∧ .send ∈ log')
    (hsent : unacked = true → .send ∈ log')
    (hanswered : .reply ∈ log' → .reply ∈ log ∨ wc = ⟨0, true⟩)
    (hready : recvPosted = true ∨ .reply ∈ log')
    (hposted : [.rdmaWrite, .send] <+: log' ++ k.sends.map Work.transfer) :
    ClientLive log' { k with
      buf0 := buf0, recvPosted := recvPosted, unacked := unacked, cq := k.cq.add wc } where
  known wc' hmem := by
    rcases List.mem_append.mp hmem with hmem | hmem
    · exact h.known wc' hmem
    · exact List.mem_singleton.mp hmem ▸ hknown
  nodup := by
    rw [NotifyQueue.add_entries]
    refine List.nodup_append.mpr ⟨h.nodup, List.nodup_singleton _, ?_⟩
    rintro x hx y hy rfl
    exact hwc (List.mem_singleton.mp hy ▸ hx)
  acked := hacked
  sent := hsent
  answered hreply := by
    rcases hanswered hreply with hreply | rfl
    · exact (h.answered hreply).imp_left (List.mem_append_left _)
    · exact Or.inl (List.mem_append_right _ List.mem_cons_self)
  ready := Or.inr hready
  early hpc := absurd hpc hearly
  posted _ := hposted
  calm hpc := by
    obtain ⟨hle, hsettled⟩ := h.calm hpc
    have harmed := Bool.toNat_le k.cq.armed
    simp only [NotifyQueue.add, List.length_append, List.length_singleton]
    refine ⟨by omega, fun hzero => ?_⟩
    -- a queue without pending events was armed, so that the completion raises one
    obtain ⟨-, hon⟩ := (hsettled (by omega)).resolve_right hstranded
    rw [hon, Bool.toNat_true] at hzero
    omega
  woken hpc := by
    have hwoken := h.woken hpc
    have harmed := Bool.toNat_le k.cq.armed
    simp only [NotifyQueue.add, List.length_append, List.length_singleton]
    omega
  heard hpc := (h.heard hpc).add
  ended := h.ended

/-- An early client has not sent anything. -/
theorem ClientSide.send_not_mem (h : ClientSide c false log k) (hearly : k.pc.Early) :
    .send ∉ log := by
  cases hpc : k.pc with
  | postRecv => simp [(h.fresh (Or.inl hpc)).1]
  | postWrite => simp [(h.fresh (Or.inr hpc)).1]
  | postSend =>
    intro hmem
    have hmem := List.mem_append_left (k.sends.map Work.transfer) hmem
    simp [h.wrote hpc rfl] at hmem
  | getEvent | reqNotify | pollCq | returned => rw [hpc] at hearly; exact hearly.elim

/-- The requests before the loop. -/
theorem ClientLive.post (h : ClientLive log k) (hk : ClientSide c false log k)
    (hearly : k.pc.Early) (hcall : clientCall c false k = some k') : ClientLive log k' := by
  have hcq := h.early hearly
  have hreply : .reply ∉ log := fun hmem => by
    rcases h.answered hmem with hmem | hpc
    · simp [hcq] at hmem
    · rw [hpc] at hearly
      exact hearly.elim
  cases hpc : k.pc with
  | postRecv =>
    simp only [clientCall, hpc, Bool.false_eq_true, if_false, Option.some_inj] at hcall
    subst hcall
    exact
      { known := h.known
        nodup := h.nodup
        acked := h.acked
        sent := h.sent
        answered := fun hmem => absurd hmem hreply
        ready := Or.inr (Or.inl rfl)
        early := fun _ => hcq
        posted := fun hlate => absurd trivial hlate
        calm := by simp
        woken := by simp
        heard := by simp
        ended := by simp }
  | postWrite =>
    simp only [clientCall, hpc, Option.some_inj] at hcall
    subst hcall
    exact
      { known := h.known
        nodup := h.nodup
        acked := h.acked
        sent := h.sent
        answered := fun hmem => absurd hmem hreply
        ready := by simpa [Client.post, hpc] using h.ready
        early := fun _ => hcq
        posted := fun hlate => absurd trivial hlate
        calm := by simp [Client.post]
        woken := by simp [Client.post]
        heard := by simp [Client.post]
        ended := by simp [Client.post] }
  | postSend =>
    simp only [clientCall, hpc, Option.some_inj] at hcall
    subst hcall
    have hwrote := hk.wrote hpc rfl
    exact
      { known := h.known
        nodup := h.nodup
        acked := h.acked
        sent := h.sent
        answered := fun hmem => absurd hmem hreply
        ready := by simpa [Client.post, hpc] using h.ready
        early := fun hpc => hpc.elim
        posted := fun _ => by
          simp only [Client.post, Bool.false_eq_true, if_false, List.map_append]
          rw [← List.append_assoc, hwrote]
          exact List.prefix_rfl
        calm := fun _ => by simp [Client.post, hcq]
        woken := by simp [Client.post]
        heard := by simp [Client.post]
        ended := by simp [Client.post] }
  | getEvent | reqNotify | pollCq | returned => rw [hpc] at hearly; exact hearly.elim

/-- Behind the completion of the send there is at most that of the reply. -/
theorem ClientLive.rest_eq (h : ClientLive log k) {rest : List Wc}
    (hentries : k.cq.entries = ⟨2, true⟩ :: rest) : rest = [] ∨ rest = [⟨0, true⟩] := by
  have hnodup := h.nodup
  have hknown := h.known
  rw [hentries] at hnodup hknown
  obtain ⟨hnotin, hrest⟩ := List.nodup_cons.mp hnodup
  have hzero : ∀ wc ∈ rest, wc = ⟨0, true⟩ := fun wc hwc => by
    refine (hknown wc (List.mem_cons_of_mem _ hwc)).resolve_left ?_
    rintro rfl
    exact hnotin hwc
  cases rest with
  | nil => exact Or.inl rfl
  | cons x xs =>
    obtain rfl := hzero x List.mem_cons_self
    cases xs with
    | nil => exact Or.inr rfl
    | cons y ys =>
      obtain rfl := hzero y (List.mem_cons_of_mem _ List.mem_cons_self)
      simp at hrest

/-- The client takes a completion: that of the reply ends it, that of the send sends it round. -/
theorem ClientLive.poll (h : ClientLive log k) (hpc : k.pc = .pollCq)
    (hcall : clientCall c false k = some k') : ClientLive log k' := by
  have hwoken := h.woken (Or.inr hpc)
  have hposted := h.posted (by simp [hpc, ClientPc.Early])
  simp only [clientCall, hpc] at hcall
  split at hcall
  · rename_i hnil
    simp [hnil] at hwoken
  · rename_i wc rest hentries
    have hdrop : k.cq.drop.entries = rest := by
      rw [NotifyQueue.drop_entries, hentries, List.tail_cons]
    have hsub : ∀ wc ∈ k.cq.drop.entries, wc ∈ k.cq.entries := fun _ => List.mem_of_mem_tail
    have hnodup : k.cq.drop.entries.Nodup := h.nodup.sublist (List.tail_sublist _)
    rcases h.known wc (hentries ▸ List.mem_cons_self) with rfl | rfl
    · cases hcall
      have hacked := h.acked (hentries ▸ List.mem_cons_self)
      have hlen : k.cq.pending ≤ rest.length := by
        rw [hentries, List.length_cons] at hwoken
        omega
      exact
        { known := fun wc hwc => h.known wc (hsub wc hwc)
          nodup := hnodup
          acked := fun hwc => h.acked (hsub _ hwc)
          sent := h.sent
          answered := fun hmem => by
            refine Or.inl ?_
            have hzero := (h.answered hmem).resolve_right (by simp [hpc])
            rw [hentries] at hzero
            exact hdrop.symm ▸ (List.mem_cons.mp hzero).resolve_left (by decide)
          ready := by simpa [hpc] using h.ready
          early := fun hpc => hpc.elim
          posted := fun _ => hposted
          calm := fun _ => by
            refine ⟨hdrop.symm ▸ hlen, fun hzero => ?_⟩
            rcases h.rest_eq hentries with hrest | hrest
            · have hon := (h.heard hpc).resolve_right (Nat.not_lt.mpr hzero.le)
              exact Or.inl ⟨hdrop.trans hrest, hon⟩
            · exact Or.inr ⟨hdrop.trans hrest, hacked.1⟩
          woken := by simp
          heard := by simp
          ended := by simp }
    · cases hcall
      exact
        { known := fun wc hwc => h.known wc (hsub wc hwc)
          nodup := hnodup
          acked := fun hwc => h.acked (hsub _ hwc)
          sent := h.sent
          answered := fun _ => Or.inr rfl
          ready := by simpa [hpc] using h.ready
          early := fun hpc => hpc.elim
          posted := fun _ => hposted
          calm := by simp
          woken := by simp
          heard := by simp
          ended := fun ret hret => by cases hret; rfl }

/-- The loop. -/
theorem ClientLive.loop (h : ClientLive log k) (hpc : k.pc.Loop)
    (hcall : clientCall c false k = some k') : ClientLive log k' := by
  have hlate : ¬ k.pc.Early := by cases hk : k.pc <;> simp_all [ClientPc.Loop, ClientPc.Early]
  have hposted := h.posted hlate
  cases hpc' : k.pc with
  | getEvent =>
    obtain ⟨hle, -⟩ := h.calm hpc'
    simp only [clientCall, hpc'] at hcall
    split at hcall
    · rename_i hpending
      cases hcall
      exact
        { known := h.known
          nodup := h.nodup
          acked := h.acked
          sent := h.sent
          answered := fun hmem => (h.answered hmem).imp_right (by simp [hpc'])
          ready := by simpa [hpc'] using h.ready
          early := fun hpc => hpc.elim
          posted := fun _ => hposted
          calm := by simp
          woken := fun _ => by
            simp only [NotifyQueue.start]
            omega
          heard := by simp
          ended := by simp }
    · cases hcall
  | reqNotify =>
    simp only [clientCall, hpc', Option.some_inj] at hcall
    subst hcall
    exact
      { known := h.known
        nodup := h.nodup
        acked := h.acked
        sent := h.sent
        answered := fun hmem => (h.answered hmem).imp_right (by simp [hpc'])
        ready := by simpa [hpc'] using h.ready
        early := fun hpc => hpc.elim
        posted := fun _ => hposted
        calm := by simp
        woken := fun _ => h.woken (Or.inl hpc')
        heard := fun _ => NotifyQueue.heard_arm
        ended := by simp }
  | pollCq => exact h.poll hpc' hcall
  | postRecv | postWrite | postSend | returned => rw [hpc'] at hpc; exact hpc.elim

theorem ClientLive.call (h : ClientLive log k) (hk : ClientSide c false log k)
    (hcall : clientCall c false k = some k') : ClientLive log k' := by
  cases hpc : k.pc with
  | postRecv | postWrite | postSend => exact h.post hk (hpc ▸ trivial) hcall
  | getEvent | reqNotify | pollCq => exact h.loop (hpc ▸ trivial) hcall
  | returned => simp [clientCall, hpc] at hcall

/-! ### The server of a regular exchange -/

/-- The server's half of the invariant of regular exchanges. -/
def ServerLive (log : List Transfer) (v : Server) : Prop :=
  match v.pc with
  | .getEvent => v.sendPosted = false ∧ v.unacked = false ∧
      (.send ∉ log ∧ v.recvPosted = true ∧ v.cq = ⟨[], true, 0⟩ ∨
        .send ∈ log ∧ v.cq = ⟨[⟨0, true⟩], false, 1⟩)
  | .reqNotify => v.sendPosted = false ∧ v.unacked = false ∧ .send ∈ log ∧
      v.cq = ⟨[⟨0, true⟩], false, 0⟩
  | .pollCq => v.sendPosted = false ∧ v.unacked = false ∧ .send ∈ log ∧
      v.cq = ⟨[⟨0, true⟩], true, 0⟩
  | .add => v.sendPosted = false ∧ v.unacked = false ∧ .send ∈ log ∧ v.cq = ⟨[], true, 0⟩
  | .getSendEvent => .send ∈ log ∧
      (v.sendPosted = true ∧ v.unacked = false ∧ .reply ∉ log ∧ v.cq = ⟨[], true, 0⟩ ∨
        v.sendPosted = false ∧ v.unacked = true ∧ .reply ∈ log ∧ v.cq = ⟨[], true, 0⟩ ∨
        v.sendPosted = false ∧ v.unacked = false ∧ .reply ∈ log ∧
          v.cq = ⟨[⟨0, true⟩], false, 1⟩)
  | .pollSend => v.sendPosted = false ∧ v.unacked = false ∧ .send ∈ log ∧ .reply ∈ log ∧
      v.cq = ⟨[⟨0, true⟩], false, 0⟩
  | .returned ret => ret = 0 ∧ v.sendPosted = false ∧ v.unacked = false ∧ .send ∈ log ∧ .reply ∈ log

theorem ServerLive.call (h : ServerLive log v) (hv : ServerSide c log v)
    (hcall : serverCall c false v = some v') : ServerLive log v' := by
  unfold ServerLive at h
  cases hpc : v.pc with
  | getEvent =>
    simp only [hpc] at h
    simp only [serverCall, hpc] at hcall
    split at hcall
    · rename_i hpending
      cases hcall
      obtain ⟨hposted, hunacked, ⟨-, -, hcq⟩ | ⟨hsend, hcq⟩⟩ := h
      · simp [hcq] at hpending
      · exact ⟨hposted, hunacked, hsend, by simp [hcq, NotifyQueue.start]⟩
    · cases hcall
  | reqNotify =>
    simp only [hpc] at h
    simp only [serverCall, hpc, Option.some_inj] at hcall
    subst hcall
    obtain ⟨hposted, hunacked, hsend, hcq⟩ := h
    exact ⟨hposted, hunacked, hsend, by simp [hcq, NotifyQueue.arm]⟩
  | pollCq =>
    simp only [hpc] at h
    obtain ⟨hposted, hunacked, hsend, hcq⟩ := h
    simp [serverCall, hpc, hcq] at hcall
    subst hcall
    exact ⟨hposted, hunacked, hsend, by simp [NotifyQueue.drop]⟩
  | add =>
    simp only [hpc] at h
    obtain ⟨hposted, hunacked, hsend, hcq⟩ := h
    simp [serverCall, hpc] at hcall
    subst hcall
    have hreply : .reply ∉ log := fun hreply => hv.replied hreply (hpc ▸ trivial)
    exact ⟨hsend, Or.inl ⟨rfl, hunacked, hreply, hcq⟩⟩
  | getSendEvent =>
    simp only [hpc] at h
    simp only [serverCall, hpc] at hcall
    split at hcall
    · rename_i hpending
      cases hcall
      obtain ⟨hsend, ⟨-, -, -, hcq⟩ | ⟨-, -, -, hcq⟩ | ⟨hposted, hunacked, hreply, hcq⟩⟩ := h
      · simp [hcq] at hpending
      · simp [hcq] at hpending
      · exact ⟨hposted, hunacked, hsend, hreply, by simp [hcq, NotifyQueue.start]⟩
    · cases hcall
  | pollSend =>
    simp only [hpc] at h
    obtain ⟨hposted, hunacked, hsend, hreply, hcq⟩ := h
    simp [serverCall, hpc, hcq] at hcall
    subst hcall
    exact ⟨rfl, hposted, hunacked, hsend, hreply⟩
  | returned ret => simp [serverCall, hpc] at hcall

/-! ### The transfers of a regular exchange -/

/-- What holds in every state of a regular exchange. -/
structure Live (s : State) : Prop where
  intact : s.broken = false
  client : ClientLive s.log s.client
  server : ServerLive s.log s.server

theorem live_init : Live init where
  intact := rfl
  client :=
    { known := nofun
      nodup := List.nodup_nil
      acked := nofun
      sent := nofun
      answered := nofun
      ready := Or.inl rfl
      early := fun _ => rfl
      posted := fun hlate => absurd trivial hlate
      calm := nofun
      woken := by simp [init]
      heard := nofun
      ended := nofun }
  server := ⟨rfl, rfl, Or.inl ⟨nofun, rfl, rfl⟩⟩

theorem Live.write (h : Live s) (hinv : Inv c s) {rest : List Work}
    (hsends : s.client.sends = .rdmaWrite :: rest) : Live (s.afterWrite rest) := by
  obtain ⟨hintact, hclient, hserver⟩ := h
  have horder := hinv.client.order
  rw [hsends, List.map_cons] at horder
  have hlog : s.log = [] := log_eq_of_write horder
  unfold State.afterWrite
  exact
    { intact := hintact
      client :=
        { known := hclient.known
          nodup := hclient.nodup
          acked := fun hwc => by simpa [hlog] using hclient.acked hwc
          sent := fun hunacked => by simpa [hlog] using hclient.sent hunacked
          answered := by simp [hlog]
          ready := by simpa [hlog] using hclient.ready
          early := hclient.early
          posted := fun hlate => by
            simpa [hsends, Work.transfer] using hclient.posted hlate
          calm := fun hpc => ⟨(hclient.calm hpc).1,
            fun hzero => ((hclient.calm hpc).2 hzero).imp_right fun hs => ⟨hs.1, hs.2⟩⟩
          woken := hclient.woken
          heard := hclient.heard
          ended := hclient.ended }
      server := by
        unfold ServerLive at hserver ⊢
        cases hpc : s.server.pc <;> simp_all }

theorem Live.send (h : Live s) (hinv : Inv c s) {rest : List Work}
    (hsends : s.client.sends = .send :: rest) (hrecv : s.server.recvPosted = true) :
    Live (s.afterSend rest) := by
  obtain ⟨hintact, hclient, hserver⟩ := h
  have horder := hinv.client.order
  rw [hsends, List.map_cons] at horder
  have hlog : s.log = [.rdmaWrite] := log_eq_of_send horder
  have hreply : .reply ∉ s.log := by simp [hlog]
  have hearly : ¬ s.client.pc.Early := fun hearly => by
    cases hpc : s.client.pc with
    | postRecv => simp [(hinv.client.fresh (Or.inl hpc)).1] at hlog
    | postWrite => simp [(hinv.client.fresh (Or.inr hpc)).1] at hlog
    | postSend =>
      have hwrote := hinv.client.wrote hpc hintact
      simp [hlog, hsends] at hwrote
    | getEvent | reqNotify | pollCq | returned => rw [hpc] at hearly; exact hearly.elim
  unfold State.afterSend
  exact
    { intact := hintact
      client :=
        { known := hclient.known
          nodup := hclient.nodup
          acked := fun hwc => by simpa [hlog] using (hclient.acked hwc).2
          sent := by simp
          answered := by simp [hlog]
          ready := by simpa [hlog] using hclient.ready
          early := fun hpc => absurd hpc hearly
          posted := fun hlate => by
            simpa [hsends, Work.transfer] using hclient.posted hlate
          calm := fun hpc => by
            refine ⟨(hclient.calm hpc).1, fun hzero => ((hclient.calm hpc).2 hzero).imp_right ?_⟩
            intro hs
            refine absurd (hinv.client.arrived ⟨0, true⟩ ?_ rfl rfl) hreply
            simp [hs.entries_eq]
          woken := hclient.woken
          heard := hclient.heard
          ended := hclient.ended }
      server := by
        unfold ServerLive at hserver ⊢
        cases hpc : s.server.pc <;> simp_all [NotifyQueue.add] }

theorem Live.reply (h : Live s) (hinv : Inv c s) (hposted : s.server.sendPosted = true) :
    Live s.afterReply := by
  obtain ⟨hintact, hclient, hserver⟩ := h
  obtain ⟨-, hlog⟩ := hinv.server.answer hposted
  have hreply : .reply ∉ s.log := by simp [hlog]
  have hzero : ⟨0, true⟩ ∉ s.client.cq.entries := fun hmem =>
    hreply (hinv.client.arrived _ hmem rfl rfl)
  have hearly : ¬ s.client.pc.Early := fun hearly =>
    (hintact ▸ hinv.client).send_not_mem hearly (by simp [hlog])
  refine ⟨hintact, ?_, ?_⟩
  · refine hclient.add hearly hzero (Or.inr rfl) (fun hs => ?_) (fun hwc => ?_) (fun hunacked => ?_)
      (fun _ => Or.inr rfl) (Or.inr (by simp [State.afterReply])) ?_
    · exact hzero (by simp [hs.entries_eq])
    · have hwc := (List.mem_append.mp hwc).resolve_right (by simp)
      exact ⟨(hclient.acked hwc).1, List.mem_append_left _ (hclient.acked hwc).2⟩
    · exact List.mem_append_left _ (hclient.sent hunacked)
    · simp [State.afterReply, hlog]
  · unfold ServerLive at hserver ⊢
    cases hpc : s.server.pc <;> simp_all [State.afterReply]

theorem Live.clientAck (h : Live s) (hinv : Inv c s) (hunacked : s.client.unacked = true) :
    Live { s with client := { s.client with
      unacked := false, cq := s.client.cq.add ⟨2, true⟩ } } := by
  obtain ⟨hintact, hclient, hserver⟩ := h
  have hsend := hclient.sent hunacked
  have hearly : ¬ s.client.pc.Early := fun hearly =>
    (hintact ▸ hinv.client).send_not_mem hearly hsend
  refine ⟨hintact, ?_, hserver⟩
  refine hclient.add hearly (fun hmem => ?_) (Or.inl rfl) (fun hs => ?_) (fun _ => ⟨rfl, hsend⟩)
    nofun Or.inl ?_ (hclient.posted hearly)
  · rw [(hclient.acked hmem).1] at hunacked
    cases hunacked
  · rw [hs.acked] at hunacked
    cases hunacked
  · refine hclient.ready.resolve_left fun hpc => hearly ?_
    rw [hpc]
    trivial

theorem Live.serverAck (h : Live s) (hunacked : s.server.unacked = true) :
    Live { s with server := { s.server with
      unacked := false, cq := s.server.cq.add ⟨0, true⟩ } } := by
  obtain ⟨hintact, hclient, hserver⟩ := h
  refine ⟨hintact, hclient, ?_⟩
  unfold ServerLive at hserver ⊢
  cases hpc : s.server.pc <;> simp_all [NotifyQueue.add]

/-- A regular step keeps the invariant. -/
theorem Live.step (h : Live s) (hinv : Inv c s) (hlow : c.buf.toNat < 2 ^ 32) {ev : Event}
    (hev : ev.Regular) (hstep : step c s ev = some t) : Live t := by
  cases ev with
  | client =>
    obtain ⟨k, hk, rfl⟩ := Option.map_eq_some_iff.mp hstep
    rw [h.intact] at hk
    exact ⟨h.intact, h.client.call (h.intact ▸ hinv.client) hk, h.server⟩
  | server =>
    obtain ⟨v, hv, rfl⟩ := Option.map_eq_some_iff.mp hstep
    rw [h.intact] at hv
    exact ⟨h.intact, h.client, h.server.call hinv.server hv⟩
  | transmit =>
    obtain ⟨-, rest, ⟨hsends, -, rfl⟩ | ⟨-, hpermits, -⟩ | ⟨hsends, hrecv, rfl⟩⟩ :=
      transmit_cases hstep
    · exact h.write hinv hsends
    · rw [(permits_iff c).mpr hlow] at hpermits
      cases hpermits
    · exact h.send hinv hsends hrecv
  | clientAck =>
    obtain ⟨-, hunacked, rfl⟩ := clientAck_cases hstep
    exact h.clientAck hinv hunacked
  | reply =>
    obtain ⟨-, hposted, -, rfl⟩ := reply_cases hstep
    exact h.reply hinv hposted
  | serverAck =>
    obtain ⟨-, hunacked, rfl⟩ := serverAck_cases hstep
    exact h.serverAck hunacked
  | clientFails => exact hev.elim
  | serverFails => exact hev.elim
  | breaks => exact hev.elim

/-! ### The end -/

/-- Nothing more can happen. -/
def Final (c : Setup) (s : State) : Prop := ∀ ev : Event, ev.Regular → step c s ev = none

section End

variable (hlive : Live s) (hinv : Inv c s) (hfinal : Final c s)

include hlive hfinal

/-- The client waits for an event that is not there, or has returned. -/
theorem final_client : s.client.pc = .getEvent ∧ s.client.cq.pending = 0 ∨
    s.client.pc = .returned 0 := by
  have hnone : clientCall c false s.client = none := by
    have hstep := hfinal .client trivial
    rwa [step, Option.map_eq_none_iff, hlive.intact] at hstep
  cases hpc : s.client.pc with
  | getEvent =>
    simp only [clientCall, hpc] at hnone
    split at hnone
    · cases hnone
    · rename_i hpending
      exact Or.inl ⟨rfl, Nat.eq_zero_of_not_pos hpending⟩
  | returned ret => exact Or.inr (hlive.client.ended ret hpc ▸ rfl)
  | pollCq =>
    simp only [clientCall, hpc] at hnone
    split at hnone
    · cases hnone
    · split at hnone
      · cases hnone
      · split at hnone <;> cases hnone
  | postRecv | postWrite | postSend | reqNotify => simp [clientCall, hpc] at hnone

include hinv

/-- Every request has been carried out. -/
theorem final_sends : s.client.sends = [] := by
  have hnone := hfinal .transmit trivial
  rw [step, transmit, hlive.intact, if_neg Bool.false_ne_true] at hnone
  split at hnone
  · assumption
  · split at hnone <;> cases hnone
  · rename_i rest hsends
    -- the server has its receive posted until the send comes
    have horder := hinv.client.order
    rw [hsends, List.map_cons] at horder
    have hlog : s.log = [.rdmaWrite] := log_eq_of_send horder
    have hrecv : s.server.recvPosted = true := by
      have hserver := hlive.server
      unfold ServerLive at hserver
      cases hpc : s.server.pc <;> simp_all
    rw [if_pos hrecv] at hnone
    cases hnone

theorem final_send_mem : .send ∈ s.log := by
  have hlate : ¬ s.client.pc.Early := by
    rcases final_client hlive hfinal with ⟨hpc, -⟩ | hpc
    · simp [hpc, ClientPc.Early]
    · simp [hpc, ClientPc.Early]
  have hposted := hlive.client.posted hlate
  rw [final_sends hlive hinv hfinal, List.map_nil, List.append_nil] at hposted
  exact hposted.subset (by simp)

/-- The server has returned, and the reply has been sent. -/
theorem final_server : s.server.pc = .returned 0 ∧ .reply ∈ s.log := by
  have hsend := final_send_mem hlive hinv hfinal
  have hserver := hlive.server
  have hnone : serverCall c false s.server = none := by
    have hstep := hfinal .server trivial
    rwa [step, Option.map_eq_none_iff, hlive.intact] at hstep
  unfold ServerLive at hserver
  cases hpc : s.server.pc with
  | getEvent =>
    simp only [hpc] at hserver
    obtain ⟨-, -, ⟨hnot, -⟩ | ⟨-, hcq⟩⟩ := hserver
    · exact absurd hsend hnot
    · simp [serverCall, hpc, hcq] at hnone
  | getSendEvent =>
    simp only [hpc] at hserver
    obtain ⟨-, ⟨hposted, -, hreply, -⟩ | ⟨-, hunacked, -, -⟩ | ⟨-, -, -, hcq⟩⟩ := hserver
    · have hrecv : s.client.recvPosted = true := by
        rcases hlive.client.ready with hpc | hrecv | hmem
        · rcases final_client hlive hfinal with ⟨hpc', -⟩ | hpc' <;> simp [hpc] at hpc'
        · exact hrecv
        · exact absurd hmem hreply
      have hreplies := hfinal .reply trivial
      simp [step, reply, hlive.intact, hposted, hrecv] at hreplies
    · have hacks := hfinal .serverAck trivial
      simp [step, serverAck, hlive.intact, hunacked] at hacks
    · simp [serverCall, hpc, hcq] at hnone
  | returned ret =>
    simp only [hpc] at hserver
    exact ⟨hserver.1 ▸ rfl, hserver.2.2.2.2⟩
  | pollCq =>
    simp only [hpc] at hserver
    simp [serverCall, hpc, hserver.2.2.2] at hnone
  | pollSend =>
    simp only [hpc] at hserver
    simp [serverCall, hpc, hserver.2.2.2.2] at hnone
  | reqNotify | add => simp [serverCall, hpc] at hnone

end End

/-- A regular exchange ends after at most 32 steps. It has then ended for the server, and the client
has printed the sum, or waits for good with the sum in its buffer and the completion of the reply in
its queue. -/
theorem regular_exchange_ends (c : Setup) (hlow : c.buf.toNat < 2 ^ 32) {events : List Event}
    (hregular : ∀ ev ∈ events, ev.Regular) (h : run (step c) init events = some s) :
    events.length ≤ 32 ∧
      (Final c s → s.server.pc = .returned 0 ∧
        (s.client.pc = .returned 0 ∧ s.client.printed = c.output ∨
          s.client.pc = .getEvent ∧ s.client.cq.pending = 0 ∧
            s.client.cq.entries = [⟨0, true⟩] ∧ ntohl c.e s.client.buf0 = c.a + c.b)) := by
  have keep : ∀ s ev t, Live s ∧ Inv c s → ev.Regular → step c s ev = some t →
      Live t ∧ Inv c t := by
    rintro s ev t ⟨hlive, hinv⟩ hev hstep
    exact ⟨hlive.step hinv hlow hev hstep, hinv.step hstep⟩
  obtain ⟨hlive, hinv⟩ :=
    run_invariant keep ⟨live_init, inv_init c⟩ (eachStep_of_mem hregular) h
  have hlen := run_length_add_le (fun _ _ _ hev hstep => rank_step hlow hev hstep) hregular h
  have hinit : init.rank = 32 := rfl
  refine ⟨by omega, fun hfinal => ?_⟩
  obtain ⟨hserver, hreply⟩ := final_server hlive hinv hfinal
  refine ⟨hserver, ?_⟩
  rcases final_client hlive hfinal with ⟨hpc, hpending⟩ | hpc
  · right
    have hzero := (hlive.client.answered hreply).resolve_right (by simp [hpc])
    -- a queue without events is empty or strands the client, and this one is not empty
    rcases (hlive.client.calm hpc).2 hpending with ⟨hnil, -⟩ | hstranded
    · simp [hnil] at hzero
    · refine ⟨hpc, hpending, hstranded.entries_eq, ?_⟩
      rw [hinv.client.sum hreply, ntohl_htonl]
  · left
    have hprinted := hinv.client.printed
    rw [hpc] at hprinted
    exact ⟨hpc, (hprinted.2 rfl).1⟩

/-- The completion of the reply comes before the client has asked for the next event. -/
def strandingEvents : List Event :=
  [.client, .client, .client, .transmit, .transmit, .server, .server, .server, .server, .clientAck,
    .client, .reply, .client, .client, .serverAck, .server, .server]

theorem strandingEvents_strand :
    ∃ s, run (step smallSetup) init strandingEvents = some s ∧ Final smallSetup s ∧
      s.client.pc = .getEvent ∧ s.server.pc = .returned 0 := by
  have hregular : ∀ ev ∈ strandingEvents, ev.Regular := by
    simp [strandingEvents, Event.Regular]
  have hfinal : ∀ s, run (step smallSetup) init strandingEvents = some s → Final smallSetup s := by
    intro s hs ev hev
    cases hs
    cases ev <;> first | rfl | exact hev.elim
  refine ⟨_, rfl, hfinal _ rfl, rfl, ?_⟩
  exact ((regular_exchange_ends smallSetup (by decide) hregular rfl).2 (hfinal _ rfl)).1

end SystemDev.APlusB
