import SystemDev.APlusB.Protocol

/-!
# The sum is right

Whatever the order of steps, which calls fail and when the connection breaks, the client prints no
other sum than that of its numbers, and it prints it before it returns 0. The first number is in
place when the second one arrives, since the two requests are carried out in order, and the reply
comes into `buf[0]` of the client only after the number there has been written.

The address of the server's buffer goes through `htonl` and loses its upper half. The write is
refused unless that half is zero, so that the client returns 0 for low addresses only.
-/

namespace SystemDev.APlusB

open Library

variable {c : Setup} {s t : State}

theorem toNat_remoteAddr (c : Setup) : c.remoteAddr.toNat = c.buf.toNat % 2 ^ 32 := by
  have hlow : (c.remoteAddr) = (c.buf.setWidth 32).setWidth 64 := by
    rw [Setup.remoteAddr, Setup.repPdata]
    congr 1
    rw [BitVec.setWidth_setWidth_of_le _ (by decide), BitVec.setWidth_eq, ntohl_htonl]
  rw [hlow]
  simp
  omega

/-- The write goes to the start of the buffer, or nowhere. -/
theorem permits_iff (c : Setup) :
    c.permits c.remoteAddr c.remoteKey = true ↔ c.buf.toNat < 2 ^ 32 := by
  have hkey : c.remoteKey = c.rkey := ntohl_htonl ..
  rw [Setup.permits, decide_eq_true_iff, toNat_remoteAddr]
  constructor
  · rintro ⟨-, hle, -⟩
    exact Nat.lt_of_le_of_lt hle (Nat.mod_lt _ (by decide))
  · intro hlt
    rw [Nat.mod_eq_of_lt hlt]
    exact ⟨hkey, Nat.le_refl _, by omega⟩

/-! ### The invariant -/

/-- The request as a transfer. -/
def Work.transfer : Work → Transfer
  | rdmaWrite => .rdmaWrite
  | send => .send

/-- The transfers of a complete exchange. -/
def transfers : List Transfer := [.rdmaWrite, .send, .reply]

/-- What the client prints. -/
def Setup.output (c : Setup) : List ℤ := [c.a.toInt, c.b.toInt, (c.a + c.b).toInt]

/-- What has been printed when the client is at `pc`. -/
def Printed (c : Setup) (log : List Transfer) (printed : List ℤ) : ClientPc → Prop
  | .postRecv | .postWrite => printed = []
  | .postSend | .getEvent | .reqNotify | .pollCq => printed = [c.a.toInt, c.b.toInt]
  | .returned ret => printed <+: c.output ∧ (ret = 0 → printed = c.output ∧ .reply ∈ log)

/-- The client's half of the invariant. -/
structure ClientSide (c : Setup) (broken : Bool) (log : List Transfer) (k : Client) : Prop where
  order : log ++ k.sends.map Work.transfer <+: transfers
  fresh : k.pc = .postRecv ∨ k.pc = .postWrite → log = [] ∧ k.sends = []
  wrote : k.pc = .postSend → broken = false → log ++ k.sends.map Work.transfer = [.rdmaWrite]
  stored : k.pc = .postSend ∨ log ≠ [] ∨ k.sends ≠ [] → .reply ∉ log →
    k.buf0 = htonl c.e c.a ∧ k.buf1 = htonl c.e c.b
  sum : .reply ∈ log → k.buf0 = htonl c.e (c.a + c.b)
  arrived : ∀ wc ∈ k.cq.entries, wc.success = true → wc.wrId = 0 → .reply ∈ log
  printed : Printed c log k.printed k.pc

/-- The server has not added the numbers. -/
def ServerPc.Before : ServerPc → Prop
  | .getEvent | .reqNotify | .pollCq | .add => True
  | _ => False

/-- The server's half of the invariant. -/
structure ServerSide (c : Setup) (log : List Transfer) (v : Server) : Prop where
  placed : .rdmaWrite ∈ log → v.pc.Before → v.buf0 = htonl c.e c.a
  received : .send ∈ log → v.buf1 = htonl c.e c.b
  heard : v.pc.Before → ∀ wc ∈ v.cq.entries, wc.success = true → .send ∈ log
  adding : v.pc = .add → .send ∈ log
  answer : v.sendPosted = true → v.buf0 = htonl c.e (c.a + c.b) ∧ log = [.rdmaWrite, .send]
  posted : v.sendPosted = true ∨ v.unacked = true → ¬ v.pc.Before
  replied : .reply ∈ log → ¬ v.pc.Before

/-- What holds in every state. -/
structure Inv (c : Setup) (s : State) : Prop where
  client : ClientSide c s.broken s.log s.client
  server : ServerSide c s.log s.server
  low : .rdmaWrite ∈ s.log → c.buf.toNat < 2 ^ 32

theorem inv_init (c : Setup) : Inv c init where
  client :=
    { order := List.nil_prefix
      fresh := fun _ => ⟨rfl, rfl⟩
      wrote := nofun
      stored := by simp [init]
      sum := nofun
      arrived := nofun
      printed := rfl }
  server :=
    { placed := nofun
      received := nofun
      heard := nofun
      adding := nofun
      answer := nofun
      posted := by simp [init]
      replied := nofun }
  low := nofun

@[simp] theorem entries_addAll (q : NotifyQueue Wc) (l : List Wc) :
    (addAll q l).entries = q.entries ++ l := by
  induction l generalizing q with
  | nil => simp [addAll]
  | cons wc l ih =>
    rw [addAll, List.foldl_cons, ← addAll, ih]
    simp

/-- A completion that was not added with an error was there before. -/
theorem mem_of_add_failed {q : NotifyQueue Wc} {wc : Wc} {i : ℕ}
    (h : wc ∈ (q.add ⟨i, false⟩).entries) (hsuccess : wc.success = true) : wc ∈ q.entries := by
  rcases List.mem_append.mp h with h | h
  · exact h
  · rw [List.mem_singleton.mp h] at hsuccess
    cases hsuccess

/-! ### The client -/

/-- The client waits for a completion. -/
def ClientPc.Loop : ClientPc → Prop
  | .getEvent | .reqNotify | .pollCq => True
  | _ => False

section Client

variable {broken : Bool} {log : List Transfer} {k k' : Client} {pc' : ClientPc}
  {q : NotifyQueue Wc}

theorem Printed.of_loop (hpc : k.pc.Loop) (h : Printed c log k.printed k.pc) :
    k.printed = [c.a.toInt, c.b.toInt] := by
  cases hpc' : k.pc <;> simp_all [Printed, ClientPc.Loop]

/-- Going round in the loop. -/
theorem ClientSide.wait (h : ClientSide c broken log k) (hpc : k.pc.Loop) (hpc' : pc'.Loop)
    (hq : ∀ wc ∈ q.entries, wc ∈ k.cq.entries) :
    ClientSide c broken log { k with pc := pc', cq := q } where
  order := h.order
  fresh := by rintro (rfl | rfl) <;> exact hpc'.elim
  wrote := by
    rintro rfl
    exact hpc'.elim
  stored := by
    rintro (rfl | hposted)
    · exact hpc'.elim
    · exact h.stored (Or.inr hposted)
  sum := h.sum
  arrived wc hwc := h.arrived wc (hq wc hwc)
  printed := by
    have hprinted := h.printed.of_loop hpc
    cases pc' <;> first | exact hprinted | exact hpc'.elim

/-- Returning. -/
theorem ClientSide.returns (h : ClientSide c broken log k) {ret : ℤ} {printed : List ℤ}
    (hq : ∀ wc ∈ q.entries, wc ∈ k.cq.entries) (hprinted : Printed c log printed (.returned ret)) :
    ClientSide c broken log { k with pc := .returned ret, cq := q, printed := printed } where
  order := h.order
  fresh := by simp
  wrote := by simp
  stored := by
    rintro (hpc | hposted)
    · cases hpc
    · exact h.stored (Or.inr hposted)
  sum := h.sum
  arrived wc hwc := h.arrived wc (hq wc hwc)
  printed := hprinted

/-- A failure, whatever has been printed. -/
theorem printed_fail (log : List Transfer) {printed : List ℤ} (h : printed <+: c.output) :
    Printed c log printed (.returned 1) :=
  ⟨h, fun h => absurd h (by decide)⟩

theorem Printed.le_output (h : Printed c log k.printed k.pc) : k.printed <+: c.output := by
  cases hpc : k.pc with
  | returned ret =>
    rw [hpc] at h
    exact h.1
  | postRecv | postWrite =>
    rw [hpc] at h
    exact h ▸ List.nil_prefix
  | postSend | getEvent | reqNotify | pollCq =>
    rw [hpc] at h
    exact h ▸ ⟨[_], rfl⟩

/-- Posting the receive. -/
theorem ClientSide.postRecv (h : ClientSide c broken log k) (hpc : k.pc = .postRecv)
    {recvPosted : Bool} (hq : ∀ wc ∈ q.entries, wc.success = true → wc ∈ k.cq.entries) :
    ClientSide c broken log { k with pc := .postWrite, recvPosted := recvPosted, cq := q } where
  order := h.order
  fresh := fun _ => h.fresh (Or.inl hpc)
  wrote := by simp
  stored := by
    obtain ⟨hlog, hsends⟩ := h.fresh (Or.inl hpc)
    simp [hlog, hsends]
  sum := h.sum
  arrived wc hwc hsuccess := h.arrived wc (hq wc hwc hsuccess) hsuccess
  printed := by
    have hprinted := h.printed
    rw [hpc] at hprinted
    exact hprinted

/-- Posting the write. -/
theorem ClientSide.postWrite (h : ClientSide c broken log k) (hpc : k.pc = .postWrite) :
    ClientSide c broken log ({ k with
      pc := .postSend, printed := k.printed ++ [c.a.toInt, c.b.toInt]
      buf0 := htonl c.e c.a, buf1 := htonl c.e c.b }.post broken .rdmaWrite) := by
  obtain ⟨rfl, hsends⟩ := h.fresh (Or.inr hpc)
  have hprinted : k.printed ++ [c.a.toInt, c.b.toInt] = [c.a.toInt, c.b.toInt] := by
    have hprinted := h.printed
    rw [hpc] at hprinted
    rw [hprinted, List.nil_append]
  cases broken with
  | true =>
    exact
      { order := h.order
        fresh := by simp [Client.post]
        wrote := by simp
        stored := fun _ _ => ⟨rfl, rfl⟩
        sum := nofun
        arrived := fun wc hwc hsuccess => h.arrived wc (mem_of_add_failed hwc hsuccess) hsuccess
        printed := hprinted }
  | false =>
    exact
      { order := by simp [Client.post, hsends, Work.transfer, transfers]
        fresh := by simp [Client.post]
        wrote := by simp [Client.post, hsends, Work.transfer]
        stored := fun _ _ => ⟨rfl, rfl⟩
        sum := nofun
        arrived := h.arrived
        printed := hprinted }

/-- Posting the send. -/
theorem ClientSide.postSend (h : ClientSide c broken log k) (hpc : k.pc = .postSend) :
    ClientSide c broken log ({ k with pc := .getEvent }.post broken .send) := by
  have hstored := h.stored (Or.inl hpc)
  have hprinted := h.printed
  rw [hpc] at hprinted
  cases broken with
  | true =>
    exact
      { order := h.order
        fresh := by simp [Client.post]
        wrote := by simp
        stored := fun _ => hstored
        sum := h.sum
        arrived := fun wc hwc hsuccess => h.arrived wc (mem_of_add_failed hwc hsuccess) hsuccess
        printed := hprinted }
  | false =>
    have hwrote := h.wrote hpc rfl
    exact
      { order := by
          simp only [Client.post, Bool.false_eq_true, if_false, List.map_append]
          rw [← List.append_assoc, hwrote]
          exact ⟨[.reply], rfl⟩
        fresh := by simp [Client.post]
        wrote := by simp [Client.post]
        stored := fun _ => hstored
        sum := h.sum
        arrived := h.arrived
        printed := hprinted }

/-- Taking a completion. -/
theorem ClientSide.pollCq (h : ClientSide c broken log k) (hpc : k.pc = .pollCq)
    (hcall : clientCall c broken k = some k') : ClientSide c broken log k' := by
  have hloop : k.pc.Loop := hpc ▸ trivial
  have hfail := printed_fail log h.printed.le_output
  simp only [clientCall, hpc] at hcall
  split at hcall
  · cases hcall
    exact h.returns (fun _ => id) hfail
  · rename_i wc rest hentries
    have hdrop : ∀ wc ∈ k.cq.drop.entries, wc ∈ k.cq.entries := fun _ => List.mem_of_mem_tail
    split at hcall
    · cases hcall
      exact h.returns hdrop hfail
    · rename_i hsuccess
      split at hcall
      · rename_i hwrId
        cases hcall
        -- the reply has come, and `buf[0]` is the sum
        have hreply := h.arrived wc (hentries ▸ List.mem_cons_self) (by simpa using hsuccess) hwrId
        refine h.returns hdrop ⟨?_, fun _ => ⟨?_, hreply⟩⟩
        · rw [h.printed.of_loop hloop, h.sum hreply, ntohl_htonl]
          exact List.prefix_rfl
        · rw [h.printed.of_loop hloop, h.sum hreply, ntohl_htonl]
          rfl
      · cases hcall
        exact h.wait hloop trivial hdrop

theorem ClientSide.call (h : ClientSide c broken log k) (hcall : clientCall c broken k = some k') :
    ClientSide c broken log k' := by
  cases hpc : k.pc with
  | postRecv =>
    simp only [clientCall, hpc] at hcall
    split at hcall
    · cases hcall
      exact h.postRecv hpc fun wc hwc => mem_of_add_failed hwc
    · cases hcall
      exact h.postRecv hpc fun wc hwc _ => hwc
  | postWrite =>
    simp only [clientCall, hpc, Option.some_inj] at hcall
    subst hcall
    exact h.postWrite hpc
  | postSend =>
    simp only [clientCall, hpc, Option.some_inj] at hcall
    subst hcall
    exact h.postSend hpc
  | getEvent =>
    simp only [clientCall, hpc] at hcall
    split at hcall
    · cases hcall
      exact h.wait (hpc ▸ trivial) trivial fun wc => id
    · cases hcall
  | reqNotify =>
    simp only [clientCall, hpc, Option.some_inj] at hcall
    subst hcall
    exact h.wait (hpc ▸ trivial) trivial fun wc => id
  | pollCq => exact h.pollCq hpc hcall
  | returned ret => simp [clientCall, hpc] at hcall

theorem ClientSide.fail (h : ClientSide c broken log k) (hcall : clientFail c k = some k') :
    ClientSide c broken log k' := by
  have hfail := printed_fail log h.printed.le_output
  cases hpc : k.pc with
  | postWrite =>
    simp only [clientFail, hpc, Option.some_inj] at hcall
    subst hcall
    obtain ⟨rfl, hsends⟩ := h.fresh (Or.inr hpc)
    have hprinted := h.printed
    rw [hpc] at hprinted
    exact
      { order := h.order
        fresh := by simp
        wrote := by simp
        stored := fun _ _ => ⟨rfl, rfl⟩
        sum := nofun
        arrived := h.arrived
        printed := printed_fail _ (by rw [hprinted]; exact ⟨[_], rfl⟩) }
  | returned ret => simp [clientFail, hpc] at hcall
  | postRecv | postSend | getEvent | reqNotify | pollCq =>
    simp only [clientFail, hpc, Option.some_inj] at hcall
    subst hcall
    exact h.returns (fun _ => id) hfail

end Client

/-! ### The server -/

section Server

variable {broken : Bool} {log : List Transfer} {v v' : Server} {pc' : ServerPc}
  {q : NotifyQueue Wc}

/-- A step before the numbers are added. -/
theorem ServerSide.wait (h : ServerSide c log v) (hpc : v.pc.Before)
    (hq : ∀ wc ∈ q.entries, wc ∈ v.cq.entries) (hadd : pc' = .add → .send ∈ log) :
    ServerSide c log { v with pc := pc', cq := q } where
  placed hwrite _ := h.placed hwrite hpc
  received := h.received
  heard _ wc hwc := h.heard hpc wc (hq wc hwc)
  adding := hadd
  answer := h.answer
  posted hposted := absurd hpc (h.posted hposted)
  replied hreply := absurd hpc (h.replied hreply)

/-- A step behind it, or out of it. -/
theorem ServerSide.leave (h : ServerSide c log v) (hpc' : ¬ pc'.Before) :
    ServerSide c log { v with pc := pc', cq := q } where
  placed _ hbefore := absurd hbefore hpc'
  received := h.received
  heard hbefore := absurd hbefore hpc'
  adding := by
    rintro rfl
    exact absurd trivial hpc'
  answer := h.answer
  posted _ := hpc'
  replied _ := hpc'

/-- The transfers when the server adds. -/
theorem ServerSide.log_eq (h : ServerSide c log v) (hlog : log <+: transfers) (hpc : v.pc = .add) :
    log = [.rdmaWrite, .send] := by
  have hsend := h.adding hpc
  have hreply : .reply ∉ log := fun hreply => h.replied hreply (hpc ▸ trivial)
  simp only [transfers, List.prefix_cons_iff, List.prefix_nil] at hlog
  grind

/-- The server has both numbers when it adds. -/
theorem ServerSide.sum_eq (h : ServerSide c log v) (hlog : log <+: transfers)
    (hpc : v.pc = .add) : ntohl c.e v.buf0 + ntohl c.e v.buf1 = c.a + c.b := by
  have hlog := h.log_eq hlog hpc
  rw [h.placed (by simp [hlog]) (hpc ▸ trivial), h.received (by simp [hlog]), ntohl_htonl,
    ntohl_htonl]

/-- Adding, with or without a reply. -/
theorem ServerSide.add (h : ServerSide c log v) (hlog : log <+: transfers) (hpc : v.pc = .add)
    (hpc' : ¬ pc'.Before) {sendPosted : Bool} :
    ServerSide c log { v with
      pc := pc', buf0 := htonl c.e (ntohl c.e v.buf0 + ntohl c.e v.buf1)
      sendPosted := sendPosted, cq := q } where
  placed _ hbefore := absurd hbefore hpc'
  received := h.received
  heard hbefore := absurd hbefore hpc'
  adding := by
    rintro rfl
    exact absurd trivial hpc'
  answer _ := ⟨congrArg (htonl c.e) (h.sum_eq hlog hpc), h.log_eq hlog hpc⟩
  posted _ := hpc'
  replied _ := hpc'

theorem ServerSide.call (h : ServerSide c log v) (hlog : log <+: transfers)
    (hcall : serverCall c broken v = some v') : ServerSide c log v' := by
  have hdrop : ∀ wc ∈ v.cq.drop.entries, wc ∈ v.cq.entries := fun _ => List.mem_of_mem_tail
  cases hpc : v.pc with
  | getEvent =>
    simp only [serverCall, hpc] at hcall
    split at hcall
    · cases hcall
      exact h.wait (hpc ▸ trivial) (fun wc => id) nofun
    · cases hcall
  | reqNotify =>
    simp only [serverCall, hpc, Option.some_inj] at hcall
    subst hcall
    exact h.wait (hpc ▸ trivial) (fun wc => id) nofun
  | pollCq =>
    simp only [serverCall, hpc] at hcall
    split at hcall
    · cases hcall
      exact h.leave id
    · rename_i wc rest hentries
      split at hcall
      · cases hcall
        exact h.leave id
      · rename_i hsuccess
        cases hcall
        refine h.wait (hpc ▸ trivial) hdrop fun _ => ?_
        exact h.heard (hpc ▸ trivial) wc (hentries ▸ List.mem_cons_self) (by simpa using hsuccess)
  | add =>
    simp only [serverCall, hpc] at hcall
    split at hcall
    · cases hcall
      exact h.add hlog hpc id
    · cases hcall
      exact h.add hlog hpc id
  | getSendEvent =>
    simp only [serverCall, hpc] at hcall
    split at hcall
    · cases hcall
      exact h.leave id
    · cases hcall
  | pollSend =>
    simp only [serverCall, hpc] at hcall
    split at hcall
    · cases hcall
      exact h.leave id
    · split at hcall
      · cases hcall
        exact h.leave id
      · cases hcall
        exact h.leave id
  | returned ret => simp [serverCall, hpc] at hcall

theorem ServerSide.fail (h : ServerSide c log v) (hlog : log <+: transfers)
    (hcall : serverFail c v = some v') : ServerSide c log v' := by
  cases hpc : v.pc with
  | add =>
    simp only [serverFail, hpc, Option.some_inj] at hcall
    subst hcall
    exact h.add hlog hpc id
  | returned ret => simp [serverFail, hpc] at hcall
  | getEvent | reqNotify | pollCq | getSendEvent | pollSend =>
    simp only [serverFail, hpc, Option.some_inj] at hcall
    subst hcall
    exact h.leave id

end Server

/-! ### The adapters -/

theorem Client.flushed_failed (k : Client) : ∀ wc ∈ k.flushed, wc.success = false := by
  intro wc hwc
  simp only [Client.flushed, List.mem_append, List.mem_map] at hwc
  rcases hwc with (⟨w, -, rfl⟩ | hwc) | hwc
  · rfl
  · split at hwc
    · rw [List.mem_singleton.mp hwc]
    · cases hwc
  · split at hwc
    · rw [List.mem_singleton.mp hwc]
    · cases hwc

theorem Server.flushed_failed (v : Server) : ∀ wc ∈ v.flushed, wc.success = false := by
  intro wc hwc
  rcases List.mem_append.mp hwc with hwc | hwc
  · split at hwc
    · rw [List.mem_singleton.mp hwc]
    · cases hwc
  · split at hwc
    · rw [List.mem_singleton.mp hwc]
    · cases hwc

/-- A completion that was not flushed was there before. -/
theorem mem_of_flushed {q : NotifyQueue Wc} {l : List Wc} (hl : ∀ wc ∈ l, wc.success = false)
    {wc : Wc} (h : wc ∈ (addAll q l).entries) (hsuccess : wc.success = true) :
    wc ∈ q.entries := by
  rw [entries_addAll] at h
  rcases List.mem_append.mp h with h | h
  · exact h
  · rw [hl wc h] at hsuccess
    cases hsuccess

theorem Inv.breakDown (h : Inv c s) : Inv c s.breakDown where
  client :=
    { order := by
        have hlog := (List.prefix_append _ _).trans h.client.order
        simpa [State.breakDown] using hlog
      fresh := fun hpc => ⟨(h.client.fresh hpc).1, rfl⟩
      wrote := nofun
      stored := by
        rintro (hpc | hlog | hsends)
        · exact h.client.stored (Or.inl hpc)
        · exact h.client.stored (Or.inr (Or.inl hlog))
        · exact absurd rfl hsends
      sum := h.client.sum
      arrived := fun wc hwc hsuccess =>
        h.client.arrived wc (mem_of_flushed s.client.flushed_failed hwc hsuccess) hsuccess
      printed := h.client.printed }
  server :=
    { placed := h.server.placed
      received := h.server.received
      heard := fun hpc wc hwc hsuccess =>
        h.server.heard hpc wc (mem_of_flushed s.server.flushed_failed hwc hsuccess) hsuccess
      adding := h.server.adding
      answer := nofun
      posted := by simp [State.breakDown]
      replied := h.server.replied }
  low := h.low

theorem Inv.log_le (h : Inv c s) : s.log <+: transfers :=
  (List.prefix_append _ _).trans h.client.order

theorem log_eq_of_write {log l : List Transfer} (h : log ++ .rdmaWrite :: l <+: transfers) :
    log = [] := by
  cases log with
  | nil => rfl
  | cons x log =>
    have hlog := (List.cons_prefix_cons.mp h).2
    have hmem : Transfer.rdmaWrite ∈ [Transfer.send, .reply] := hlog.subset (by simp)
    simp at hmem

theorem log_eq_of_send {log l : List Transfer} (h : log ++ .send :: l <+: transfers) :
    log = [.rdmaWrite] := by
  cases log with
  | nil =>
    have hhead := (List.cons_prefix_cons.mp h).1
    cases hhead
  | cons x log =>
    obtain ⟨rfl, hlog⟩ := List.cons_prefix_cons.mp h
    cases log with
    | nil => rfl
    | cons x log =>
      have hlog := (List.cons_prefix_cons.mp hlog).2
      have hmem : Transfer.send ∈ [Transfer.reply] := hlog.subset (by simp)
      simp at hmem

/-- More transfers do not change what has been printed. -/
theorem Printed.mono {log log' : List Transfer} {printed : List ℤ} {pc : ClientPc}
    (h : Printed c log printed pc) (hlog : log ⊆ log') : Printed c log' printed pc := by
  cases pc with
  | returned ret => exact ⟨h.1, fun hret => ⟨(h.2 hret).1, hlog (h.2 hret).2⟩⟩
  | postRecv | postWrite | postSend | getEvent | reqNotify | pollCq => exact h

/-- The first number is written into the server's buffer. -/
theorem Inv.write (h : Inv c s) {rest : List Work} (hsends : s.client.sends = .rdmaWrite :: rest)
    (hlow : c.buf.toNat < 2 ^ 32) : Inv c (s.afterWrite rest) := by
  obtain ⟨hclient, hserver, -⟩ := h
  have horder := hclient.order
  rw [hsends, List.map_cons] at horder
  have hlog : s.log = [] := log_eq_of_write horder
  have hstored := hclient.stored (Or.inr (Or.inr (by simp [hsends]))) (by simp [hlog])
  have hfresh : ¬ (s.client.pc = .postRecv ∨ s.client.pc = .postWrite) := fun hpc => by
    simp [(hclient.fresh hpc).2] at hsends
  unfold State.afterWrite
  exact
    { client :=
        { order := by simpa [Work.transfer] using horder
          fresh := fun hpc => absurd hpc hfresh
          wrote := by
            have hwrote := hclient.wrote
            simpa [hsends, Work.transfer] using hwrote
          stored := fun _ _ => hstored
          sum := by simp [hlog]
          arrived := fun wc hwc hsuccess hwrId =>
            List.mem_append_left _ (hclient.arrived wc hwc hsuccess hwrId)
          printed := hclient.printed.mono (List.subset_append_left _ _) }
      server :=
        { placed := fun _ _ => hstored.1
          received := by simp [hlog]
          heard := fun hpc wc hwc hsuccess =>
            List.mem_append_left _ (hserver.heard hpc wc hwc hsuccess)
          adding := fun hpc => List.mem_append_left _ (hserver.adding hpc)
          answer := fun hposted => by simp [(hserver.answer hposted).2] at hlog
          posted := hserver.posted
          replied := by simp [hlog] }
      low := fun _ => hlow }

/-- The second number arrives. -/
theorem Inv.send (h : Inv c s) {rest : List Work} (hsends : s.client.sends = .send :: rest) :
    Inv c (s.afterSend rest) := by
  obtain ⟨hclient, hserver, hlow⟩ := h
  have horder := hclient.order
  rw [hsends, List.map_cons] at horder
  have hlog : s.log = [.rdmaWrite] := log_eq_of_send horder
  have hstored := hclient.stored (Or.inr (Or.inr (by simp [hsends]))) (by simp [hlog])
  have hfresh : ¬ (s.client.pc = .postRecv ∨ s.client.pc = .postWrite) := fun hpc => by
    simp [(hclient.fresh hpc).2] at hsends
  unfold State.afterSend
  exact
    { client :=
        { order := by simpa [Work.transfer] using horder
          fresh := fun hpc => absurd hpc hfresh
          wrote := by
            have hwrote := hclient.wrote
            simpa [hsends, Work.transfer] using hwrote
          stored := fun _ _ => hstored
          sum := by simp [hlog]
          arrived := fun wc hwc hsuccess hwrId =>
            List.mem_append_left _ (hclient.arrived wc hwc hsuccess hwrId)
          printed := hclient.printed.mono (List.subset_append_left _ _) }
      server :=
        { placed := fun _ => hserver.placed (by simp [hlog])
          received := fun _ => hstored.2
          heard := by simp
          adding := by simp
          answer := fun hposted => by simp [(hserver.answer hposted).2] at hlog
          posted := hserver.posted
          replied := by simp [hlog] }
      low := fun _ => hlow (by simp [hlog]) }

/-- The sum arrives. -/
theorem Inv.reply (h : Inv c s) (hposted : s.server.sendPosted = true) : Inv c s.afterReply := by
  obtain ⟨hclient, hserver, hlow⟩ := h
  obtain ⟨hsum, hlog⟩ := hserver.answer hposted
  have hsends : s.client.sends = [] := by
    have horder := hclient.order
    rw [hlog] at horder
    cases hw : s.client.sends with
    | nil => rfl
    | cons w rest =>
      rw [hw] at horder
      cases w <;> simp [transfers, Work.transfer] at horder
  unfold State.afterReply
  exact
    { client :=
        { order := by simp [hlog, hsends, transfers]
          fresh := fun hpc => by simp [(hclient.fresh hpc).1] at hlog
          wrote := fun hpc hbroken => by simpa [hlog] using hclient.wrote hpc hbroken
          stored := by simp
          sum := fun _ => hsum
          arrived := by simp
          printed := hclient.printed.mono (List.subset_append_left _ _) }
      server :=
        { placed := fun _ => hserver.placed (by simp [hlog])
          received := fun _ => hserver.received (by simp [hlog])
          heard := fun hpc wc hwc hsuccess =>
            List.mem_append_left _ (hserver.heard hpc wc hwc hsuccess)
          adding := fun hpc => List.mem_append_left _ (hserver.adding hpc)
          answer := nofun
          posted := fun _ => hserver.posted (Or.inl hposted)
          replied := fun _ => hserver.posted (Or.inl hposted) }
      low := fun _ => hlow (by simp [hlog]) }

theorem ClientSide.ack {broken : Bool} {log : List Transfer} {k : Client}
    (h : ClientSide c broken log k) :
    ClientSide c broken log { k with unacked := false, cq := k.cq.add ⟨2, true⟩ } where
  order := h.order
  fresh := h.fresh
  wrote := h.wrote
  stored := h.stored
  sum := h.sum
  arrived wc hwc hsuccess hwrId := by
    rcases List.mem_append.mp hwc with hwc | hwc
    · exact h.arrived wc hwc hsuccess hwrId
    · rw [List.mem_singleton.mp hwc] at hwrId
      cases hwrId
  printed := h.printed

theorem ServerSide.ack {log : List Transfer} {v : Server} (h : ServerSide c log v)
    (hunacked : v.unacked = true) :
    ServerSide c log { v with unacked := false, cq := v.cq.add ⟨0, true⟩ } where
  placed := h.placed
  received := h.received
  heard hpc := absurd hpc (h.posted (Or.inr hunacked))
  adding := h.adding
  answer := h.answer
  posted _ := h.posted (Or.inr hunacked)
  replied := h.replied

/-- A step keeps the invariant. -/
theorem Inv.step (h : Inv c s) {ev : Event} (hstep : step c s ev = some t) : Inv c t := by
  cases ev with
  | client =>
    obtain ⟨k, hk, rfl⟩ := Option.map_eq_some_iff.mp hstep
    exact ⟨h.client.call hk, h.server, h.low⟩
  | server =>
    obtain ⟨v, hv, rfl⟩ := Option.map_eq_some_iff.mp hstep
    exact ⟨h.client, h.server.call h.log_le hv, h.low⟩
  | transmit =>
    obtain ⟨-, rest, ⟨hsends, hpermits, rfl⟩ | ⟨-, -, rfl⟩ | ⟨hsends, -, rfl⟩⟩ :=
      transmit_cases hstep
    · exact h.write hsends ((permits_iff c).mp hpermits)
    · exact h.breakDown
    · exact h.send hsends
  | clientAck =>
    obtain ⟨-, -, rfl⟩ := clientAck_cases hstep
    exact ⟨h.client.ack, h.server, h.low⟩
  | reply =>
    obtain ⟨-, hposted, -, rfl⟩ := reply_cases hstep
    exact h.reply hposted
  | serverAck =>
    obtain ⟨-, hunacked, rfl⟩ := serverAck_cases hstep
    exact ⟨h.client, h.server.ack hunacked, h.low⟩
  | clientFails =>
    obtain ⟨k, hk, rfl⟩ := Option.map_eq_some_iff.mp hstep
    exact ⟨h.client.fail hk, h.server, h.low⟩
  | serverFails =>
    obtain ⟨v, hv, rfl⟩ := Option.map_eq_some_iff.mp hstep
    exact ⟨h.client, h.server.fail h.log_le hv, h.low⟩
  | breaks =>
    rw [APlusB.step] at hstep
    split at hstep
    · cases hstep
    · cases hstep
      exact h.breakDown

/-- The client prints its numbers and their sum, in this order, and nothing else. If it returns 0 it
has printed all of them, and the server's buffer lies below 4 GiB. -/
theorem client_prints_sum (c : Setup) (events : List Event) {s : State}
    (h : run (step c) init events = some s) :
    s.client.printed <+: c.output ∧
      (s.client.pc = .returned 0 → s.client.printed = c.output ∧ c.buf.toNat < 2 ^ 32) := by
  have hinv : Inv c s := run_keeps (fun _ _ _ hs hstep => hs.step hstep) (inv_init c) h
  refine ⟨hinv.client.printed.le_output, fun hpc => ?_⟩
  have hprinted := hinv.client.printed
  rw [hpc] at hprinted
  obtain ⟨hout, hreply⟩ := hprinted.2 rfl
  refine ⟨hout, hinv.low ?_⟩
  -- a reply in the log comes after the write
  obtain ⟨l, hl⟩ := hinv.log_le
  cases hlog : s.log with
  | nil => simp [hlog] at hreply
  | cons x log =>
    rw [hlog, transfers, List.cons_append, List.cons.injEq] at hl
    exact hl.1 ▸ List.mem_cons_self

/-- Two and three, and a buffer at a low address. -/
def smallSetup : Setup := ⟨.little, 2, 3, 0x1000, 7⟩

/-- An exchange in which each completion waits for the client. -/
def patientEvents : List Event :=
  [.client, .client, .client, .transmit, .transmit, .clientAck, .client, .client, .client, .server,
    .server, .server, .server, .reply, .client, .client, .client]

theorem patientEvents_print :
    ∃ s, run (step smallSetup) init patientEvents = some s ∧ s.client.pc = .returned 0 ∧
      s.client.printed = [2, 3, 5] := by
  refine ⟨_, rfl, rfl, ?_⟩
  exact ((client_prints_sum smallSetup patientEvents rfl).2 rfl).1

end SystemDev.APlusB
