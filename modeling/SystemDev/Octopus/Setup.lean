import SystemDev.Octopus.Connect

/-!
# Failures of the setup

In a run of orderly steps the setup stops at its first failure. The invariant has four
parts: `Progress` ties the control and the record of the setup thread to what has
happened, `Heard` says what a session state proves about the messages handled,
`Quiet` keeps errors and disconnects away from the part of the setup that does not look
for them, and `Timely` keeps what the setup waits for in the session state once it has come,
so that no wait lasts for ever.

Every step of the setup thread has one shape (`Advance`): it succeeds and leads to the
next step in program order, or it fails and the function returns a nonzero value.

## Main results

* `Connect.Inv.of_step` — orderly steps keep the invariant
* `setup_stops_on_failure` — runs of orderly steps stop at the first failure
-/

namespace SystemDev.Octopus

open SystemDev.Library SystemDev.Rdma

namespace Connect

variable {s t : Connect}

/-! ### What a step of the setup establishes -/

/-- What has happened when a step of the setup has succeeded. -/
def Established (s : Connect) : Pc → Prop
  | .waitRoute => s.routeResolved
  | .allocPd => s.pd
  | .createCq => s.cq
  | .createQp => s.qp
  | .setupBuffers => s.dmaMr
  | .waitConnected => s.cleanlyConnected
  | .waitFreeMem => s.freeSize.isSome
  | .waitChunks => s.chunksBound
  | _ => True

/-- Nothing that was established is lost. -/
def Grows (s t : Connect) : Prop := ∀ pc, s.Established pc → t.Established pc

theorem Complete.of_grows (h : s.Complete) (hgrows : s.Grows t) : t.Complete where
  route := hgrows .waitRoute h.route
  queues := ⟨hgrows .allocPd h.queues.1, hgrows .createCq h.queues.2.1,
    hgrows .createQp h.queues.2.2⟩
  buffers := hgrows .setupBuffers h.buffers
  connected := hgrows .waitConnected h.connected
  freeSize := hgrows .waitFreeMem h.freeSize
  chunks := hgrows .waitChunks h.chunks

/-- The steps by their position. -/
def stepAt : ℕ → Pc
  | 0 => .createId
  | 1 => .resolveAddr
  | 2 => .waitRoute
  | 3 => .allocPd
  | 4 => .createCq
  | 5 => .createQp
  | 6 => .setupBuffers
  | 7 => .initCommandQueues
  | 8 => .postRecv
  | 9 => .rdmaConnect
  | 10 => .waitConnected
  | 11 => .reqNotifyCq
  | 12 => .waitFreeMem
  | 13 => .postRecvChunks
  | 14 => .sendRequest
  | 15 => .waitChunks
  | _ => .initDiskDriver

theorem stepAt_rank {pc : Pc} (h : pc.rank ≤ Pc.initDiskDriver.rank) : stepAt pc.rank = pc := by
  cases pc with
  | returned ret => exact absurd h (by decide : ¬ 17 ≤ 16)
  | crashed => exact absurd h (by decide)
  | _ => rfl

theorem eq_of_rank_eq {pc pc' : Pc} (h : pc.rank = pc'.rank)
    (hle : pc.rank ≤ Pc.initDiskDriver.rank) : pc = pc' := by
  rw [← stepAt_rank hle, h, stepAt_rank (h ▸ hle)]

/-- The part of the invariant about the setup thread: its control and its record agree
with what has happened. -/
structure Progress (s : Connect) : Prop where
  alive : s.pc ≠ .crashed
  last : ∀ o ∈ s.trace.dropLast, o.ok
  nonzero : ∀ o ∈ s.trace, o.ok = false → ∃ ret, ret ≠ 0 ∧ s.pc = .returned ret
  complete : (s.pc = .returned 0 ∨ ∃ o ∈ s.trace, o.step = .initDiskDriver) → s.Complete
  steps : s.trace.length ≤ s.pc.rank
  reached : s.pc.rank ≤ Pc.initDiskDriver.rank → ∀ pc, pc.rank < s.pc.rank → s.Established pc

/-- The setup thread executes its step and goes on to the next one, or returns. -/
structure Advance (s t : Connect) (ok : Bool) : Prop where
  under_way : s.pc.rank ≤ Pc.initDiskDriver.rank
  trace : t.trace = s.trace ++ [⟨s.pc, ok⟩]
  next : ok = true → t.pc.rank = s.pc.rank + 1 ∧ t.Established s.pc
  failed : ok = false → ∃ ret, ret ≠ 0 ∧ t.pc = .returned ret
  grows : s.Grows t

theorem Progress.ok_of_mem (h : s.Progress) (hrun : s.pc.rank ≤ Pc.initDiskDriver.rank)
    {o : Outcome} (ho : o ∈ s.trace) : o.ok = true := by
  cases hok : o.ok with
  | true => rfl
  | false =>
    obtain ⟨ret, -, hpc⟩ := h.nonzero o ho hok
    rw [hpc] at hrun
    exact absurd hrun (by decide : ¬ 17 ≤ 16)

/-- Before the disk driver is called everything has happened. -/
theorem Progress.complete_of_initDiskDriver (h : s.Progress) (hpc : s.pc = .initDiskDriver) :
    s.Complete := by
  have hall : ∀ pc, pc.rank < Pc.initDiskDriver.rank → s.Established pc := by
    intro pc hlt
    exact h.reached (by rw [hpc]) pc (by rw [hpc]; exact hlt)
  exact ⟨hall .waitRoute (by decide), ⟨hall .allocPd (by decide), hall .createCq (by decide),
    hall .createQp (by decide)⟩, hall .setupBuffers (by decide), hall .waitConnected (by decide),
    hall .waitFreeMem (by decide), hall .waitChunks (by decide)⟩

/-- A call of the disk driver, before this step or by it, finds everything done. -/
theorem Progress.complete_of_called (h : s.Progress) {ok : Bool} (hadv : Advance s t ok)
    (hcalled : ∃ o ∈ t.trace, o.step = .initDiskDriver) : t.Complete := by
  obtain ⟨o, ho, hstep⟩ := hcalled
  rw [hadv.trace, List.mem_append, List.mem_singleton] at ho
  rcases ho with ho | rfl
  · exact (h.complete (.inr ⟨o, ho, hstep⟩)).of_grows hadv.grows
  · exact (h.complete_of_initDiskDriver hstep).of_grows hadv.grows

theorem Progress.last_of_advance (h : s.Progress) {ok : Bool} (hadv : Advance s t ok) :
    ∀ o ∈ t.trace.dropLast, o.ok = true := by
  rw [hadv.trace, List.dropLast_concat]
  intro o ho
  exact h.ok_of_mem hadv.under_way ho

theorem Advance.length_trace {ok : Bool} (h : Advance s t ok) :
    t.trace.length = s.trace.length + 1 := by
  rw [h.trace, List.length_append, List.length_singleton]

theorem Advance.rank_lt {ok : Bool} (h : Advance s t ok) : s.pc.rank < t.pc.rank := by
  cases ok with
  | true =>
    rw [(h.next rfl).1]
    exact Nat.lt_succ_self _
  | false =>
    obtain ⟨ret, -, hpc⟩ := h.failed rfl
    rw [hpc]
    exact Nat.lt_of_le_of_lt h.under_way (by decide : 16 < 17)

/-- A step more is a position further. -/
theorem Progress.steps_of_advance (h : s.Progress) {ok : Bool} (hadv : Advance s t ok) :
    t.trace.length ≤ t.pc.rank := by
  rw [hadv.length_trace]
  exact Nat.lt_of_le_of_lt h.steps hadv.rank_lt

theorem Progress.of_success (h : s.Progress) (hadv : Advance s t true) : t.Progress := by
  obtain ⟨hrank, hnew⟩ := hadv.next rfl
  have hall : ∀ o ∈ t.trace, o.ok = true := by
    intro o ho
    rw [hadv.trace, List.mem_append, List.mem_singleton] at ho
    rcases ho with ho | rfl
    · exact h.ok_of_mem hadv.under_way ho
    · rfl
  refine ⟨?_, h.last_of_advance hadv, ?_, ?_, h.steps_of_advance hadv, ?_⟩
  · -- the position behind the last step is the return, not the crash
    intro hpc
    have hle := hadv.under_way
    rw [hpc] at hrank
    change 18 = _ at hrank
    change _ ≤ 16 at hle
    omega
  · intro o ho hfail
    rw [hall o ho] at hfail
    cases hfail
  · rintro (hpc | hcalled)
    · -- only the disk driver stands directly before the return
      have hrank' : Pc.initDiskDriver.rank = s.pc.rank := by
        rw [hpc] at hrank
        change 17 = _ at hrank
        change 16 = _
        omega
      have hpc' := eq_of_rank_eq hrank' le_rfl
      exact (h.complete_of_initDiskDriver hpc'.symm).of_grows hadv.grows
    · exact h.complete_of_called hadv hcalled
  · intro hle pc hlt
    rw [hrank] at hlt
    rcases Nat.lt_succ_iff_lt_or_eq.mp hlt with hlt | heq
    · exact hadv.grows pc (h.reached hadv.under_way pc hlt)
    · rw [eq_of_rank_eq heq (heq ▸ hadv.under_way)]
      exact hnew

theorem Progress.of_failure (h : s.Progress) (hadv : Advance s t false) : t.Progress := by
  obtain ⟨ret, hret, hpc⟩ := hadv.failed rfl
  refine ⟨?_, h.last_of_advance hadv, ?_, ?_, h.steps_of_advance hadv, ?_⟩
  · rw [hpc]
    exact Pc.noConfusion
  · intro o ho hfail
    exact ⟨ret, hret, hpc⟩
  · rintro (hzero | hcalled)
    · rw [hpc, Pc.returned.injEq] at hzero
      exact absurd hzero hret
    · exact h.complete_of_called hadv hcalled
  · intro hle
    rw [hpc] at hle
    exact absurd hle (by decide : ¬ 17 ≤ 16)

theorem Progress.of_advance (h : s.Progress) {ok : Bool} (hadv : Advance s t ok) :
    t.Progress := by
  cases ok with
  | true => exact h.of_success hadv
  | false => exact h.of_failure hadv

/-- The handlers leave the setup thread alone. -/
theorem Progress.of_grows (h : s.Progress) (hpc : t.pc = s.pc) (htrace : t.trace = s.trace)
    (hgrows : s.Grows t) : t.Progress where
  alive := by rw [hpc]; exact h.alive
  last := by rw [htrace]; exact h.last
  nonzero := by rw [htrace, hpc]; exact h.nonzero
  complete := by
    rw [htrace, hpc]
    intro hcalled
    exact (h.complete hcalled).of_grows hgrows
  steps := by rw [htrace, hpc]; exact h.steps
  reached := by
    rw [hpc]
    intro hle pc hlt
    exact hgrows pc (h.reached hle pc hlt)

/-! ### Events and the session state -/

/-- What the session state says about the past, in every run: before the completion queue
is armed it comes from the connection manager, and the two states that the setup waits for
behind that come from their messages. -/
structure Heard (s : Connect) : Prop where
  unarmed : s.armed = false → s.session.state.value ≤ SessionState.connected.value ∨
    s.session.state = .error ∨ s.session.state = .cmDisconnect
  armed : s.armed = true → Pc.reqNotifyCq.rank < s.pc.rank
  freeMem : s.session.state = .freeMemRecv → s.freeSize.isSome
  chunks : s.session.state = .receivedChunks → s.chunksBound
  collected : s.collected = true → s.freed = true

/-- What orderly steps keep away from the setup: between the route and the disk driver
there is no error and no disconnect, so the connection is made cleanly. -/
structure Quiet (s : Connect) : Prop where
  early : s.pc.rank ≤ Pc.waitRoute.rank → s.routeResolved = false ∧ s.disturbed = false
  calm : s.Exposed → s.session.state ≠ .error ∧ s.session.state ≠ .cmDisconnect ∧
    s.disturbed = false
  clean : s.Exposed → s.pc.rank ≤ Pc.waitConnected.rank → s.session.state = .connected →
    s.cleanlyConnected
  freed : s.freed = true → Pc.initDiskDriver.rank ≤ s.pc.rank

/-- The state that the setup waits for next behind the route. -/
def awaited (s : Connect) : SessionState :=
  if s.pc.rank ≤ Pc.waitConnected.rank then .connected
  else if s.pc.rank ≤ Pc.waitFreeMem.rank then .freeMemRecv
  else .receivedChunks

/-- What orderly steps keep in time: the id lasts up to the disk driver, nothing comes before the
setup may wait for it, and the state of what has come stays in place until the setup has seen
it. -/
structure Timely (s : Connect) : Prop where
  cmId : Pc.createId.rank < s.pc.rank → s.pc.rank < Pc.initDiskDriver.rank → s.cmId = true
  connected : s.pc.rank ≤ Pc.waitRoute.rank → s.cleanlyConnected = false
  freeSize : s.pc.rank ≤ Pc.reqNotifyCq.rank → s.freeSize = none
  chunks : s.pc.rank ≤ Pc.waitFreeMem.rank → s.chunksBound = false
  in_place : s.Exposed → s.Arrived → s.session.state = s.awaited

/-- What a step of the setup thread leaves alone. -/
structure Kept (s t : Connect) : Prop where
  session : t.session = s.session ∨ s.pc = .createId ∧ t.session.state = .idle
  armed : t.armed = s.armed ∨ s.pc = .reqNotifyCq
  route : t.routeResolved = s.routeResolved ∨ s.pc = .waitRoute
  passed : s.pc = .waitRoute → t.pc = .allocPd → s.session.state = .routeResolved
  cmId : t.cmId = true ∨ s.pc ≠ .createId ∧ t.cmId = s.cmId
  freed : t.freed = s.freed
  collected : t.collected = s.collected
  disturbed : t.disturbed = s.disturbed
  cleanlyConnected : t.cleanlyConnected = s.cleanlyConnected
  freeSize : t.freeSize = s.freeSize
  chunksBound : t.chunksBound = s.chunksBound

theorem Advance.rank_of_exposed {ok : Bool} (h : Advance s t ok) (ht : t.Exposed) :
    t.pc.rank = s.pc.rank + 1 := by
  cases ok with
  | true => exact (h.next rfl).1
  | false =>
    obtain ⟨ret, -, hpc⟩ := h.failed rfl
    rw [Exposed, hpc] at ht
    exact absurd ht.2 (by decide : ¬ 17 < 16)

/-- A step that leaves the setup exposed started there, or passed the route. -/
theorem Advance.exposed {ok : Bool} (h : Advance s t ok) (ht : t.Exposed) :
    s.Exposed ∨ s.pc = .waitRoute ∧ t.pc = .allocPd := by
  have hrank := h.rank_of_exposed ht
  rcases Nat.lt_or_ge Pc.waitRoute.rank s.pc.rank with hlt | hge
  · exact .inl ⟨hlt, by have := ht.2; omega⟩
  · have hroute : Pc.waitRoute.rank = s.pc.rank := by
      have := ht.1
      omega
    have hpc : t.pc.rank = Pc.allocPd.rank := by rw [hrank, ← hroute]; rfl
    exact .inr ⟨(eq_of_rank_eq hroute (by decide)).symm,
      eq_of_rank_eq hpc (by rw [hpc]; decide)⟩

theorem Heard.of_advance (h : s.Heard) {ok : Bool} (hadv : Advance s t ok) (hkept : Kept s t) :
    t.Heard := by
  have hlt := hadv.rank_lt
  -- the state is the old one, or the `IDLE` that the setup starts from
  have hstate : ∀ state, state ≠ .idle → t.session.state = state → s.session.state = state := by
    intro state hne heq
    rcases hkept.session with hsame | ⟨-, hidle⟩
    · rw [← hsame, heq]
    · exact absurd (heq.symm.trans hidle) hne
  refine ⟨?_, ?_, ?_, ?_, ?_⟩
  · intro harmed
    have hs : s.armed = false := by
      rcases hkept.armed with hsame | hpc
      · rw [← hsame, harmed]
      · cases hsarmed : s.armed with
        | false => rfl
        | true =>
          have := h.armed hsarmed
          rw [hpc] at this
          exact absurd this (lt_irrefl _)
    rcases hkept.session with hsame | ⟨-, hidle⟩
    · rw [hsame]
      exact h.unarmed hs
    · rw [hidle]
      exact .inl (by decide)
  · intro harmed
    rcases hkept.armed with hsame | hpc
    · exact lt_trans (h.armed (hsame ▸ harmed)) hlt
    · rwa [hpc] at hlt
  · intro heq
    rw [hkept.freeSize]
    exact h.freeMem (hstate _ (by decide) heq)
  · intro heq
    rw [hkept.chunksBound]
    exact h.chunks (hstate _ (by decide) heq)
  · rw [hkept.collected, hkept.freed]
    exact h.collected

theorem Quiet.of_advance (h : s.Quiet) {ok : Bool} (hadv : Advance s t ok) (hkept : Kept s t) :
    t.Quiet := by
  have hlt := hadv.rank_lt
  have hsession : s.Exposed → t.session = s.session := by
    intro hs
    rcases hkept.session with hsame | ⟨hpc, -⟩
    · exact hsame
    · rw [Exposed, hpc] at hs
      exact absurd hs.1 (by decide)
  have hroute : s.pc = .waitRoute → t.session = s.session := by
    intro hpc
    rcases hkept.session with hsame | ⟨hpc', -⟩
    · exact hsame
    · rw [hpc] at hpc'
      cases hpc'
  refine ⟨?_, ?_, ?_, ?_⟩
  · intro hle
    obtain ⟨hresolved, hdisturbed⟩ := h.early (le_trans hlt.le hle)
    rcases hkept.route with hsame | hpc
    · exact ⟨hsame.trans hresolved, hkept.disturbed.trans hdisturbed⟩
    · rw [hpc] at hlt
      omega
  · intro ht
    rcases hadv.exposed ht with hs | ⟨hpc, hnext⟩
    · rw [hsession hs, hkept.disturbed]
      exact h.calm hs
    · have hresolved := hkept.passed hpc hnext
      rw [hroute hpc, hresolved, hkept.disturbed]
      exact ⟨by decide, by decide, (h.early (by rw [hpc])).2⟩
  · intro ht hle heq
    rcases hadv.exposed ht with hs | ⟨hpc, hnext⟩
    · rw [hsession hs] at heq
      rw [hkept.cleanlyConnected]
      exact h.clean hs (le_trans hlt.le hle) heq
    -- the route was the last thing heard of, so the connection is not made yet
    · rw [hroute hpc, hkept.passed hpc hnext] at heq
      cases heq
  · intro hfreed
    rw [hkept.freed] at hfreed
    exact le_trans (h.freed hfreed) hlt.le

/-- A step that leaves the setup exposed behind the route keeps the session. -/
theorem Kept.session_of_exposed (hkept : Kept s t) (hs : s.Exposed) : t.session = s.session := by
  rcases hkept.session with hsame | ⟨hpc, -⟩
  · exact hsame
  · rw [Exposed, hpc] at hs
    exact absurd hs.1 (by decide)

/-- The next thing to wait for has not come when the setup starts to look for it. -/
theorem Timely.in_place_of_advance (h : s.Timely) {ok : Bool} (hadv : Advance s t ok)
    (hkept : Kept s t) (ht : t.Exposed) (harrived : t.Arrived) :
    t.session.state = t.awaited := by
  have hrank := hadv.rank_of_exposed ht
  rcases hadv.exposed ht with hs | ⟨hpc, hnext⟩
  · have hplace := h.in_place hs
    have hfree := h.freeSize
    have hchunks := h.chunks
    rw [hkept.session_of_exposed hs]
    -- the phases end with the waits
    have h10 : Pc.waitConnected.rank = 10 := rfl
    have h11 : Pc.reqNotifyCq.rank = 11 := rfl
    have h12 : Pc.waitFreeMem.rank = 12 := rfl
    simp only [Arrived, awaited, hrank, hkept.cleanlyConnected, hkept.freeSize, hkept.chunksBound,
      h10, h11, h12] at harrived hplace hfree hchunks ⊢
    by_cases h9 : s.pc.rank + 1 ≤ 10
    · rw [if_pos h9] at harrived ⊢
      rw [if_pos (by omega), if_pos (by omega)] at hplace
      exact hplace harrived
    · rw [if_neg h9] at harrived ⊢
      by_cases h11 : s.pc.rank + 1 ≤ 12
      · rw [if_pos h11] at harrived ⊢
        by_cases hwait : s.pc.rank ≤ 10
        · rw [hfree (by omega)] at harrived
          cases harrived
        · rw [if_neg hwait, if_neg hwait, if_pos (by omega), if_pos (by omega)] at hplace
          exact hplace harrived
      · rw [if_neg h11] at harrived ⊢
        by_cases hwait : s.pc.rank ≤ 12
        · rw [hchunks hwait] at harrived
          cases harrived
        · rw [if_neg (by omega), if_neg hwait, if_neg (by omega), if_neg hwait] at hplace
          exact hplace harrived
  · rw [Arrived, hnext, if_pos (by decide), hkept.cleanlyConnected,
      h.connected (by rw [hpc])] at harrived
    cases harrived

theorem Timely.of_advance (h : s.Timely) {ok : Bool} (hadv : Advance s t ok) (hkept : Kept s t) :
    t.Timely := by
  have hlt := hadv.rank_lt
  refine ⟨?_, ?_, ?_, ?_, h.in_place_of_advance hadv hkept⟩
  · intro _ hup
    rcases hkept.cmId with hid | ⟨hpc, hsame⟩
    · exact hid
    · rw [hsame]
      refine h.cmId (Nat.pos_of_ne_zero fun hzero => hpc ?_) (lt_trans hlt hup)
      exact eq_of_rank_eq hzero hadv.under_way
  · intro hle
    rw [hkept.cleanlyConnected]
    exact h.connected (le_trans hlt.le hle)
  · intro hle
    rw [hkept.freeSize]
    exact h.freeSize (le_trans hlt.le hle)
  · intro hle
    rw [hkept.chunksBound]
    exact h.chunks (le_trans hlt.le hle)

/-! ### Steps of the setup thread -/

/-- A step of the setup thread, whatever else it changes. -/
def Moves (s t : Connect) : Prop := ∃ ok, Advance s t ok ∧ Kept s t

/-- A step that only moves the control and creates resources. -/
theorem kept_resources {next : Pc} {trace : List Outcome} {pd cq qp dmaMr : Bool}
    (hroute : s.pc ≠ .waitRoute) (hcreate : s.pc ≠ .createId) :
    Kept s { s with pc := next, trace := trace, pd := pd, cq := cq, qp := qp, dmaMr := dmaMr } :=
  ⟨.inl rfl, .inl rfl, .inl rfl, fun hpc => absurd hpc hroute, .inr ⟨hcreate, rfl⟩, rfl, rfl, rfl,
    rfl, rfl, rfl⟩

/-- A verb whose failure makes the function return. -/
theorem moves_checked {pc next : Pc} (r : ℤ) (hpc : s.pc = pc) (hrank : next.rank = pc.rank + 1)
    (hle : pc.rank ≤ Pc.initDiskDriver.rank) (hest : s.Established pc)
    (hroute : pc ≠ .waitRoute) (hcreate : pc ≠ .createId) : Moves s (s.checked r next) := by
  subst hpc
  rw [checked]
  split_ifs with hret
  · exact ⟨false, ⟨hle, rfl, nofun, fun _ => ⟨r, hret, rfl⟩, fun _ h => h⟩,
      kept_resources hroute hcreate⟩
  · exact ⟨true, ⟨hle, rfl, fun _ => ⟨hrank, hest⟩, nofun, fun _ h => h⟩,
      kept_resources hroute hcreate⟩

/-- The resources are not collected before the disk driver is called. -/
theorem Quiet.not_collected (h : s.Quiet) (hheard : s.Heard)
    (hlt : s.pc.rank < Pc.initDiskDriver.rank) : s.collected = false := by
  cases hcoll : s.collected with
  | false => rfl
  | true => exact absurd (h.freed (hheard.collected hcoll)) (not_le.mpr hlt)

/-- A step that succeeds and gains what it is for. -/
theorem moves_gained {pc : Pc} (hpc : s.pc = pc) (hrank : t.pc.rank = pc.rank + 1)
    (hle : pc.rank ≤ Pc.initDiskDriver.rank) (htrace : t.trace = s.trace ++ [⟨s.pc, true⟩])
    (hest : t.Established pc) (hgrows : s.Grows t) (hkept : Kept s t) : Moves s t := by
  subst hpc
  exact ⟨true, ⟨hle, htrace, fun _ => ⟨hrank, hest⟩, nofun, hgrows⟩, hkept⟩

theorem moves_of_call {ret : ℤ} (hprog : s.Progress) (hheard : s.Heard) (hquiet : s.Quiet)
    (htimely : s.Timely) (hord : s.Orderly (.call ret)) (hstep : s.call ret = some t) :
    Moves s t := by
  have hroute : s.pc ≠ .waitRoute := by
    intro hpc
    simp [call, hpc] at hstep
  have hreached := hprog.reached
  have hcollected := hquiet.not_collected hheard
  simp only [Orderly] at hord
  cases hpc : s.pc with
  | createId =>
    obtain rfl := hord (by simp [hpc])
    simp only [call, hpc, Option.some.injEq] at hstep
    subst hstep
    exact moves_gained hpc rfl (by decide) rfl trivial (fun _ h => h)
      ⟨.inr ⟨hpc, rfl⟩, .inl rfl, .inl rfl, fun h => absurd h hroute, .inl rfl, rfl, rfl, rfl, rfl,
        rfl, rfl⟩
  | allocPd | createCq | createQp =>
    obtain rfl := hord (by simp [hpc])
    have hcoll := hcollected (by rw [hpc]; decide)
    have hid := htimely.cmId (by rw [hpc]; decide) (by rw [hpc]; decide)
    simp only [call, hpc, hcoll, hid, Bool.not_true, Bool.or_self, Bool.false_eq_true, if_false,
      ne_eq, not_true_eq_false, Option.some.injEq] at hstep
    subst hstep
    refine moves_gained hpc rfl (by decide) rfl rfl ?_ (kept_resources hroute (by simp [hpc]))
    intro pc h
    cases pc <;> first | exact h | rfl
  | setupBuffers =>
    obtain rfl := hord (by simp [hpc])
    have hcoll := hcollected (by rw [hpc]; decide)
    -- the queues are there, so the function does not run into a missing one
    have hpd : s.pd = true := hreached (by rw [hpc]; decide) .allocPd (by rw [hpc]; decide)
    have hqp : s.qp = true := hreached (by rw [hpc]; decide) .createQp (by rw [hpc]; decide)
    simp only [call, hpc, hcoll, hpd, hqp, Bool.not_true, Bool.or_self, Bool.false_eq_true,
      if_false, ne_eq, not_true_eq_false, Option.some.injEq] at hstep
    subst hstep
    refine moves_gained hpc rfl (by decide) rfl rfl ?_ (kept_resources hroute (by simp [hpc]))
    intro pc h
    cases pc <;> first | exact h | rfl
  | initCommandQueues =>
    have hcoll := hcollected (by rw [hpc]; decide)
    have hpd : s.pd = true := hreached (by rw [hpc]; decide) .allocPd (by rw [hpc]; decide)
    have hqp : s.qp = true := hreached (by rw [hpc]; decide) .createQp (by rw [hpc]; decide)
    simp only [call, hpc, hcoll, hpd, hqp, Bool.not_true, Bool.or_self, Bool.false_eq_true,
      if_false, Option.some.injEq] at hstep
    subst hstep
    exact moves_gained hpc rfl (by decide) rfl trivial (fun _ h => h)
      (kept_resources hroute (by simp [hpc]))
  | resolveAddr =>
    have hcoll := hcollected (by rw [hpc]; decide)
    have hid := htimely.cmId (by rw [hpc]; decide) (by rw [hpc]; decide)
    simp only [call, hpc, hcoll, hid, Bool.not_true, Bool.or_self, Bool.false_eq_true, if_false,
      Option.some.injEq] at hstep
    subst hstep
    exact moves_checked ret hpc rfl (by decide) trivial (by decide) (by decide)
  | postRecv =>
    have hcoll := hcollected (by rw [hpc]; decide)
    have hqp : s.qp = true := hreached (by rw [hpc]; decide) .createQp (by rw [hpc]; decide)
    simp only [call, hpc, hcoll, hqp, Bool.not_true, Bool.or_self, Bool.false_eq_true, if_false,
      Option.some.injEq] at hstep
    subst hstep
    exact moves_checked ret hpc rfl (by decide) trivial (by decide) (by decide)
  | rdmaConnect =>
    have hcoll := hcollected (by rw [hpc]; decide)
    have hid := htimely.cmId (by rw [hpc]; decide) (by rw [hpc]; decide)
    simp only [call, hpc, hcoll, hid, Bool.not_true, Bool.or_self, Bool.false_eq_true, if_false,
      Option.some.injEq] at hstep
    subst hstep
    exact moves_checked ret hpc rfl (by decide) trivial (by decide) (by decide)
  | postRecvChunks | sendRequest =>
    have hcoll := hcollected (by rw [hpc]; decide)
    simp only [call, hpc, hcoll, Bool.false_eq_true, if_false, Option.some.injEq] at hstep
    subst hstep
    exact moves_checked ret hpc rfl (by decide) trivial (by decide) (by decide)
  | reqNotifyCq =>
    have hcoll := hcollected (by rw [hpc]; decide)
    simp only [call, hpc, hcoll, Bool.false_eq_true, if_false, Option.some.injEq] at hstep
    subst hstep
    have hnext : Pc.waitFreeMem.rank = Pc.reqNotifyCq.rank + 1 := rfl
    -- a checked verb, which also arms the completion queue when it succeeds
    obtain ⟨ok, hadv, hkept⟩ := moves_checked ret hpc hnext (by decide) trivial (by decide)
      (by decide)
    exact ⟨ok, ⟨hadv.under_way, hadv.trace, hadv.next, hadv.failed, hadv.grows⟩,
      { hkept with armed := .inr hpc }⟩
  | initDiskDriver =>
    simp only [call, hpc, Option.some.injEq] at hstep
    subst hstep
    refine ⟨ret = 0, ⟨by rw [hpc], rfl, ?_, ?_, fun _ h => h⟩,
      kept_resources hroute (by simp [hpc])⟩
    · intro _
      rw [hpc]
      exact ⟨rfl, trivial⟩
    · intro hfail
      exact ⟨ret, of_decide_eq_false hfail, rfl⟩
  | waitRoute | waitConnected | waitFreeMem | waitChunks | returned ret' | crashed =>
    simp [call, hpc] at hstep

/-- What the wait at hand is for has happened. -/
def WaitedFor (s : Connect) : Prop :=
  (s.pc = .waitConnected → s.cleanlyConnected) ∧ (s.pc = .waitFreeMem → s.freeSize.isSome) ∧
    (s.pc = .waitChunks → s.chunksBound)

theorem moves_of_leaveWait (hfor : s.WaitedFor) (hstep : s.leaveWait = some t) : Moves s t := by
  cases hpc : s.pc with
  | waitRoute =>
    simp only [leaveWait, hpc] at hstep
    split_ifs at hstep with hstate
    · -- an error, a disconnect or a signal: the function returns `-EINTR`
      obtain rfl := Option.some_inj.mp hstep
      refine ⟨false, ⟨by rw [hpc]; decide, rfl, nofun, fun _ => ⟨-4, by decide, rfl⟩, fun _ h => h⟩,
        ⟨.inl rfl, .inl rfl, .inl rfl, ?_, .inr ⟨by simp [hpc], rfl⟩, rfl, rfl, rfl, rfl, rfl,
          rfl⟩⟩
      intro _ hnext
      cases hnext
    · obtain rfl := Option.some_inj.mp hstep
      refine moves_gained hpc rfl (by decide) rfl rfl ?_
        ⟨.inl rfl, .inl rfl, .inr hpc, fun _ _ => not_not.mp hstate, .inr ⟨by simp [hpc], rfl⟩,
          rfl, rfl, rfl, rfl, rfl, rfl⟩
      intro pc h
      cases pc <;> first | exact h | rfl
  | waitConnected =>
    -- nothing is tested behind this wait and the two below, so what they wait for has come
    simp only [leaveWait, hpc, hfor.1 hpc, Option.some.injEq] at hstep
    subst hstep
    exact moves_gained hpc rfl (by decide) rfl (hfor.1 hpc) (fun _ h => h)
      (kept_resources (by simp [hpc]) (by simp [hpc]))
  | waitFreeMem =>
    simp only [leaveWait, hpc, hfor.2.1 hpc, Option.some.injEq] at hstep
    subst hstep
    exact moves_gained hpc rfl (by decide) rfl (hfor.2.1 hpc) (fun _ h => h)
      (kept_resources (by simp [hpc]) (by simp [hpc]))
  | waitChunks =>
    simp only [leaveWait, hpc, hfor.2.2 hpc, Option.some.injEq] at hstep
    subst hstep
    exact moves_gained hpc rfl (by decide) rfl (hfor.2.2 hpc) (fun _ h => h)
      (kept_resources (by simp [hpc]) (by simp [hpc]))
  | _ => simp [leaveWait, hpc] at hstep

/-- A wait that ends by its test has seen what it waits for. -/
theorem waitedFor_of_test (hheard : s.Heard) (hquiet : s.Quiet) (h : s.waitTest = some true) :
    s.WaitedFor := by
  refine ⟨?_, ?_, ?_⟩
  · intro hpc
    have hexposed : s.Exposed := by rw [Exposed, hpc]; decide
    have harmed : s.armed = false := by
      cases harmed : s.armed with
      | false => rfl
      | true =>
        have := hheard.armed harmed
        rw [hpc] at this
        exact absurd this (by decide)
    obtain ⟨herror, hdisconnect, -⟩ := hquiet.calm hexposed
    simp only [waitTest, hpc, Option.some.injEq, decide_eq_true_eq] at h
    -- the test is an inequality, but the other states above `CONNECTED` are excluded
    have hstate : s.session.state = .connected := by
      rcases hheard.unarmed harmed with hle | hbad | hbad
      · have heq := le_antisymm hle h
        revert heq
        cases s.session.state <;> decide
      · exact absurd hbad herror
      · exact absurd hbad hdisconnect
    exact hquiet.clean hexposed (by rw [hpc]) hstate
  · intro hpc
    simp only [waitTest, hpc, Option.some.injEq, decide_eq_true_eq] at h
    exact hheard.freeMem h
  · intro hpc
    simp only [waitTest, hpc, Option.some.injEq, decide_eq_true_eq] at h
    exact hheard.chunks h

/-! ### Steps of the handlers -/

theorem cmSwitch_pc (s : Connect) (event : CmEvent) : (s.cmSwitch event).pc = s.pc := by
  cases event <;> rfl

theorem cmSwitch_trace (s : Connect) (event : CmEvent) :
    (s.cmSwitch event).trace = s.trace := by
  cases event <;> rfl

theorem grows_cmSwitch (s : Connect) (event : CmEvent) :
    s.Grows (s.cmSwitch event) := by
  intro pc h
  cases pc with
  | waitConnected =>
    -- the record of a clean connection is kept by every event
    have hclean : s.cleanlyConnected = true := h
    cases event <;> simp [Established, cmSwitch, setState, hclean]
  | _ => cases event <;> exact h

/-- The states that an event leads to. -/
theorem cmSwitch_state (s : Connect) (event : CmEvent) :
    (s.cmSwitch event).session.state = s.session.state ∨
      (s.cmSwitch event).session.state = .addrResolved ∨
      (s.cmSwitch event).session.state = .routeResolved ∨
      ((s.cmSwitch event).session.state = .connected ∧ event = .established) ∨
      ((s.cmSwitch event).session.state = .error ∧ event.isError = true) ∨
      ((s.cmSwitch event).session.state = .cmDisconnect ∧ event = .timewaitExit) := by
  cases event with
  | addrResolved => exact .inr (.inl rfl)
  | routeResolved => exact .inr (.inr (.inl rfl))
  | established => exact .inr (.inr (.inr (.inl ⟨rfl, rfl⟩)))
  | addrError | routeError | connectError | unreachable | rejected =>
    exact .inr (.inr (.inr (.inr (.inl ⟨rfl, rfl⟩))))
  | timewaitExit => exact .inr (.inr (.inr (.inr (.inr ⟨rfl, rfl⟩))))
  | connectRequest | disconnected | deviceRemoval | other => exact .inl rfl

/-- A state that no event leads to was there before. -/
theorem state_of_cm {event : CmEvent} {state : SessionState}
    (h : (s.cmSwitch event).session.state = state)
    (hstate : state = .freeMemRecv ∨ state = .receivedChunks) : s.session.state = state := by
  rcases s.cmSwitch_state event with
    hsame | haddr | hroute | ⟨hconn, -⟩ | ⟨herror, -⟩ | ⟨hdisc, -⟩
  · rw [← hsame, h]
  all_goals
    rcases hstate with rfl | rfl <;> simp_all

theorem Heard.of_cm (h : s.Heard) (event : CmEvent) : (s.cmSwitch event).Heard := by
  have harmed : (s.cmSwitch event).armed = s.armed := by cases event <;> rfl
  have hsize : (s.cmSwitch event).freeSize = s.freeSize := by cases event <;> rfl
  have hbound : (s.cmSwitch event).chunksBound = s.chunksBound := by cases event <;> rfl
  have hcollected : (s.cmSwitch event).collected = s.collected := by cases event <;> rfl
  have hfreed : s.freed = true → (s.cmSwitch event).freed = true := by
    intro hs
    cases event <;> first | exact hs | rfl
  refine ⟨?_, ?_, ?_, ?_, ?_⟩
  · intro hunarmed
    rcases s.cmSwitch_state event with
      hsame | haddr | hroute | ⟨hconn, -⟩ | ⟨herror, -⟩ | ⟨hdisc, -⟩
    · rw [hsame]
      exact h.unarmed (harmed ▸ hunarmed)
    · rw [haddr]
      exact .inl (by decide)
    · rw [hroute]
      exact .inl (by decide)
    · rw [hconn]
      exact .inl le_rfl
    · exact .inr (.inl herror)
    · exact .inr (.inr hdisc)
  · rw [harmed, cmSwitch_pc]
    exact h.armed
  · intro hstate
    rw [hsize]
    exact h.freeMem (state_of_cm hstate (.inl rfl))
  · intro hstate
    rw [hbound]
    exact h.chunks (state_of_cm hstate (.inr rfl))
  · intro hcoll
    exact hfreed (h.collected (hcollected ▸ hcoll))

/-- An orderly event at an exposed setup is no error and no disconnect. -/
theorem Orderly.calm_event {event : CmEvent} {ret : ℤ} (hord : s.Orderly (.cm event ret))
    (hs : s.Exposed) : event.isError = false ∧ event.isDisconnect = false := by
  obtain ⟨herror, htime, -⟩ := hord.1 hs
  have hdisc := (hord.2 hs.2).1
  refine ⟨herror, ?_⟩
  cases event <;> first | rfl | contradiction

/-- Such an event leaves the session without an error and without a disconnect. -/
theorem Quiet.state_of_cm {event : CmEvent} (h : s.Quiet) (hs : s.Exposed)
    (herror : event.isError = false) (hdisconnect : event.isDisconnect = false) :
    (s.cmSwitch event).session.state ≠ .error ∧
      (s.cmSwitch event).session.state ≠ .cmDisconnect := by
  obtain ⟨hse, hsd, -⟩ := h.calm hs
  rcases s.cmSwitch_state event with
    hsame | haddr | hroute | ⟨hconn, -⟩ | ⟨-, hevent⟩ | ⟨-, rfl⟩
  · rw [hsame]
    exact ⟨hse, hsd⟩
  · rw [haddr]
    exact ⟨nofun, nofun⟩
  · rw [hroute]
    exact ⟨nofun, nofun⟩
  · rw [hconn]
    exact ⟨nofun, nofun⟩
  · rw [herror] at hevent
    cases hevent
  · cases hdisconnect

/-- An event that connects an exposed setup connects it cleanly. -/
theorem Quiet.clean_of_cm {event : CmEvent} (h : s.Quiet) (hprog : s.Progress) (hs : s.Exposed)
    (hle : s.pc.rank ≤ Pc.waitConnected.rank)
    (hstate : (s.cmSwitch event).session.state = .connected) :
    (s.cmSwitch event).cleanlyConnected = true := by
  rcases s.cmSwitch_state event with
    hsame | haddr | hroute | ⟨-, rfl⟩ | ⟨herr, -⟩ | ⟨hdisc, -⟩
  · exact s.grows_cmSwitch event .waitConnected (h.clean hs hle (hsame ▸ hstate))
  · rw [haddr] at hstate
    cases hstate
  · rw [hroute] at hstate
    cases hstate
  · -- the connection is established, and nothing disturbed it since the route
    have hr : s.routeResolved = true := hprog.reached hs.2.le .waitRoute hs.1
    have hd := (h.calm hs).2.2
    simp [cmSwitch, setState, hr, hd]
  · rw [herr] at hstate
    cases hstate
  · rw [hdisc] at hstate
    cases hstate

theorem Quiet.of_cm {event : CmEvent} {ret : ℤ} (h : s.Quiet) (hprog : s.Progress)
    (hord : s.Orderly (.cm event ret)) : (s.cmSwitch event).Quiet := by
  have hpc := s.cmSwitch_pc event
  have hexposed : (s.cmSwitch event).Exposed ↔ s.Exposed := by rw [Exposed, hpc, Exposed]
  have hresolved : (s.cmSwitch event).routeResolved = s.routeResolved := by
    cases event <;> rfl
  have hdisturbed : (s.cmSwitch event).disturbed =
      (s.disturbed || (s.routeResolved && (event.isError || event.isDisconnect))) := by
    cases event <;> rfl
  refine ⟨?_, ?_, ?_, ?_⟩
  · rw [hpc, hresolved, hdisturbed]
    intro hle
    obtain ⟨hr, hd⟩ := h.early hle
    exact ⟨hr, by rw [hr, hd]; rfl⟩
  · rw [hexposed]
    intro hs
    obtain ⟨herror, hdisconnect⟩ := hord.calm_event hs
    obtain ⟨hse, hsd⟩ := h.state_of_cm hs herror hdisconnect
    refine ⟨hse, hsd, ?_⟩
    rw [hdisturbed, (h.calm hs).2.2, herror, hdisconnect]
    simp
  · rw [hexposed, hpc]
    exact h.clean_of_cm hprog
  · rw [hpc]
    intro hfreed
    by_cases hevent : event = .disconnected
    · -- the resources are given up only behind the disk driver
      exact not_lt.mp fun hlt => (hord.2 hlt).1 hevent
    · refine h.freed ?_
      rw [← hfreed]
      cases event <;> first | rfl | contradiction

/-- An event is the first to report the connection, or the setup waits for what it waited for
before. -/
theorem arrived_of_cm {event : CmEvent} (h : (s.cmSwitch event).Arrived) :
    s.Arrived ∨ event = .established ∧ s.pc.rank ≤ Pc.waitConnected.rank := by
  rw [Arrived, cmSwitch_pc] at h
  rw [Arrived]
  split_ifs at h ⊢ with hconnect hfree
  · by_cases hevent : event = .established
    · exact .inr ⟨hevent, hconnect⟩
    · left
      rw [← h]
      cases event <;> first | exact absurd rfl hevent | simp [cmSwitch, setState]
  · left
    rw [← h]
    cases event <;> rfl
  · left
    rw [← h]
    cases event <;> rfl

theorem awaited_cmSwitch (s : Connect) (event : CmEvent) :
    (s.cmSwitch event).awaited = s.awaited := by
  rw [awaited, cmSwitch_pc, awaited]

theorem Timely.of_cm {event : CmEvent} {ret : ℤ} (h : s.Timely) (hquiet : s.Quiet)
    (hord : s.Orderly (.cm event ret)) : (s.cmSwitch event).Timely := by
  have hpc := s.cmSwitch_pc event
  have hid : (s.cmSwitch event).cmId = s.cmId := by cases event <;> rfl
  have hsize : (s.cmSwitch event).freeSize = s.freeSize := by cases event <;> rfl
  have hbound : (s.cmSwitch event).chunksBound = s.chunksBound := by cases event <;> rfl
  refine ⟨?_, ?_, ?_, ?_, ?_⟩
  · rw [hpc, hid]
    exact h.cmId
  · rw [hpc]
    intro hle
    have hconn := h.connected hle
    obtain ⟨hroute, -⟩ := hquiet.early hle
    cases event <;> simp [cmSwitch, setState, hconn, hroute]
  · rw [hpc, hsize]
    exact h.freeSize
  · rw [hpc, hbound]
    exact h.chunks
  · intro ht harrived
    have hs : s.Exposed := by rwa [Exposed, hpc] at ht
    rw [awaited_cmSwitch]
    by_cases hbefore : s.Arrived
    · -- a state that is in place is not overwritten
      exact ((hord.1 hs).2.2 hbefore).trans (h.in_place hs hbefore)
    · rcases arrived_of_cm harrived with hsame | ⟨rfl, hle⟩
      · exact absurd hsame hbefore
      · rw [awaited, if_pos hle]
        rfl

/-- A received message is refused, or handled, or finds the session in the `ERROR` state. -/
theorem cqRecv_cases {kzalloc : Bool} {byteLen : ℕ} {msg : Message chunkPositions}
    (h : s.cqRecv kzalloc byteLen msg = some t) :
    t = s ∨
      (∃ p, handleRecvWr kzalloc byteLen msg s.session = some p ∧ p.2 ≠ 0 ∧ t = s.cqErr) ∨
      (∃ session, handleRecvWr kzalloc byteLen msg s.session = some (session, 0) ∧
        t = s.accept session msg) := by
  rw [cqRecv] at h
  split_ifs at h with herror
  · exact .inl (Option.some_inj.mp h).symm
  · obtain ⟨⟨session, ret⟩, hhandle, h⟩ := Option.bind_eq_some_iff.mp h
    simp only at h
    split_ifs at h with hret
    · exact .inr (.inl ⟨(session, ret), hhandle, hret, (Option.some_inj.mp h).symm⟩)
    · rw [not_not.mp hret] at hhandle
      exact .inr (.inr ⟨session, hhandle, (Option.some_inj.mp h).symm⟩)

theorem grows_accept (s : Connect) (session : RdmaSessionContext) (msg : Message chunkPositions) :
    s.Grows (s.accept session msg) := by
  intro pc h
  cases pc with
  | waitFreeMem =>
    have hsize : s.freeSize.isSome = true := h
    simp only [Established, accept]
    split
    · rfl
    · exact hsize
  | waitChunks =>
    have hbound : s.chunksBound = true := h
    simp [Established, accept, hbound]
  | _ => exact h

theorem Heard.of_accept {kzalloc : Bool} {byteLen : ℕ} {msg : Message chunkPositions}
    {session : RdmaSessionContext} (h : s.Heard) (harmed : s.armed = true)
    (hhandle : handleRecvWr kzalloc byteLen msg s.session = some (session, 0)) :
    (s.accept session msg).Heard := by
  refine ⟨?_, h.armed, ?_, ?_, h.collected⟩
  · intro hunarmed
    exact absurd (harmed.symm.trans hunarmed) (by decide)
  · intro hstate
    change session.state = _ at hstate
    rcases state_of_handleRecvWr hhandle with
      hsame | ⟨-, htype⟩ | ⟨hchunks, -⟩ | hevict | hstop
    · exact s.grows_accept session msg .waitFreeMem (h.freeMem (hsame ▸ hstate))
    · simp [accept, htype]
    · rw [hchunks] at hstate
      cases hstate
    · rw [hevict] at hstate
      cases hstate
    · rw [hstop] at hstate
      cases hstate
  · intro hstate
    change session.state = _ at hstate
    rcases state_of_handleRecvWr hhandle with
      hsame | ⟨hfree, -⟩ | ⟨-, htype⟩ | hevict | hstop
    · exact s.grows_accept session msg .waitChunks (h.chunks (hsame ▸ hstate))
    · rw [hfree] at hstate
      cases hstate
    · simp [accept, htype]
    · rw [hevict] at hstate
      cases hstate
    · rw [hstop] at hstate
      cases hstate

/-- Behind the connection a handled message brings no error and no disconnect. -/
theorem Quiet.of_accept {kzalloc : Bool} {byteLen : ℕ} {msg : Message chunkPositions}
    {session : RdmaSessionContext} (h : s.Quiet) (hheard : s.Heard) (harmed : s.armed = true)
    (hhandle : handleRecvWr kzalloc byteLen msg s.session = some (session, 0)) :
    (s.accept session msg).Quiet := by
  have hrank := hheard.armed harmed
  refine ⟨h.early, ?_, ?_, h.freed⟩
  · intro hs
    obtain ⟨herror, hdisconnect, hdisturbed⟩ := h.calm hs
    rw [← and_assoc]
    refine ⟨?_, hdisturbed⟩
    change session.state ≠ _ ∧ session.state ≠ _
    rcases state_of_handleRecvWr hhandle with
      hsame | ⟨hfree, -⟩ | ⟨hchunks, -⟩ | hevict | hstop
    · rw [hsame]
      exact ⟨herror, hdisconnect⟩
    · rw [hfree]
      exact ⟨nofun, nofun⟩
    · rw [hchunks]
      exact ⟨nofun, nofun⟩
    · rw [hevict]
      exact ⟨nofun, nofun⟩
    · rw [hstop]
      exact ⟨nofun, nofun⟩
  · intro hs hle
    -- messages are heard only behind the wait for the connection
    exact absurd (lt_of_lt_of_le hrank hle) (by decide)

/-- A message brings what the setup waits for, or the setup waits for what it waited for before. -/
theorem arrived_of_accept {session : RdmaSessionContext} {msg : Message chunkPositions}
    (h : (s.accept session msg).Arrived) (hrank : Pc.reqNotifyCq.rank < s.pc.rank) :
    s.Arrived ∨ (s.pc.rank ≤ Pc.waitFreeMem.rank ∧ msg.type = .freeSize) ∨
      (¬ s.pc.rank ≤ Pc.waitFreeMem.rank ∧ msg.type = .sendChunks) := by
  have hbehind : ¬ s.pc.rank ≤ Pc.waitConnected.rank :=
    not_le.mpr (lt_trans (by decide : 10 < 11) hrank)
  rw [Arrived] at h ⊢
  rw [if_neg hbehind]
  change (if s.pc.rank ≤ Pc.waitConnected.rank then _ else _) at h
  rw [if_neg hbehind] at h
  change (if s.pc.rank ≤ Pc.waitFreeMem.rank then _ else _) at h
  split_ifs at h ⊢ with hfree
  · by_cases htype : msg.type = .freeSize
    · exact .inr (.inl ⟨hfree, htype⟩)
    · left
      rwa [accept, if_neg htype] at h
  · by_cases htype : msg.type = .sendChunks
    · exact .inr (.inr ⟨hfree, htype⟩)
    · left
      simpa [accept, htype] using h

theorem Timely.of_accept {kzalloc : Bool} {byteLen : ℕ} {msg : Message chunkPositions}
    {session : RdmaSessionContext} (h : s.Timely) (hheard : s.Heard) (harmed : s.armed = true)
    (hhandle : handleRecvWr kzalloc byteLen msg s.session = some (session, 0))
    (hord : s.Orderly (.recv kzalloc byteLen msg)) : (s.accept session msg).Timely := by
  have hrank := hheard.armed harmed
  have hnot : ∀ {n : ℕ}, n ≤ Pc.reqNotifyCq.rank → ¬ s.pc.rank ≤ n := fun hn hle =>
    absurd (lt_of_lt_of_le hrank (le_trans hle hn)) (lt_irrefl _)
  have hexposed : s.pc.rank < Pc.initDiskDriver.rank → s.Exposed := fun hlt =>
    ⟨lt_trans (by decide) hrank, hlt⟩
  refine ⟨h.cmId, fun hle => absurd hle (hnot (by decide)), fun hle => absurd hle (hnot le_rfl),
    ?_, ?_⟩
  · intro hle
    have hs := hexposed (lt_of_le_of_lt hle (by decide))
    have htype := (hord hs).2 hle
    have hbound := h.chunks hle
    simp [accept, htype, hbound]
  · intro hs harrived
    change session.state = s.awaited
    by_cases hbefore : s.Arrived
    · have hkept := (hord hs).1
      rw [hhandle] at hkept
      exact ((of_decide_eq_true hkept).2 hbefore).trans (h.in_place hs hbefore)
    · obtain ⟨hsize, hchunks⟩ := state_of_awaited hhandle
      rw [awaited, if_neg (hnot (by decide))]
      rcases arrived_of_accept harrived hrank with hsame | ⟨hle, htype⟩ | ⟨hgt, htype⟩
      · exact absurd hsame hbefore
      · rw [if_pos hle, hsize htype]
      · rw [if_neg hgt, hchunks htype]

theorem Heard.of_cqErr (h : s.Heard) : s.cqErr.Heard :=
  ⟨fun _ => .inr (.inl rfl), h.armed, nofun, nofun, fun _ => rfl⟩

/-- A refused completion stays behind the setup. -/
theorem Quiet.of_cqErr (h : s.Quiet) (hheard : s.Heard) (harmed : s.armed = true)
    (hexposed : ¬ s.Exposed) : s.cqErr.Quiet := by
  have hrank := hheard.armed harmed
  refine ⟨h.early, fun hs => absurd hs hexposed, fun hs => absurd hs hexposed, ?_⟩
  intro _
  refine not_lt.mp fun hlt => hexposed ⟨?_, hlt⟩
  exact lt_trans (by decide) hrank

theorem Timely.of_cqErr (h : s.Timely) (hexposed : ¬ s.Exposed) : s.cqErr.Timely :=
  ⟨h.cmId, h.connected, h.freeSize, h.chunks, fun hs => absurd hs hexposed⟩

/-! ### Runs -/

/-- The invariant of orderly runs. -/
structure Inv (s : Connect) : Prop where
  progress : s.Progress
  heard : s.Heard
  quiet : s.Quiet
  timely : s.Timely

theorem inv_init : init.Inv where
  progress := ⟨nofun, nofun, nofun, by simp [init], le_rfl,
    fun _ _ hlt => absurd hlt (Nat.not_lt_zero _)⟩
  heard := by constructor <;> decide
  quiet := by constructor <;> decide
  timely := by constructor <;> decide

theorem Inv.of_moves (h : s.Inv) (hmoves : Moves s t) : t.Inv := by
  obtain ⟨ok, hadv, hkept⟩ := hmoves
  exact ⟨h.progress.of_advance hadv, h.heard.of_advance hadv hkept,
    h.quiet.of_advance hadv hkept, h.timely.of_advance hadv hkept⟩

/-- An event whose handler destroys the id comes behind the disk driver only. -/
theorem Inv.of_cm (h : s.Inv) {event : CmEvent} {ret : ℤ} (hord : s.Orderly (.cm event ret)) :
    (s.cmEvent event ret).Inv := by
  have hprog : (s.cmSwitch event).Progress :=
    h.progress.of_grows (s.cmSwitch_pc event) (s.cmSwitch_trace event) (s.grows_cmSwitch event)
  have hheard := h.heard.of_cm event
  have hquiet := h.quiet.of_cm h.progress hord
  have htimely := h.timely.of_cm h.quiet hord
  rw [cmEvent]
  dsimp only
  split_ifs with hret
  · exact ⟨hprog, hheard, hquiet, htimely⟩
  · have hgrows : (s.cmSwitch event).Grows { s.cmSwitch event with cmId := false } := by
      intro pc hpc
      cases pc <;> exact hpc
    refine ⟨hprog.of_grows rfl rfl hgrows,
      ⟨hheard.unarmed, hheard.armed, hheard.freeMem, hheard.chunks, hheard.collected⟩,
      ⟨hquiet.early, hquiet.calm, hquiet.clean, hquiet.freed⟩,
      ⟨fun _ hlt => ?_, htimely.connected, htimely.freeSize, htimely.chunks, htimely.in_place⟩⟩
    have hlt' : s.pc.rank < Pc.initDiskDriver.rank := by rwa [← s.cmSwitch_pc event]
    exact absurd (hord.2 hlt').2 hret

theorem Inv.of_step {op : Op} (h : s.Inv) (hord : s.Orderly op) (hstep : s.step op = some t) :
    t.Inv := by
  cases op with
  | call ret => exact h.of_moves (moves_of_call h.progress h.heard h.quiet h.timely hord hstep)
  | wake =>
    simp only [step] at hstep
    split_ifs at hstep with htest
    exact h.of_moves (moves_of_leaveWait (waitedFor_of_test h.heard h.quiet htest) hstep)
  | signal =>
    simp only [step] at hstep
    split_ifs at hstep
    exact h.of_moves (moves_of_leaveWait hord hstep)
  | cm event ret =>
    simp only [step] at hstep
    split_ifs at hstep
    obtain rfl := Option.some_inj.mp hstep
    exact h.of_cm hord
  | recv kzalloc byteLen msg =>
    simp only [step] at hstep
    split_ifs at hstep with harmed
    rcases cqRecv_cases hstep with rfl | ⟨p, hp, hret, rfl⟩ | ⟨session, hhandle, rfl⟩
    · exact h
    -- the handler refuses no message of an exposed setup
    · have hexposed : ¬ s.Exposed := by
        intro hs
        have hzero := (hord hs).1
        rw [hp] at hzero
        exact hret (of_decide_eq_true hzero).1
      exact ⟨h.progress.of_grows rfl rfl fun _ hpc => hpc, h.heard.of_cqErr,
        h.quiet.of_cqErr h.heard harmed hexposed, h.timely.of_cqErr hexposed⟩
    · exact ⟨h.progress.of_grows rfl rfl (s.grows_accept session msg),
        h.heard.of_accept harmed hhandle, h.quiet.of_accept h.heard harmed hhandle,
        h.timely.of_accept h.heard harmed hhandle hord⟩
  | cqError =>
    simp only [step] at hstep
    split_ifs at hstep with henabled
    obtain rfl := Option.some_inj.mp hstep
    exact ⟨h.progress.of_grows rfl rfl fun _ hpc => hpc, h.heard.of_cqErr,
      h.quiet.of_cqErr h.heard henabled.1 hord, h.timely.of_cqErr hord⟩
  | collect =>
    simp only [step] at hstep
    split_ifs at hstep with henabled
    obtain rfl := Option.some_inj.mp hstep
    exact ⟨h.progress.of_grows rfl rfl fun _ hpc => hpc,
      { h.heard with collected := fun _ => henabled.1 }, ⟨h.quiet.early, h.quiet.calm,
        h.quiet.clean, h.quiet.freed⟩, ⟨h.timely.cmId, h.timely.connected, h.timely.freeSize,
        h.timely.chunks, h.timely.in_place⟩⟩

/-- An error or a disconnect finds the setup at the one wait that looks for them. -/
theorem Inv.errors (h : s.Inv) (hwait : s.waitTest ≠ none)
    (hstate : s.session.state = .error ∨ s.session.state = .cmDisconnect) :
    ∃ s' ret, s.step .wake = some s' ∧ s'.pc = .returned ret ∧ ret ≠ 0 := by
  -- behind the route neither of the two states is met
  have hcalm : ¬ s.Exposed := by
    intro hs
    obtain ⟨herror, hdisconnect, -⟩ := h.quiet.calm hs
    exact hstate.elim herror hdisconnect
  cases hpc : s.pc with
  | waitRoute =>
    have htest : SessionState.routeResolved.value ≤ s.session.state.value := by
      rcases hstate with hstate | hstate <;> rw [hstate] <;> decide
    have hroute : s.session.state ≠ .routeResolved := by
      rcases hstate with hstate | hstate <;> rw [hstate] <;> decide
    refine ⟨s.record false (.returned (-4)), -4, ?_, rfl, by decide⟩
    simp [step, waitTest, leaveWait, hpc, htest, hroute]
  | waitConnected | waitFreeMem | waitChunks =>
    exact absurd (by rw [Exposed, hpc]; decide) hcalm
  | _ => simp [waitTest, hpc] at hwait

theorem Inv.steps (h : s.Inv) : s.trace.length ≤ 17 := by
  refine h.progress.steps.trans ?_
  cases hpc : s.pc with
  | crashed => exact absurd hpc h.progress.alive
  | _ => exact Nat.le_of_ble_eq_true rfl

/-- The wait at hand ends by its test once what it is for has come. -/
theorem Inv.canGoOn_or_awaits (h : s.Inv) (hexposed : s.Exposed) (state : SessionState)
    (hawaited : s.awaited = state) (htest : s.session.state = state → s.waitTest = some true)
    (hpending : ¬ s.Arrived →
      (s.pc = .waitConnected ∧ s.cleanlyConnected = false) ∨
        (s.pc = .waitFreeMem ∧ s.freeSize = none) ∨ (s.pc = .waitChunks ∧ s.chunksBound = false)) :
    s.CanGoOn ∨ s.Awaits := by
  by_cases harrived : s.Arrived
  · -- what has come is still in the state, so the test holds
    exact .inl (.inr (htest ((h.timely.in_place hexposed harrived).trans hawaited)))
  · obtain ⟨herror, hdisconnect, hdisturbed⟩ := h.quiet.calm hexposed
    exact .inr ⟨.inr (hpending harrived),
      h.timely.cmId (Nat.zero_lt_of_lt hexposed.1) hexposed.2, hdisturbed, herror, hdisconnect⟩

theorem isSome_call (ret : ℤ) (hrun : s.pc.rank ≤ Pc.initDiskDriver.rank)
    (hwait : s.waitTest = none) : (s.call ret).isSome := by
  cases hpc : s.pc with
  | returned r =>
    rw [hpc] at hrun
    exact absurd hrun (by decide : ¬ 17 ≤ 16)
  | crashed =>
    rw [hpc] at hrun
    exact absurd hrun (by decide)
  | waitRoute | waitConnected | waitFreeMem | waitChunks => simp [waitTest, hpc] at hwait
  | _ =>
    simp only [call, hpc]
    (try split_ifs) <;> rfl

/-- The wait for the route ends at any state behind it, so also after an error. -/
theorem Inv.canGoOn_or_awaits_route (h : s.Inv) (hpc : s.pc = .waitRoute) :
    s.CanGoOn ∨ s.Awaits := by
  by_cases hstate : SessionState.routeResolved.value ≤ s.session.state.value
  · exact .inl (.inr (by simp [waitTest, hpc, hstate]))
  · have hbefore : s.session.state.value < SessionState.routeResolved.value := not_le.mp hstate
    refine .inr ⟨.inl ⟨hpc, hbefore⟩,
      h.timely.cmId (by rw [hpc]; decide) (by rw [hpc]; decide),
      (h.quiet.early (by rw [hpc])).2, ?_, ?_⟩
    · intro heq
      rw [heq] at hbefore
      exact absurd hbefore (by decide)
    · intro heq
      rw [heq] at hbefore
      exact absurd hbefore (by decide)

theorem Inv.returns (h : s.Inv) : (∃ ret, s.pc = .returned ret) ∨ s.CanGoOn ∨ s.Awaits := by
  cases hpc : s.pc with
  | returned ret => exact .inl ⟨ret, rfl⟩
  | crashed => exact absurd hpc h.progress.alive
  | waitRoute => exact .inr (h.canGoOn_or_awaits_route hpc)
  | waitConnected =>
    right
    refine h.canGoOn_or_awaits (by rw [Exposed, hpc]; decide) .connected ?_ ?_ ?_
    · simp [awaited, hpc]
    · intro hstate
      simp [waitTest, hpc, hstate]
    · intro hnot
      exact .inl ⟨hpc, by simpa [Arrived, hpc] using hnot⟩
  | waitFreeMem =>
    right
    refine h.canGoOn_or_awaits (by rw [Exposed, hpc]; decide) .freeMemRecv ?_ ?_ ?_
    · rw [awaited, hpc]
      rfl
    · intro hstate
      simp [waitTest, hpc, hstate]
    · intro hnot
      rw [Arrived, hpc, if_neg (by decide), if_pos (by decide)] at hnot
      exact .inr (.inl ⟨hpc, by simpa using hnot⟩)
  | waitChunks =>
    right
    refine h.canGoOn_or_awaits (by rw [Exposed, hpc]; decide) .receivedChunks ?_ ?_ ?_
    · rw [awaited, hpc]
      rfl
    · intro hstate
      simp [waitTest, hpc, hstate]
    · intro hnot
      rw [Arrived, hpc, if_neg (by decide), if_neg (by decide)] at hnot
      exact .inr (.inr ⟨hpc, by simpa using hnot⟩)
  | initDiskDriver =>
    exact .inr (.inl (.inl fun ret => isSome_call ret (by rw [hpc]) (by simp [waitTest, hpc])))
  | _ =>
    exact .inr (.inl (.inl fun ret =>
      isSome_call ret (by rw [hpc]; decide) (by simp [waitTest, hpc])))

theorem Inv.stopsOnFailure (h : s.Inv) : s.StopsOnFailure :=
  ⟨h.progress.alive, h.progress.last, h.progress.nonzero, h.progress.complete, h.errors, h.steps,
    h.returns⟩

end Connect

/-- A message that reports `gb` gigabytes and marks no chunk. -/
def freeSizeMessage (gb : ℤ) : Message chunkPositions := ⟨fun _ => 0, fun _ => 0, gb, .freeSize⟩

/-- A message that brings one chunk. -/
def chunksMessage : Message chunkPositions :=
  ⟨fun _ => 4096, fun i => if i.val = 0 then 7 else 0, 1, .sendChunks⟩

/-- The setup up to the request for chunks; `gb` is the size that the server reports. -/
def connectedSetup (gb : ℤ) : List Connect.Op :=
  [.call 0, .call 0, .cm .addrResolved 0, .cm .routeResolved 0, .wake, .call 0, .call 0, .call 0,
    .call 0, .call 0, .call 0, .call 0, .cm .established 0, .wake, .call 0,
    .recv true sizeofMessage (freeSizeMessage gb), .wake, .call 0, .call 0]

/-- The whole setup, with a server that has `gb` gigabytes. -/
def completeSetup (gb : ℤ) : List Connect.Op :=
  connectedSetup gb ++ [.recv true sizeofMessage chunksMessage, .wake, .call 0]

/-- A signal is pending from the connection on, so that the waits for the two messages of
the server end at once. -/
def signalledSetup : List Connect.Op :=
  [.call 0, .call 0, .cm .addrResolved 0, .cm .routeResolved 0, .wake, .call 0, .call 0, .call 0,
    .call 0, .call 0, .call 0, .call 0, .cm .established 0, .wake, .call 0, .signal, .call 0,
    .call 0, .signal, .call 0]

end SystemDev.Octopus
