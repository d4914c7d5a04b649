import SystemDev.Octopus.Queues

/-!
# Taking the driver down

Three threads may take the driver down: the connection manager when the server disconnects,
the completion handler on its error exit, and the exit of the module. Each collects the RDMA
side with `octopus_disconenct_and_collect_resource`, which waits for the end of the
connection and then releases the command lists and the chunk table; the first and the third
free the block device behind that. A flag on either side lets one thread through. The flags
are tested and set in two steps.

Meanwhile the disk is registered, so requests are dispatched and completions are handled. A
thread that finds the first flag set goes on to the block device at once; only then is the
disk unregistered before the buffers are released. Unregistering waits until every started
request has ended, but the handler gives the command of a request back after it has ended
the request.

## Main results

* `Teardown.no_use_after_release` — nothing runs on released buffers when each release waits
  for the block device and for the handler
-/

namespace SystemDev.Octopus

open SystemDev.Library

variable {c m : ℕ}

/-- The threads that take the driver down. -/
inductive Entry
  | disconnected
  | cqError
  | moduleExit
  deriving DecidableEq

/-- Where such a thread stands: at the test and the store of the flag of
`octopus_disconenct_and_collect_resource`, in its wait, at the test and the store of the flag
of `octopus_free_block_devicce`, in the calls behind them, and behind these calls. -/
inductive TeardownPc
  | idle
  | collecting
  | marking
  | waiting
  | freeingDevice
  | markingDevice
  | unregistering
  | freedDevice
  | returned
  deriving DecidableEq

/-- The driver with the threads that take it down. `released` records that
`octopus_free_buffers` has run, `registered` that the disk takes requests. -/
structure Teardown (c m : ℕ) where
  queues : Queues c m
  pcs : Entry → TeardownPc
  freed : Bool
  devFreed : Bool
  cmDisconnect : Bool
  released : Bool
  registered : Bool

/-- The dispatch of a request. -/
def PoolOp.isEntry {depth : ℕ} : PoolOp depth m → Bool
  | .enter _ _ => true
  | _ => false

/-- The handler is outside of `rdma_read_done` and `rdma_write_done`. -/
def Handler.atRest {depth : ℕ} : Handler depth → Bool
  | .idle | .failed _ => true
  | _ => false

namespace Teardown

/-- What can happen next: a step at a queue, a thread begins or goes on, or the connection
has ended. A `signal` ends the wait of a thread early. -/
inductive Op (c m : ℕ)
  | queue (q : Fin c) (op : PoolOp rmemQueueDepth m)
  | enter (e : Entry)
  | advance (e : Entry) (signal : Bool)
  | timewaitExit

/-- The driver at work. -/
def init (c m : ℕ) : Teardown c m where
  queues := Queues.init c m
  pcs := fun _ => .idle
  freed := false
  devFreed := false
  cmDisconnect := false
  released := false
  registered := true

/-- Move a thread. -/
def goto (s : Teardown c m) (e : Entry) (pc : TeardownPc) : Teardown c m :=
  { s with pcs := Function.update s.pcs e pc }

/-- Where a thread goes behind `octopus_disconenct_and_collect_resource`. -/
def behindCollect : Entry → TeardownPc
  | .cqError => .returned
  | .disconnected | .moduleExit => .freeingDevice

/-- A thread begins. The handler takes its error exit outside of a dispatch, or when the
dispatch has failed. -/
def enter (s : Teardown c m) (e : Entry) : Option (Teardown c m) :=
  if s.pcs e ≠ .idle then none
  else
    match e with
    | .disconnected => if s.freed then s.goto e .returned else s.goto e .collecting
    | .cqError =>
      if ∀ q, (s.queues q).handler.atRest then s.goto e .collecting else none
    | .moduleExit => s.goto e .collecting

/-- A thread goes on. -/
def advance (s : Teardown c m) (e : Entry) (signal : Bool) : Option (Teardown c m) :=
  match s.pcs e with
  | .collecting => if s.freed then s.goto e (behindCollect e) else s.goto e .marking
  | .marking => some { s.goto e .waiting with freed := true }
  | .waiting =>
    -- the result of the wait is not tested, and `octopus_free_buffers` follows
    if s.cmDisconnect ∨ signal then some { s.goto e (behindCollect e) with released := true }
    else none
  | .freeingDevice => if s.devFreed then s.goto e .returned else s.goto e .markingDevice
  | .markingDevice => some { s.goto e .unregistering with devFreed := true }
  | .unregistering =>
    -- `blk_cleanup_queue` waits for the started requests
    if ∀ q, (s.queues q).started = 0 then
      some { s.goto e .freedDevice with registered := false }
    else none
  | .idle | .freedDevice | .returned => none

/-- One step. A request is dispatched while the disk is registered, and a completion polled
while the handler is not on its error exit. -/
def step (s : Teardown c m) : Op c m → Option (Teardown c m)
  | .queue q op =>
    if (op.isEntry ∧ ¬ s.registered) ∨ (op.isPoll ∧ s.pcs .cqError ≠ .idle) then none
    else (s.queues.step q op).map fun queues => { s with queues := queues }
  | .enter e => s.enter e
  | .advance e signal => s.advance e signal
  | .timewaitExit => some { s with cmDisconnect := true }

/-- The step is one of `rmem_queue_rq` behind its entry, or of `rdma_read_done` or
`rdma_write_done`, and works on the command lists or the chunk table. -/
def Op.touches : Op c m → Bool
  | .queue _ op => !op.isEntry && !op.isPoll
  | _ => false

/-- The step releases the buffers. -/
def Releases (s : Teardown c m) : Op c m → Prop
  | .advance e signal => s.pcs e = .waiting ∧ (s.cmDisconnect ∨ signal)
  | _ => False

instance (s : Teardown c m) : (op : Op c m) → Decidable (s.Releases op)
  | .advance _ _ => inferInstanceAs (Decidable (_ ∧ _))
  | .queue _ _ | .enter _ | .timewaitExit => .isFalse id

/-- The step uses no released buffer, and releases the buffers only when the disk is
unregistered and no command is outstanding. -/
def Safe (s : Teardown c m) (op : Op c m) : Prop :=
  ∀ t, s.step op = some t →
    (op.touches → s.released = false) ∧
      (s.Releases op → s.registered = false ∧ ∀ q, (s.queues q).outstanding = [])

/-- A thread has come to the end of `octopus_free_block_devicce`. -/
def DeviceFreed (s : Teardown c m) : Prop := ∃ e, s.pcs e = .freedDevice

instance (s : Teardown c m) : Decidable s.DeviceFreed :=
  decidable_of_iff (∃ e ∈ [Entry.disconnected, .cqError, .moduleExit], s.pcs e = .freedDevice)
    ⟨fun ⟨e, _, he⟩ => ⟨e, he⟩, fun ⟨e, he⟩ => ⟨e, by cases e <;> decide, he⟩⟩

/-- The wait in front of a release ends only after another thread has come to the end of
`octopus_free_block_devicce`, and while no handler call is inside `rdma_read_done` or
`rdma_write_done`. -/
def Ordered (s : Teardown c m) (op : Op c m) : Prop :=
  s.Releases op → s.DeviceFreed ∧ ∀ q, (s.queues q).handler.atRest

instance (s : Teardown c m) (op : Op c m) : Decidable (s.Ordered op) :=
  inferInstanceAs (Decidable (_ → _))

/-! ### A queue without started requests -/

section Drained

variable {s t : Pool rmemQueueDepth m} {op : PoolOp rmemQueueDepth m}

/-- Only an entry starts a request. -/
theorem started_le_of_step (h : s.step op = some t) (hop : op.isEntry = false) :
    t.started ≤ s.started := by
  cases Pool.step_effect h with
  | enter here => cases hop
  | refuse here | postFail here _ | endRq here _ => exact Nat.sub_le _ _
  | _ => exact Nat.le_refl _

/-- Without started requests no submitter is under way, no transfer is outstanding, and the
handler has none that it has not ended. -/
theorem idle_of_started (h : Counted s) (hnone : s.started = 0) :
    (∀ u, s.submitters u = .idle) ∧ s.outstanding = [] ∧ s.handler.unfinished = 0 := by
  rw [Counted, hnone] at h
  have hactive : ∑ u, (s.submitters u).active = 0 := by omega
  refine ⟨fun u => ?_, List.length_eq_zero_iff.mp (by omega), by omega⟩
  have hu := (Finset.sum_eq_zero_iff.mp hactive) u (Finset.mem_univ u)
  cases hpos : s.submitters u with
  | idle => rfl
  | _ =>
    rw [hpos] at hu
    cases hu

/-- Then only an entry can be next. -/
theorem isEntry_of_started (h : Counted s) (hnone : s.started = 0) (hrest : s.handler.atRest)
    (hstep : s.step op = some t) : op.isEntry = true := by
  obtain ⟨hidle, hempty, hdone⟩ := idle_of_started h hnone
  have hhandler : s.handler = .idle := by
    cases hpos : s.handler with
    | idle => rfl
    | failed w =>
      rw [hpos] at hdone
      cases hdone
    | _ =>
      rw [hpos] at hrest
      cases hrest
  cases Pool.step_effect hstep with
  | enter here => rfl
  | refuse here | scan here _ | take here _ | miss here _ | store here | post here
  | postFail here _ =>
    cases (hidle _).symm.trans here
  | complete here mem =>
    rw [hempty] at mem
    cases mem
  | readRq here | endRq here _ | endFail here _ | storeFree here | clearRq here =>
    cases hhandler.symm.trans here

end Drained

/-! ### Releases behind the block device -/

/-- What every run keeps: the disk is unregistered at the end of
`octopus_free_block_devicce`, and no request is started behind that. -/
structure Drained (s : Teardown c m) : Prop where
  tallied : s.queues.Tallied
  gone : s.registered = false ↔ s.DeviceFreed
  drained : s.registered = false → ∀ q, (s.queues q).started = 0

variable {s t : Teardown c m} {op : Op c m} {ops : List (Op c m)}

theorem drained_init (c m : ℕ) : (init c m).Drained where
  tallied := Queues.tallied_init c m
  gone := iff_of_false nofun nofun
  drained := nofun

theorem queue_cases {q : Fin c} {op : PoolOp rmemQueueDepth m}
    (h : s.step (.queue q op) = some t) :
    (op.isEntry → s.registered = true) ∧
      ∃ queues, s.queues.step q op = some queues ∧ t = { s with queues := queues } := by
  rw [step] at h
  split_ifs at h with hguard
  obtain ⟨queues, hqueues, hrest⟩ := Option.map_eq_some_iff.mp h
  refine ⟨fun hentry => ?_, queues, hqueues, hrest.symm⟩
  by_contra hgone
  exact hguard (.inl ⟨hentry, hgone⟩)

/-- Behind the block device a step at a queue starts no request. -/
theorem Drained.of_queue {q : Fin c} {op : PoolOp rmemQueueDepth m} (h : s.Drained)
    (hstep : s.step (.queue q op) = some t) : t.Drained := by
  obtain ⟨hentry, queues, hqueues, rfl⟩ := queue_cases hstep
  refine ⟨h.tallied.of_step hqueues, h.gone, fun hgone r => ?_⟩
  obtain ⟨-, p, hp, rfl⟩ := Queues.step_cases hqueues
  have hnot : op.isEntry = false := by
    cases hcase : op.isEntry with
    | false => rfl
    | true => cases (hentry hcase).symm.trans hgone
  by_cases hr : r = q
  · subst hr
    have hle := started_le_of_step hp hnot
    rw [h.drained hgone r] at hle
    simpa using hle
  · simpa [Function.update_of_ne hr] using h.drained hgone r

theorem deviceFreed_goto {e : Entry} {pc : TeardownPc} (hold : s.pcs e ≠ .freedDevice)
    (hnew : pc ≠ .freedDevice) : (s.goto e pc).DeviceFreed ↔ s.DeviceFreed := by
  refine exists_congr fun e' => ?_
  by_cases he : e' = e
  · subst he
    simp only [goto, Function.update_self]
    exact iff_of_false hnew hold
  · simp only [goto, Function.update_of_ne he]

/-- A thread moves elsewhere, and at most sets a flag or releases the buffers. -/
theorem Drained.of_goto (h : s.Drained) {e : Entry} {pc : TeardownPc}
    {freed devFreed released : Bool} (hold : s.pcs e ≠ .freedDevice)
    (hnew : pc ≠ .freedDevice) :
    Drained { s.goto e pc with freed := freed, devFreed := devFreed, released := released } where
  tallied := h.tallied
  gone := h.gone.trans (deviceFreed_goto hold hnew).symm
  drained := h.drained

theorem behindCollect_ne (e : Entry) : behindCollect e ≠ .freedDevice := by
  cases e <;> exact nofun

/-- A thread begins. -/
theorem enter_cases {e : Entry} (h : s.enter e = some t) :
    s.pcs e = .idle ∧ (t = s.goto e .returned ∨ t = s.goto e .collecting) := by
  cases e with
  | disconnected =>
    simp only [enter] at h
    split_ifs at h with hidle hfreed
    · exact ⟨not_not.mp hidle, .inl (Option.some_inj.mp h).symm⟩
    · exact ⟨not_not.mp hidle, .inr (Option.some_inj.mp h).symm⟩
  | cqError | moduleExit =>
    simp only [enter] at h
    split_ifs at h with hidle
    exact ⟨not_not.mp hidle, .inr (Option.some_inj.mp h).symm⟩

/-- What a thread does next: it moves and at most sets a flag, it releases the buffers behind
its wait, or it unregisters the disk when no request is started. -/
theorem advance_cases {e : Entry} {signal : Bool} (h : s.advance e signal = some t) :
    (∃ pc freed devFreed, s.pcs e ≠ .freedDevice ∧ pc ≠ .freedDevice ∧
        t = { s.goto e pc with freed := freed, devFreed := devFreed }) ∨
      (s.Releases (.advance e signal) ∧
        t = { s.goto e (behindCollect e) with released := true }) ∨
      (s.pcs e = .unregistering ∧ (∀ q, (s.queues q).started = 0) ∧
        t = { s.goto e .freedDevice with registered := false }) := by
  rw [advance] at h
  split at h
  case h_1 hpc =>
    have hold := hpc.trans_ne (by decide : TeardownPc.collecting ≠ .freedDevice)
    split_ifs at h
    all_goals obtain rfl := Option.some_inj.mp h
    · exact .inl ⟨behindCollect e, s.freed, s.devFreed, hold, behindCollect_ne e, rfl⟩
    · exact .inl ⟨.marking, s.freed, s.devFreed, hold, nofun, rfl⟩
  case h_2 hpc =>
    obtain rfl := Option.some_inj.mp h
    exact .inl ⟨.waiting, true, s.devFreed, hpc.trans_ne nofun, nofun, rfl⟩
  case h_3 hpc =>
    split_ifs at h with hends
    exact .inr (.inl ⟨⟨hpc, hends⟩, (Option.some_inj.mp h).symm⟩)
  case h_4 hpc =>
    have hold := hpc.trans_ne (by decide : TeardownPc.freeingDevice ≠ .freedDevice)
    split_ifs at h
    all_goals obtain rfl := Option.some_inj.mp h
    · exact .inl ⟨.returned, s.freed, s.devFreed, hold, nofun, rfl⟩
    · exact .inl ⟨.markingDevice, s.freed, s.devFreed, hold, nofun, rfl⟩
  case h_5 hpc =>
    obtain rfl := Option.some_inj.mp h
    exact .inl ⟨.unregistering, s.freed, true, hpc.trans_ne nofun, nofun, rfl⟩
  case h_6 hpc =>
    split_ifs at h with hnone
    exact .inr (.inr ⟨hpc, hnone, (Option.some_inj.mp h).symm⟩)
  all_goals cases h

theorem Drained.of_step (h : s.Drained) (hstep : s.step op = some t) : t.Drained := by
  cases op with
  | queue q op => exact h.of_queue hstep
  | enter e =>
    obtain ⟨hidle, rfl | rfl⟩ := enter_cases hstep
    all_goals exact h.of_goto (hidle.trans_ne nofun) nofun
  | advance e signal =>
    obtain ⟨pc, freed, devFreed, hold, hnew, rfl⟩ | ⟨hreleases, rfl⟩ | ⟨hpc, hnone, rfl⟩ :=
      advance_cases hstep
    · exact h.of_goto hold hnew
    · exact h.of_goto (hreleases.1.trans_ne nofun) (behindCollect_ne e)
    · exact ⟨h.tallied, iff_of_true rfl ⟨e, Function.update_self ..⟩, fun _ => hnone⟩
  | timewaitExit =>
    obtain rfl := Option.some_inj.mp hstep
    exact ⟨h.tallied, h.gone, h.drained⟩

/-- A release is safe exactly behind the block device. -/
theorem Drained.safe_iff (h : s.Drained) (hreleases : s.Releases op)
    (hstep : s.step op = some t) : s.Safe op ↔ s.DeviceFreed := by
  constructor
  · intro hsafe
    exact h.gone.mp ((hsafe t hstep).2 hreleases).1
  · intro hfreed u hu
    have hgone := h.gone.mpr hfreed
    refine ⟨fun htouches => ?_, fun _ => ⟨hgone, fun q => ?_⟩⟩
    · cases op with
      | advance e signal => cases htouches
      | _ => exact hreleases.elim
    · exact (idle_of_started (h.tallied q).2 (h.drained hgone q)).2.1

/-- What ordered steps keep besides: when the buffers are released the block device is gone
and the handler is done with them. -/
structure Orderly (s : Teardown c m) : Prop extends s.Drained where
  released : s.released = true →
    s.registered = false ∧ ∀ q, (s.queues q).handler.atRest

theorem orderly_init (c m : ℕ) : (init c m).Orderly where
  toDrained := drained_init c m
  released := nofun

/-- Behind a release no step is left at any queue. -/
theorem Orderly.no_step_released (h : s.Orderly) (hreleased : s.released = true) {q : Fin c}
    {op : PoolOp rmemQueueDepth m} : s.step (.queue q op) = none := by
  rw [Option.eq_none_iff_forall_ne_some]
  intro t hstep
  obtain ⟨hentry, queues, hqueues, -⟩ := queue_cases hstep
  obtain ⟨-, p, hp, -⟩ := Queues.step_cases hqueues
  obtain ⟨hgone, hrest⟩ := h.released hreleased
  have his := isEntry_of_started (h.tallied q).2 (h.drained hgone q) (hrest q) hp
  cases (hentry his).symm.trans hgone

theorem Orderly.of_step (h : s.Orderly) (hop : s.Ordered op) (hstep : s.step op = some t) :
    t.Orderly := by
  refine ⟨h.toDrained.of_step hstep, fun hreleased => ?_⟩
  cases op with
  | queue q op =>
    obtain ⟨-, queues, -, rfl⟩ := queue_cases hstep
    cases (h.no_step_released hreleased).symm.trans hstep
  | enter e =>
    obtain ⟨-, rfl | rfl⟩ := enter_cases hstep
    all_goals exact h.released hreleased
  | advance e signal =>
    obtain ⟨pc, freed, devFreed, -, -, rfl⟩ | ⟨hreleases, rfl⟩ | ⟨-, -, rfl⟩ :=
      advance_cases hstep
    · exact h.released hreleased
    · obtain ⟨hfreed, hrest⟩ := hop hreleases
      exact ⟨h.gone.mpr hfreed, hrest⟩
    · exact ⟨rfl, (h.released hreleased).2⟩
  | timewaitExit =>
    obtain rfl := Option.some_inj.mp hstep
    exact h.released hreleased

theorem Orderly.safe (h : s.Orderly) (hop : s.Ordered op) : s.Safe op := by
  intro t hstep
  refine ⟨fun htouches => ?_, fun hreleases => ?_⟩
  · cases op with
    | queue q op =>
      cases hreleased : s.released with
      | false => rfl
      | true => cases (h.no_step_released hreleased).symm.trans hstep
    | _ => cases htouches
  · have hsafe := (h.toDrained.safe_iff hreleases hstep).mpr (hop hreleases).1
    exact (hsafe t hstep).2 hreleases

/-- In every run whose releases are ordered, no step uses a released buffer, and the buffers
are released only when the disk is unregistered and no command is outstanding. In any run, a
release in front of the block device breaks this. -/
theorem no_use_after_release (c m : ℕ) (ops : List (Op c m)) :
    (EachStep Teardown.step Ordered (init c m) ops →
        EachStep Teardown.step Safe (init c m) ops) ∧
      ∀ s op t, run Teardown.step (init c m) ops = some s → s.Releases op →
        s.step op = some t → (s.Safe op ↔ s.DeviceFreed) := by
  constructor
  · intro hops
    have hiff : EachStep Teardown.step Safe (init c m) ops ↔
        EachStep Teardown.step (fun _ _ => True) (init c m) ops :=
      eachStep_iff (fun _ _ _ hs hop hstep => Orderly.of_step hs hop hstep)
        (fun _ _ hs hop => iff_true_intro (Orderly.safe hs hop)) (orderly_init c m) hops
    exact hiff.mpr (eachStep_of_forall fun _ _ => trivial)
  · intro s op t hrun hreleases hstep
    have hs : s.Drained :=
      run_keeps (fun _ _ _ hs hstep => Drained.of_step hs hstep) (drained_init c m) hrun
    exact hs.safe_iff hreleases hstep

/-- The server disconnects; while the connection manager waits for the end of the connection
the module exits and frees the block device. -/
theorem no_use_after_release_exitFirst :
    let ops : List (Op 1 1) := [.enter .disconnected, .advance .disconnected false,
      .advance .disconnected false, .enter .moduleExit, .advance .moduleExit false,
      .advance .moduleExit false, .advance .moduleExit false, .advance .moduleExit false,
      .timewaitExit, .advance .disconnected false]
    ((run Teardown.step (init 1 1) ops).any fun s => s.released) ∧
      EachStep Teardown.step Safe (init 1 1) ops :=
  ⟨by decide +kernel, (no_use_after_release 1 1 _).1 (by decide +kernel)⟩

/-- The module exits, and a request is dispatched before the block device is freed. -/
theorem request_uses_released_commands :
    let ops : List (Op 1 1) := [.enter .moduleExit, .advance .moduleExit false,
      .advance .moduleExit false, .timewaitExit, .advance .moduleExit false,
      .queue 0 (.enter 0 pageWrite)]
    ∃ s t, run Teardown.step (init 1 1) ops = some s ∧ s.released = true ∧
      s.step (.queue 0 (.scan 0)) = some t ∧
      (Op.queue 0 (.scan 0) : Op 1 1).touches = true := by
  refine ⟨_, _, rfl, rfl, rfl, rfl⟩

end Teardown

end SystemDev.Octopus
