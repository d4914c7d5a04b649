import SystemDev.Octopus.Setup
import SystemDev.Octopus.Transfer

/-!
# The chunks behind the disk

The disk is registered with a capacity fixed when the driver is compiled. The table that
the I/O path looks its chunks up in has as many entries as the server reported gigabytes
in its last `FREE_SIZE` message. The two agree only when the server has enough.

## Main results

* `length_of_bindRemoteMemoryChunks` — binding chunks does not resize the table
* `Connect.Sized.of_step` — the length of the table in every run
* `every_sector_backed_iff` — when every sector of the disk has its entry
-/

namespace SystemDev.Octopus

open SystemDev.Library SystemDev.Rdma

/-! ### The length of the table -/

theorem length_of_bindLoop {n : ℕ} {msg : Message n} {is : List (Fin n)}
    {l l' : RemoteMappingChunkList} (h : bindLoop msg is l = some l') :
    l'.remoteChunk.length = l.remoteChunk.length := by
  induction is generalizing l with
  | nil =>
    cases h
    rfl
  | cons i is ih =>
    rw [bindLoop] at h
    split_ifs at h with hfull hzero hin
    · cases h
      rfl
    · exact ih h
    · rw [ih h]
      exact List.length_set

theorem length_of_bindRemoteMemoryChunks {n : ℕ} {msg : Message n}
    {l l' : RemoteMappingChunkList} (h : bindRemoteMemoryChunks msg l = some l') :
    l'.remoteChunk.length = l.remoteChunk.length := by
  obtain ⟨bound, hloop, rfl⟩ := Option.map_eq_some_iff.mp h
  have hlength := length_of_bindLoop hloop
  exact hlength

/-- The entries that a reported size allocates; the size becomes unsigned. -/
def reportedChunks (gb : ℤ) : ℕ := (gb % 2 ^ 32).toNat / chunkSizeGb

theorem length_of_handleRecvWr {kzalloc : Bool} {byteLen : ℕ} {msg : Message chunkPositions}
    {s s' : RdmaSessionContext} (h : handleRecvWr kzalloc byteLen msg s = some (s', 0)) :
    s'.remoteChunkList.remoteChunk.length =
      if msg.type = .freeSize then reportedChunks msg.sizeGb
      else s.remoteChunkList.remoteChunk.length := by
  rw [handleRecvWr] at h
  split_ifs at h with hlen hconn
  · simp at h
  · simp at h
  · split at h
    case h_1 htype =>
      obtain ⟨l, hl, h⟩ := Option.bind_eq_some_iff.mp h
      cases h
      rw [initRemoteChunkList] at hl
      split_ifs at hl
      cases hl
      rw [if_pos htype]
      exact List.length_replicate
    case h_2 htype =>
      obtain ⟨l, hl, h⟩ := Option.bind_eq_some_iff.mp h
      cases h
      rw [htype]
      exact length_of_bindRemoteMemoryChunks hl
    case h_3 htype =>
      obtain ⟨l, hl, h⟩ := Option.bind_eq_some_iff.mp h
      cases h
      rw [htype]
      exact length_of_bindRemoteMemoryChunks hl
    case h_4 htype =>
      cases h
      rw [htype]
      rfl
    case h_5 htype =>
      cases h
      rw [htype]
      rfl
    case h_6 => cases h

namespace Connect

variable {s t : Connect}

/-- The table has the entries that the last handled `FREE_SIZE` message reported. -/
def Sized (s : Connect) : Prop :=
  s.session.remoteChunkList.remoteChunk.length = s.freeSize.elim 0 reportedChunks

/-- The step does not touch the table. -/
def SameTable (s t : Connect) : Prop :=
  t.session.remoteChunkList = s.session.remoteChunkList ∧ t.freeSize = s.freeSize

theorem Sized.of_sameTable (h : s.Sized) (hsame : SameTable s t) : t.Sized := by
  rw [Sized, hsame.1, hsame.2]
  exact h

theorem sameTable_checked (s : Connect) (ret : ℤ) (next : Pc) :
    SameTable s (s.checked ret next) := by
  rw [checked]
  split <;> exact ⟨rfl, rfl⟩

theorem sameTable_of_call {ret : ℤ} (h : s.call ret = some t) : SameTable s t := by
  have hchecked := s.sameTable_checked ret
  -- every branch executes the step, checked or not, and at most gains a resource
  rw [call] at h
  split at h <;> (try split_ifs at h) <;> cases h <;>
    first
      | exact ⟨rfl, rfl⟩
      | exact hchecked _

theorem sameTable_of_leaveWait (h : s.leaveWait = some t) : SameTable s t := by
  rw [leaveWait] at h
  split at h <;> (try split_ifs at h) <;> cases h <;> exact ⟨rfl, rfl⟩

theorem sameTable_cmSwitch (s : Connect) (event : CmEvent) :
    SameTable s (s.cmSwitch event) := by
  cases event <;> exact ⟨rfl, rfl⟩

theorem Sized.of_step {op : Op} (h : s.Sized) (hstep : s.step op = some t) : t.Sized := by
  cases op with
  | call ret => exact h.of_sameTable (sameTable_of_call hstep)
  | wake | signal =>
    simp only [step] at hstep
    split_ifs at hstep
    exact h.of_sameTable (sameTable_of_leaveWait hstep)
  | cm event ret =>
    simp only [step] at hstep
    split_ifs at hstep
    obtain rfl := Option.some_inj.mp hstep
    have hswitch := s.sameTable_cmSwitch event
    rw [cmEvent]
    dsimp only
    split_ifs
    · exact h.of_sameTable hswitch
    · exact h.of_sameTable ⟨hswitch.1, hswitch.2⟩
  | recv kzalloc byteLen msg =>
    simp only [step] at hstep
    split_ifs at hstep
    rcases cqRecv_cases hstep with rfl | ⟨p, -, -, rfl⟩ | ⟨session, hhandle, rfl⟩
    · exact h
    · exact h.of_sameTable ⟨rfl, rfl⟩
    · have hlength := length_of_handleRecvWr hhandle
      -- only a `FREE_SIZE` message changes the table's length and the record
      change session.remoteChunkList.remoteChunk.length = Option.elim (ite _ _ _) 0 reportedChunks
      rw [hlength]
      split
      · rfl
      · exact h
  | cqError | collect =>
    simp only [step] at hstep
    split_ifs at hstep
    obtain rfl := Option.some_inj.mp hstep
    exact h.of_sameTable ⟨rfl, rfl⟩

/-- `octopus_RDMA_connect` has registered the disk. -/
def DiskRegistered (s : Connect) : Prop := ⟨.initDiskDriver, true⟩ ∈ s.trace

instance (s : Connect) : Decidable s.DiskRegistered := inferInstanceAs (Decidable (_ ∈ _))

/-- Every request inside the capacity of the disk finds its first chunk in the table. -/
def EverySectorBacked (s : Connect) : Prop :=
  ∀ rq : Request, rq.InCapacity →
    rq.startChunkIndex.toNat < s.session.remoteChunkList.remoteChunk.length

end Connect

/-! ### The capacity of the disk -/

/-- A request for the first sector of the last chunk below the capacity. -/
def lastChunkRead : Request := ⟨0, false, 65011712, 512, 1, 1⟩

theorem lastChunkRead_inCapacity : lastChunkRead.InCapacity := ⟨by decide, by decide⟩

/-- The requests inside the capacity start in the first 32 chunks, and reach the last. -/
theorem everySectorBacked_iff_length {s : Connect} :
    s.EverySectorBacked ↔
      maxRemoteMemorySizeGb ≤ s.session.remoteChunkList.remoteChunk.length := by
  constructor
  · intro h
    have hlast := h lastChunkRead lastChunkRead_inCapacity
    rw [lastChunkRead_inCapacity.toNat_startChunkIndex] at hlast
    change 31 < _ at hlast
    exact hlast
  · intro h rq hcap
    have hwithin := hcap.within
    have hpos := hcap.pos_bytes
    rw [rmemSizeInPhySect_eq] at hwithin
    rw [hcap.toNat_startChunkIndex]
    rw [maxRemoteMemorySizeGb] at h
    omega

/-- In every state of every run of the setup, and so in those in which the disk is
registered: every sector of the disk is backed exactly when the last `FREE_SIZE` message
reported, as an unsigned number, as many gigabytes as the disk has. -/
theorem every_sector_backed_iff (ops : List Connect.Op) (s : Connect)
    (hrun : run Connect.step Connect.init ops = some s) :
    s.EverySectorBacked ↔
      ∃ gb, s.freeSize = some gb ∧ (maxRemoteMemorySizeGb : ℤ) ≤ gb % 2 ^ 32 := by
  have hinit : Connect.init.Sized := rfl
  have hsized : s.Sized := run_keeps (fun _ _ _ h hstep => h.of_step hstep) hinit hrun
  rw [everySectorBacked_iff_length, hsized]
  cases hsize : s.freeSize with
  | none => simp [maxRemoteMemorySizeGb]
  | some gb =>
    simp only [Option.elim_some, reportedChunks, chunkSizeGb, Nat.div_one, Option.some.injEq,
      exists_eq_left']
    omega

theorem every_sector_backed_iff_complete :
    ∃ s, run Connect.step Connect.init (completeSetup 32) = some s ∧ s.DiskRegistered ∧
      s.EverySectorBacked := by
  have hends : (run Connect.step Connect.init (completeSetup 32)).any fun s =>
      s.DiskRegistered ∧ s.freeSize = some 32 := by decide +kernel
  obtain ⟨s, hs, hfacts⟩ := (Option.any_eq_true _ _).mp hends
  obtain ⟨hdisk, hsize⟩ := of_decide_eq_true hfacts
  exact ⟨s, hs, hdisk,
    (every_sector_backed_iff (completeSetup 32) s hs).mpr ⟨32, hsize, by decide⟩⟩

/-- A server with one gigabyte: the disk is registered with 32, and the table has one
entry. -/
theorem sectors_unbacked_behind_small_server :
    ∃ s, run Connect.step Connect.init (completeSetup 1) = some s ∧ s.pc = .returned 0 ∧
      s.DiskRegistered ∧ s.Complete ∧ ¬ s.EverySectorBacked := by
  have hends : (run Connect.step Connect.init (completeSetup 1)).any fun s =>
      s.pc = .returned 0 ∧ s.DiskRegistered ∧
        s.session.remoteChunkList.remoteChunk.length = 1 := by decide +kernel
  obtain ⟨s, hs, hfacts⟩ := (Option.any_eq_true _ _).mp hends
  obtain ⟨hpc, hdisk, hlength⟩ := of_decide_eq_true hfacts
  have hops : EachStep Connect.step Connect.Orderly Connect.init (completeSetup 1) := by
    decide +kernel
  have hinv : s.Inv := run_invariant (fun _ _ _ h hord hstep => h.of_step hord hstep)
    Connect.inv_init hops hs
  refine ⟨s, hs, hpc, hdisk, hinv.progress.complete (.inl hpc), ?_⟩
  rw [everySectorBacked_iff_length, hlength]
  decide

end SystemDev.Octopus
