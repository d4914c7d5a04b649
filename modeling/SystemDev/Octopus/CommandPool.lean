import SystemDev.Library.Run
import SystemDev.Octopus.Transfer

/-!
# The pool of RDMA commands

The commands of one `rmem_rdma_queue` are taken by submitters under a lock and given back
by the completion handler with two plain stores. Each access to a command is one atomic
step here, and the steps of any number of submitters and of the handler interleave freely.

A submitter walks `rmem_queue_rq`: it enters, may be refused by the checks before the
scan, scans for a free command, stores its request there and posts. The handler polls a
completion, reads `io_rq`, ends the request, and releases the command. Two histories,
`posted` and `endedRqs`, record what was posted and what was ended for it; `started` counts
the requests that the block layer has started and not ended, `failedPosts` the refusals of
`ib_post_send`.

## Main results

* `Pool.step_effect` — everything a step can do
* `OwnedBy.of_effect` — each command has at most one user at a time
* `completion_ends_its_request` — a completion ends the request it was posted for
-/

namespace SystemDev.Octopus

open SystemDev.Library

/-- The position of a submitter in `rmem_queue_rq`. -/
inductive Submitter (depth : ℕ)
  | idle
  | entered (rq : Request)
  | scanning (rq : Request) (i : Fin depth)
  | holding (rq : Request) (k : Fin depth)
  | stored (rq : Request) (k : Fin depth)
  deriving DecidableEq

/-- A work request on the wire: its command, and the request it was posted for. -/
structure Posting (depth : ℕ) where
  cmd : Fin depth
  rq : Request
  deriving DecidableEq

/-- The position of the completion handler in `rdma_write_done` or `rdma_read_done`.
`failed` is the end of the session: the handler has marked it with `ERROR`. -/
inductive Handler (depth : ℕ)
  | idle
  | polled (w : Posting depth)
  | read (w : Posting depth) (ioRq : Option Request)
  | ended (w : Posting depth)
  | freed (w : Posting depth)
  | failed (w : Posting depth)
  deriving DecidableEq

/-- One command queue with `m` submitters and the completion handler. -/
structure Pool (depth m : ℕ) where
  queue : RmemRdmaQueue depth
  submitters : Fin m → Submitter depth
  outstanding : List (Posting depth)
  handler : Handler depth
  posted : List (Posting depth)
  endedRqs : List (Posting depth × Request)
  started : ℕ
  failedPosts : ℕ

/-- The atomic steps. `post` carries the return value of `ib_post_send`, `complete` the
completed work request and whether its status is `IB_WC_SUCCESS`. -/
inductive PoolOp (depth m : ℕ)
  | enter (t : Fin m) (rq : Request)
  | refuse (t : Fin m)
  | scan (t : Fin m)
  | test (t : Fin m)
  | storeRq (t : Fin m)
  | post (t : Fin m) (ret : ℤ)
  | complete (w : Posting depth) (success : Bool)
  | readRq
  | endRq
  | storeFree
  | clearRq

variable {depth m : ℕ}

/-- Move a submitter. -/
def Pool.move (s : Pool depth m) (t : Fin m) (x : Submitter depth) : Pool depth m :=
  { s with submitters := Function.update s.submitters t x }

/-- Overwrite a command. -/
def Pool.setCmd (s : Pool depth m) (k : Fin depth) (c : RmemRdmaCommand) : Pool depth m :=
  { s with queue := Function.update s.queue k c }

/-- The read completion checks that the request has one `bio`. -/
def SingleBio (w : Posting depth) (rq : Request) : Prop :=
  w.rq.write = true ∨ rq.nrPhysSegments = rq.bioPhysSegments

instance (w : Posting depth) (rq : Request) : Decidable (SingleBio w rq) :=
  inferInstanceAs (Decidable (_ ∨ _))

/-- One atomic step. A completion that finds `io_rq = NULL` crashes at `endRq`. -/
def Pool.step (s : Pool depth m) : PoolOp depth m → Option (Pool depth m)
  | .enter t rq =>
    match s.submitters t with
    | .idle => some { s.move t (.entered rq) with started := s.started + 1 }
    | _ => none
  | .refuse t =>
    -- the chunk check or the mapping check failed, and the block layer ends the request
    match s.submitters t with
    | .entered _ => some { s.move t .idle with started := s.started - 1 }
    | _ => none
  | .scan t =>
    match s.submitters t with
    | .entered rq => if h : 0 < depth then some (s.move t (.scanning rq ⟨0, h⟩)) else none
    | _ => none
  | .test t =>
    match s.submitters t with
    | .scanning rq i =>
      -- test and store are one step here: the scan holds the queue's lock
      if (s.queue i).freeState then
        some ((s.setCmd i { s.queue i with freeState := false }).move t (.holding rq i))
      else some (s.move t (.scanning rq (cycleNext i)))
    | _ => none
  | .storeRq t =>
    match s.submitters t with
    | .holding rq k => some ((s.setCmd k { s.queue k with ioRq := some rq }).move t (.stored rq k))
    | _ => none
  | .post t ret =>
    match s.submitters t with
    | .stored rq k =>
      if ret = 0 then
        some { s.move t .idle with
          outstanding := ⟨k, rq⟩ :: s.outstanding
          posted := ⟨k, rq⟩ :: s.posted }
      else
        -- the command stays taken, and the block layer ends the request
        some { s.move t .idle with
          started := s.started - 1
          failedPosts := s.failedPosts + 1 }
    | _ => none
  | .complete w success =>
    match s.handler with
    | .idle =>
      -- completions arrive in any order
      if w ∈ s.outstanding then
        some { s with
          outstanding := s.outstanding.erase w
          handler := if success then .polled w else .failed w }
      else none
    | _ => none
  | .readRq =>
    match s.handler with
    | .polled w => some { s with handler := .read w (s.queue w.cmd).ioRq }
    | _ => none
  | .endRq =>
    match s.handler with
    | .read w (some rq) =>
      if SingleBio w rq then
        some { s with
          handler := .ended w
          endedRqs := (w, rq) :: s.endedRqs
          started := s.started - 1 }
      else some { s with handler := .failed w }
    | _ => none
  | .storeFree =>
    match s.handler with
    | .ended w =>
      some { s.setCmd w.cmd { s.queue w.cmd with freeState := true } with handler := .freed w }
    | _ => none
  | .clearRq =>
    match s.handler with
    -- the store comes after the release, so a new user may have stored its own request
    | .freed w => some { s.setCmd w.cmd { s.queue w.cmd with ioRq := none } with handler := .idle }
    | _ => none

/-- The pool before the first request. -/
def Pool.init (depth m : ℕ) : Pool depth m where
  queue := initRdmaCommandList depth
  submitters := fun _ => .idle
  outstanding := []
  handler := .idle
  posted := []
  endedRqs := []
  started := 0
  failedPosts := 0

/-! ### Everything a step can do -/

/-- The effects of the steps, with the position they start from. -/
inductive Pool.Effect (s : Pool depth m) : PoolOp depth m → Pool depth m → Prop
  | enter {t : Fin m} {rq : Request} (here : s.submitters t = .idle) :
      Effect s (.enter t rq) { s.move t (.entered rq) with started := s.started + 1 }
  | refuse {t : Fin m} {rq : Request} (here : s.submitters t = .entered rq) :
      Effect s (.refuse t) { s.move t .idle with started := s.started - 1 }
  | scan {t : Fin m} {rq : Request} (here : s.submitters t = .entered rq) (h : 0 < depth) :
      Effect s (.scan t) (s.move t (.scanning rq ⟨0, h⟩))
  | take {t : Fin m} {rq : Request} {k : Fin depth} (here : s.submitters t = .scanning rq k)
      (free : (s.queue k).freeState = true) :
      Effect s (.test t)
        ((s.setCmd k { s.queue k with freeState := false }).move t (.holding rq k))
  | miss {t : Fin m} {rq : Request} {k : Fin depth} (here : s.submitters t = .scanning rq k)
      (taken : (s.queue k).freeState = false) :
      Effect s (.test t) (s.move t (.scanning rq (cycleNext k)))
  | store {t : Fin m} {rq : Request} {k : Fin depth} (here : s.submitters t = .holding rq k) :
      Effect s (.storeRq t) ((s.setCmd k { s.queue k with ioRq := some rq }).move t (.stored rq k))
  | post {t : Fin m} {rq : Request} {k : Fin depth} (here : s.submitters t = .stored rq k) :
      Effect s (.post t 0) { s.move t .idle with
        outstanding := ⟨k, rq⟩ :: s.outstanding
        posted := ⟨k, rq⟩ :: s.posted }
  | postFail {t : Fin m} {rq : Request} {k : Fin depth} {ret : ℤ}
      (here : s.submitters t = .stored rq k) (refused : ret ≠ 0) :
      Effect s (.post t ret) { s.move t .idle with
        started := s.started - 1
        failedPosts := s.failedPosts + 1 }
  | complete {w : Posting depth} {success : Bool} (here : s.handler = .idle)
      (mem : w ∈ s.outstanding) :
      Effect s (.complete w success) { s with
        outstanding := s.outstanding.erase w
        handler := if success then .polled w else .failed w }
  | readRq {w : Posting depth} (here : s.handler = .polled w) :
      Effect s .readRq { s with handler := .read w (s.queue w.cmd).ioRq }
  | endRq {w : Posting depth} {rq : Request} (here : s.handler = .read w (some rq))
      (single : SingleBio w rq) :
      Effect s .endRq { s with
        handler := .ended w
        endedRqs := (w, rq) :: s.endedRqs
        started := s.started - 1 }
  | endFail {w : Posting depth} {rq : Request} (here : s.handler = .read w (some rq))
      (several : ¬ SingleBio w rq) :
      Effect s .endRq { s with handler := .failed w }
  | storeFree {w : Posting depth} (here : s.handler = .ended w) :
      Effect s .storeFree
        { s.setCmd w.cmd { s.queue w.cmd with freeState := true } with handler := .freed w }
  | clearRq {w : Posting depth} (here : s.handler = .freed w) :
      Effect s .clearRq
        { s.setCmd w.cmd { s.queue w.cmd with ioRq := none } with handler := .idle }

variable {s t : Pool depth m} {op : PoolOp depth m}

theorem Pool.submitters_move_self {u : Fin m} {x : Submitter depth} :
    (s.move u x).submitters u = x := by
  simp [Pool.move]

theorem Pool.submitters_move_of_ne {u v : Fin m} {x : Submitter depth} (h : v ≠ u) :
    (s.move u x).submitters v = s.submitters v := by
  simp [Pool.move, h]

theorem Pool.step_effect (h : s.step op = some t) : s.Effect op t := by
  cases op with
  | enter u rq =>
    simp only [Pool.step] at h
    split at h
    · rename_i hat
      obtain rfl := Option.some_inj.mp h
      exact .enter hat
    · cases h
  | refuse u =>
    simp only [Pool.step] at h
    split at h
    · rename_i hat
      obtain rfl := Option.some_inj.mp h
      exact .refuse hat
    · cases h
  | scan u =>
    simp only [Pool.step] at h
    split at h
    · rename_i hat
      split at h
      · obtain rfl := Option.some_inj.mp h
        exact .scan hat _
      · cases h
    · cases h
  | test u =>
    simp only [Pool.step] at h
    split at h
    · rename_i hat
      split at h
      · rename_i hfree
        obtain rfl := Option.some_inj.mp h
        exact .take hat hfree
      · rename_i htaken
        obtain rfl := Option.some_inj.mp h
        exact .miss hat (Bool.eq_false_of_not_eq_true htaken)
    · cases h
  | storeRq u =>
    simp only [Pool.step] at h
    split at h
    · rename_i hat
      obtain rfl := Option.some_inj.mp h
      exact .store hat
    · cases h
  | post u ret =>
    simp only [Pool.step] at h
    split at h
    · rename_i hat
      split at h
      · rename_i hret
        subst hret
        obtain rfl := Option.some_inj.mp h
        exact .post hat
      · rename_i hret
        obtain rfl := Option.some_inj.mp h
        exact .postFail hat hret
    · cases h
  | complete w success =>
    simp only [Pool.step] at h
    split at h
    · rename_i hat
      split at h
      · rename_i hmem
        obtain rfl := Option.some_inj.mp h
        exact .complete hat hmem
      · cases h
    · cases h
  | readRq =>
    simp only [Pool.step] at h
    split at h
    · rename_i hat
      obtain rfl := Option.some_inj.mp h
      exact .readRq hat
    · cases h
  | endRq =>
    simp only [Pool.step] at h
    split at h
    · rename_i hat
      split at h
      · rename_i hsingle
        obtain rfl := Option.some_inj.mp h
        exact .endRq hat hsingle
      · rename_i hseveral
        obtain rfl := Option.some_inj.mp h
        exact .endFail hat hseveral
    · cases h
  | storeFree =>
    simp only [Pool.step] at h
    split at h
    · rename_i hat
      obtain rfl := Option.some_inj.mp h
      exact .storeFree hat
    · cases h
  | clearRq =>
    simp only [Pool.step] at h
    split at h
    · rename_i hat
      obtain rfl := Option.some_inj.mp h
      exact .clearRq hat
    · cases h

/-! ### Who uses a command -/

/-- The command a submitter has taken. -/
def Submitter.cmd? : Submitter depth → Option (Fin depth)
  | .holding _ k => some k
  | .stored _ k => some k
  | _ => none

/-- The command the handler works on, up to its release. -/
def Handler.busy? : Handler depth → Option (Fin depth)
  | .polled w => some w.cmd
  | .read w _ => some w.cmd
  | .ended w => some w.cmd
  | .failed w => some w.cmd
  | _ => none

/-- The command between the two stores of its release. -/
def Handler.freed? : Handler depth → Option (Fin depth)
  | .freed w => some w.cmd
  | _ => none

/-- The users of a command. `lost` is a command whose post was refused. -/
inductive Owner (m : ℕ)
  | nobody
  | submitter (t : Fin m)
  | wire
  | handler
  | lost
  deriving DecidableEq

/-- `owner` tells the one user of each command. -/
structure OwnedBy (s : Pool depth m) (owner : Fin depth → Owner m) : Prop where
  free : ∀ k, (s.queue k).freeState = true ↔ owner k = .nobody
  held : ∀ t k, (s.submitters t).cmd? = some k ↔ owner k = .submitter t
  wire : ∀ k, k ∈ s.outstanding.map Posting.cmd ↔ owner k = .wire
  wire_nodup : (s.outstanding.map Posting.cmd).Nodup
  busy : ∀ k, s.handler.busy? = some k ↔ owner k = .handler
  lost : (Finset.univ.filter fun k => owner k = .lost).card = s.failedPosts

section Reassign

variable {owner : Fin depth → Owner m} {P P' : Fin depth → Prop} {k : Fin depth} {o x : Owner m}

/-- A role that changes at the reassigned command only. -/
theorem reassign_iff (h : ∀ j, P j ↔ owner j = x) (hne : ∀ j, j ≠ k → (P' j ↔ P j))
    (hk : P' k ↔ o = x) (j : Fin depth) : P' j ↔ Function.update owner k o j = x := by
  by_cases hj : j = k
  · subst hj
    rwa [Function.update_self]
  · rw [Function.update_of_ne hj, hne j hj, h j]

/-- A role that the reassigned command has neither before nor after. -/
theorem reassign_iff_of_ne (h : ∀ j, P j ↔ owner j = x) (hold : owner k ≠ x) (hnew : o ≠ x)
    (j : Fin depth) : P j ↔ Function.update owner k o j = x :=
  reassign_iff h (fun _ _ => Iff.rfl) (iff_of_false (mt (h k).mp hold) hnew) j

theorem lost_reassign (hold : owner k ≠ .lost) (hnew : o ≠ .lost) :
    (Finset.univ.filter fun j => Function.update owner k o j = .lost) =
      Finset.univ.filter fun j => owner j = .lost := by
  refine Finset.filter_congr fun j _ => ?_
  by_cases hj : j = k
  · subst hj
    rw [Function.update_self]
    exact iff_of_false hnew hold
  · rw [Function.update_of_ne hj]

theorem lost_insert (hold : owner k ≠ .lost) :
    (Finset.univ.filter fun j => Function.update owner k .lost j = .lost).card =
      (Finset.univ.filter fun j => owner j = .lost).card + 1 := by
  have hinsert : (Finset.univ.filter fun j => Function.update owner k .lost j = .lost) =
      insert k (Finset.univ.filter fun j => owner j = .lost) := by
    ext j
    by_cases hj : j = k
    · simp [hj]
    · simp [hj]
  rw [hinsert, Finset.card_insert_of_notMem (by simpa using hold)]

end Reassign

/-- A submitter that moves without changing its command. -/
theorem OwnedBy.held_move {owner : Fin depth → Owner m} (h : OwnedBy s owner) {u : Fin m}
    {x : Submitter depth} (hx : x.cmd? = (s.submitters u).cmd?) (v : Fin m) (k : Fin depth) :
    (Function.update s.submitters u x v).cmd? = some k ↔ owner k = .submitter v := by
  rw [← h.held v k]
  by_cases hv : v = u
  · subst hv
    rw [Function.update_self, hx]
  · rw [Function.update_of_ne hv]

/-- The other submitters' commands after one submitter lets go of its own. -/
theorem OwnedBy.held_release {owner : Fin depth → Owner m} (h : OwnedBy s owner) {u : Fin m}
    {k : Fin depth} (hk : (s.submitters u).cmd? = some k) {o : Owner m}
    (ho : ∀ v, o ≠ .submitter v) (v : Fin m) : ∀ j,
    (Function.update s.submitters u .idle v).cmd? = some j ↔
      Function.update owner k o j = .submitter v := by
  have howner := (h.held u k).mp hk
  by_cases hv : v = u
  · subst hv
    refine reassign_iff (h.held v) (fun i hi => ?_) (iff_of_false ?_ (ho v))
    · rw [Function.update_self, hk]
      exact iff_of_false (by simp [Submitter.cmd?]) (by simpa using hi.symm)
    · simp [Submitter.cmd?]
  · rw [Function.update_of_ne hv]
    refine reassign_iff_of_ne (h.held v) ?_ (ho v)
    rw [howner]
    simpa using Ne.symm hv

section HandOver

variable {owner : Fin depth → Owner m} {u : Fin m} {rq : Request} {k : Fin depth}

/-- A command goes from nobody to the submitter that takes it. -/
theorem OwnedBy.take (h : OwnedBy s owner) (here : s.submitters u = .scanning rq k)
    (free : (s.queue k).freeState = true) :
    OwnedBy ((s.setCmd k { s.queue k with freeState := false }).move u (.holding rq k))
      (Function.update owner k (.submitter u)) := by
  have hk : owner k = .nobody := (h.free k).mp free
  refine ⟨?_, ?_, ?_, h.wire_nodup, ?_, ?_⟩
  · refine reassign_iff h.free (fun j hj => ?_) (iff_of_false ?_ (by simp))
    · simp [Pool.move, Pool.setCmd, hj]
    · simp [Pool.move, Pool.setCmd]
  · intro v
    by_cases hv : v = u
    · subst hv
      have hnone : ∀ j, (s.submitters v).cmd? ≠ some j := by simp [here, Submitter.cmd?]
      refine reassign_iff (h.held v) (fun j hj => iff_of_false ?_ (hnone j)) (iff_of_true ?_ rfl)
      · simpa [Pool.move, Submitter.cmd?] using Ne.symm hj
      · simp [Pool.move, Submitter.cmd?]
    · refine reassign_iff (h.held v) (fun j _ => ?_) (iff_of_false ?_ ?_)
      · simp [Pool.move, Pool.setCmd, hv]
      · have := mt (h.held v k).mp (by rw [hk]; simp)
        simpa [Pool.move, Pool.setCmd, hv] using this
      · simpa using Ne.symm hv
  · exact reassign_iff_of_ne h.wire (by rw [hk]; simp) (by simp)
  · exact reassign_iff_of_ne h.busy (by rw [hk]; simp) (by simp)
  · rw [lost_reassign (by rw [hk]; simp) (by simp)]
    exact h.lost

/-- From the submitter to the wire. -/
theorem OwnedBy.post (h : OwnedBy s owner) (here : s.submitters u = .stored rq k) :
    OwnedBy { s.move u .idle with
        outstanding := ⟨k, rq⟩ :: s.outstanding
        posted := ⟨k, rq⟩ :: s.posted }
      (Function.update owner k .wire) := by
  have hcmd : (s.submitters u).cmd? = some k := by rw [here]; rfl
  have hk := (h.held u k).mp hcmd
  have hoff : k ∉ s.outstanding.map Posting.cmd := mt (h.wire k).mp (by rw [hk]; simp)
  refine ⟨?_, ?_, ?_, ?_, ?_, ?_⟩
  · exact reassign_iff_of_ne h.free (by rw [hk]; simp) (by simp)
  · exact h.held_release hcmd (by simp)
  · refine reassign_iff h.wire (fun j hj => ?_) (iff_of_true ?_ rfl)
    · simp [hj]
    · simp
  · exact List.nodup_cons.mpr ⟨hoff, h.wire_nodup⟩
  · exact reassign_iff_of_ne h.busy (by rw [hk]; simp) (by simp)
  · rw [lost_reassign (by rw [hk]; simp) (by simp)]
    exact h.lost

/-- Nothing gives the command of a refused post back. -/
theorem OwnedBy.postFail (h : OwnedBy s owner) (here : s.submitters u = .stored rq k) :
    OwnedBy { s.move u .idle with
        started := s.started - 1
        failedPosts := s.failedPosts + 1 }
      (Function.update owner k .lost) := by
  have hcmd : (s.submitters u).cmd? = some k := by rw [here]; rfl
  have hk := (h.held u k).mp hcmd
  refine ⟨?_, ?_, ?_, h.wire_nodup, ?_, ?_⟩
  · exact reassign_iff_of_ne h.free (by rw [hk]; simp) (by simp)
  · exact h.held_release hcmd (by simp)
  · exact reassign_iff_of_ne h.wire (by rw [hk]; simp) (by simp)
  · exact reassign_iff_of_ne h.busy (by rw [hk]; simp) (by simp)
  · rw [lost_insert (by rw [hk]; simp), h.lost]

/-- From the wire to the handler. -/
theorem OwnedBy.complete (h : OwnedBy s owner) {w : Posting depth} (success : Bool)
    (here : s.handler = .idle) (mem : w ∈ s.outstanding) :
    OwnedBy { s with
        outstanding := s.outstanding.erase w
        handler := if success then .polled w else .failed w }
      (Function.update owner w.cmd .handler) := by
  have hk : owner w.cmd = .wire := (h.wire w.cmd).mp (List.mem_map_of_mem mem)
  -- commands on the wire are distinct, so erasing `w` takes its command off
  have hperm : (s.outstanding.map Posting.cmd).Perm
      (w.cmd :: (s.outstanding.erase w).map Posting.cmd) :=
    (List.perm_cons_erase mem).map Posting.cmd
  obtain ⟨hoff, hnodup⟩ := List.nodup_cons.mp (hperm.nodup_iff.mp h.wire_nodup)
  refine ⟨?_, ?_, ?_, hnodup, ?_, ?_⟩
  · exact reassign_iff_of_ne h.free (by rw [hk]; simp) (by simp)
  · exact fun v => reassign_iff_of_ne (h.held v) (by rw [hk]; simp) (by simp)
  · refine reassign_iff h.wire (fun j hj => ?_) (iff_of_false hoff (by simp))
    rw [hperm.mem_iff, List.mem_cons, or_iff_right hj]
  · refine reassign_iff h.busy (fun j hj => iff_of_false ?_ ?_) (iff_of_true ?_ rfl)
    · cases success <;> simpa [Handler.busy?] using Ne.symm hj
    · simp [here, Handler.busy?]
    · cases success <;> rfl
  · rw [lost_reassign (by rw [hk]; simp) (by simp)]
    exact h.lost

/-- From the handler to nobody, with the first store of the release. -/
theorem OwnedBy.storeFree (h : OwnedBy s owner) {w : Posting depth}
    (here : s.handler = .ended w) :
    OwnedBy { s.setCmd w.cmd { s.queue w.cmd with freeState := true } with handler := .freed w }
      (Function.update owner w.cmd .nobody) := by
  have hk : owner w.cmd = .handler := (h.busy w.cmd).mp (by rw [here]; rfl)
  refine ⟨?_, ?_, ?_, h.wire_nodup, ?_, ?_⟩
  · refine reassign_iff h.free (fun j hj => ?_) (iff_of_true ?_ rfl)
    · simp [Pool.setCmd, hj]
    · simp [Pool.setCmd]
  · exact fun v => reassign_iff_of_ne (h.held v) (by rw [hk]; simp) (by simp)
  · exact reassign_iff_of_ne h.wire (by rw [hk]; simp) (by simp)
  · refine reassign_iff h.busy (fun j hj => iff_of_false ?_ ?_) (iff_of_false ?_ (by simp))
    · simp [Handler.busy?]
    · simpa [here, Handler.busy?] using Ne.symm hj
    · simp [Handler.busy?]
  · rw [lost_reassign (by rw [hk]; simp) (by simp)]
    exact h.lost

/-- A store into `io_rq` frees no command and takes none. -/
theorem freeState_setCmd_ioRq (s : Pool depth m) (k : Fin depth) (io : Option Request)
    (j : Fin depth) :
    ((s.setCmd k { s.queue k with ioRq := io }).queue j).freeState = (s.queue j).freeState := by
  by_cases hj : j = k
  · subst hj
    simp [Pool.setCmd]
  · simp [Pool.setCmd, hj]

end HandOver

theorem OwnedBy.of_effect {owner : Fin depth → Owner m} (h : OwnedBy s owner)
    (heff : s.Effect op t) : ∃ owner', OwnedBy t owner' := by
  cases heff with
  | enter here | refuse here | scan here _ | miss here _ =>
    -- the submitter moves without a command in its hands
    exact ⟨owner, h.free, h.held_move (by rw [here]; rfl), h.wire, h.wire_nodup, h.busy, h.lost⟩
  | take here free => exact ⟨_, h.take here free⟩
  | @store u rq k here =>
    refine ⟨owner, fun j => ?_, h.held_move (by rw [here]; rfl), h.wire, h.wire_nodup, h.busy,
      h.lost⟩
    rw [← h.free j, ← freeState_setCmd_ioRq s k (some rq) j]
    rfl
  | post here => exact ⟨_, h.post here⟩
  | postFail here _ => exact ⟨_, h.postFail here⟩
  | @complete w success here mem => exact ⟨_, h.complete success here mem⟩
  | readRq here | endRq here _ | endFail here _ =>
    -- the handler goes on with the command it has
    refine ⟨owner, h.free, h.held, h.wire, h.wire_nodup, ?_, h.lost⟩
    intro k
    rw [← h.busy k, here]
    rfl
  | storeFree here => exact ⟨_, h.storeFree here⟩
  | @clearRq w here =>
    refine ⟨owner, fun j => ?_, h.held, h.wire, h.wire_nodup, fun k => ?_, h.lost⟩
    · rw [← h.free j, ← freeState_setCmd_ioRq s w.cmd none j]
    · rw [← h.busy k, here]
      rfl

theorem ownedBy_init (depth m : ℕ) : OwnedBy (Pool.init depth m) fun _ => .nobody where
  free := by simp [Pool.init, initRdmaCommandList]
  held := by simp [Pool.init, Submitter.cmd?]
  wire := by simp [Pool.init]
  wire_nodup := List.nodup_nil
  busy := by simp [Pool.init, Handler.busy?]
  lost := by simp [Pool.init]

/-! ### Completions end their own requests -/

/-- The work request whose request the handler has not ended yet. -/
def Handler.unended : Handler depth → List (Posting depth)
  | .polled w => [w]
  | .read w _ => [w]
  | _ => []

/-- Every outstanding command holds the request posted with it, no completion finds
`NULL`, what was ended was ended for its own work request, and every posted work request
is outstanding, in the handler before its end, or ended, exactly once. -/
structure EndsItsRequest (s : Pool depth m) : Prop where
  outstanding : ∀ w ∈ s.outstanding, (s.queue w.cmd).ioRq = some w.rq
  not_null : ∀ w, s.handler ≠ .read w none
  ended : ∀ e ∈ s.endedRqs, e.2 = e.1.rq
  account : s.posted.Perm (s.outstanding ++ s.handler.unended ++ s.endedRqs.map Prod.fst)

/-- No submitter stores its request into a command between the two stores of that
command's release, work requests complete with success, and a completed read has a single
`bio`. -/
def Pool.Safe (s : Pool depth m) : PoolOp depth m → Prop
  | .storeRq t => s.handler.freed? = none ∨ s.handler.freed? ≠ (s.submitters t).cmd?
  | .complete w success => success = true ∧ (w.rq.write = true ∨
      w.rq.nrPhysSegments = w.rq.bioPhysSegments)
  | _ => True

instance : ∀ op, Decidable (s.Safe op)
  | .storeRq _ => inferInstanceAs (Decidable (_ ∨ _))
  | .complete _ _ => inferInstanceAs (Decidable (_ ∧ _))
  | .enter _ _ => .isTrue trivial
  | .refuse _ => .isTrue trivial
  | .scan _ => .isTrue trivial
  | .test _ => .isTrue trivial
  | .post _ _ => .isTrue trivial
  | .readRq => .isTrue trivial
  | .endRq => .isTrue trivial
  | .storeFree => .isTrue trivial
  | .clearRq => .isTrue trivial

/-- A work request on the wire, or a submitter about to post one, uses command `k` for
`rq`. -/
def Pool.Uses (s : Pool depth m) (k : Fin depth) (rq : Request) : Prop :=
  ⟨k, rq⟩ ∈ s.outstanding ∨ ∃ t, s.submitters t = .stored rq k

/-- What the handler has found so far is right. -/
def Handler.Faithful (q : RmemRdmaQueue depth) : Handler depth → Prop
  | .polled w => (q w.cmd).ioRq = some w.rq ∧ SingleBio w w.rq
  | .read w io => io = some w.rq ∧ SingleBio w w.rq
  | .failed _ => False
  | _ => True

/-- What carries `EndsItsRequest` from step to step: a used command holds its request and
is not being released. -/
structure Faithful (s : Pool depth m) : Prop where
  used : ∀ k rq, s.Uses k rq → (s.queue k).ioRq = some rq ∧ s.handler.freed? ≠ some k
  handler : s.handler.Faithful s.queue
  ended : ∀ e ∈ s.endedRqs, e.2 = e.1.rq
  account : s.posted.Perm (s.outstanding ++ s.handler.unended ++ s.endedRqs.map Prod.fst)

theorem Faithful.endsItsRequest (h : Faithful s) : EndsItsRequest s where
  outstanding := fun w hw => (h.used w.cmd w.rq (Or.inl hw)).1
  not_null := fun w hw => by
    have hhandler := h.handler
    rw [hw] at hhandler
    simpa using hhandler.1
  ended := h.ended
  account := h.account

/-- A used command belongs to the wire or to a submitter. -/
theorem OwnedBy.of_uses {owner : Fin depth → Owner m} (h : OwnedBy s owner) {k : Fin depth}
    {rq : Request} (huse : s.Uses k rq) : owner k = .wire ∨ ∃ t, owner k = .submitter t := by
  rcases huse with hwire | ⟨t, hstored⟩
  · exact Or.inl ((h.wire k).mp (List.mem_map_of_mem hwire))
  · exact Or.inr ⟨t, (h.held t k).mp (by rw [hstored]; rfl)⟩

theorem OwnedBy.ne_of_uses {owner : Fin depth → Owner m} (h : OwnedBy s owner) {k j : Fin depth}
    {rq : Request} (huse : s.Uses k rq) (hj : owner j = .handler) : k ≠ j := by
  rintro rfl
  rcases h.of_uses huse with hwire | ⟨t, hheld⟩
  · exact absurd (hwire.symm.trans hj) (by simp)
  · exact absurd (hheld.symm.trans hj) (by simp)

/-- Moving a submitter to a position where it has not stored a request adds no use. -/
theorem Pool.uses_of_move (u : Fin m) (x : Submitter depth) (hx : ∀ rq k, x ≠ .stored rq k)
    {k : Fin depth} {rq : Request} (h : (s.move u x).Uses k rq) : s.Uses k rq := by
  rcases h with hwire | ⟨v, hv⟩
  · exact Or.inl hwire
  · refine Or.inr ⟨v, ?_⟩
    by_cases hvu : v = u
    · subst hvu
      rw [Pool.submitters_move_self] at hv
      exact absurd hv (hx rq k)
    · rwa [Pool.submitters_move_of_ne hvu] at hv

/-- The handler's finding does not depend on commands it does not work on. -/
theorem Handler.Faithful.congr {q q' : RmemRdmaQueue depth} {x : Handler depth}
    (h : x.Faithful q) (hq : ∀ k, x.busy? = some k → (q' k).ioRq = (q k).ioRq) :
    x.Faithful q' := by
  cases x with
  | polled w => exact ⟨(hq w.cmd rfl).trans h.1, h.2⟩
  | read w io => exact h
  | failed w => exact h
  | idle => trivial
  | ended w => trivial
  | freed w => trivial

/-- Steps of a submitter that neither store a request nor post one. -/
theorem Faithful.of_submitter (h : Faithful s) (huses : ∀ k rq, t.Uses k rq → s.Uses k rq)
    (hio : ∀ k, (t.queue k).ioRq = (s.queue k).ioRq) (hhandler : t.handler = s.handler)
    (hended : t.endedRqs = s.endedRqs) (hposted : t.posted = s.posted)
    (houtstanding : t.outstanding = s.outstanding) : Faithful t where
  used := fun k rq huse => by
    rw [hio, hhandler]
    exact h.used k rq (huses k rq huse)
  handler := by
    rw [hhandler]
    exact h.handler.congr fun k _ => hio k
  ended := hended ▸ h.ended
  account := by
    rw [hposted, houtstanding, hhandler, hended]
    exact h.account

theorem Faithful.of_store {owner : Fin depth → Owner m} (hown : OwnedBy s owner)
    (h : Faithful s) {u : Fin m} {rq : Request} {k : Fin depth}
    (here : s.submitters u = .holding rq k) (hsafe : s.Safe (.storeRq u)) :
    Faithful ((s.setCmd k { s.queue k with ioRq := some rq }).move u (.stored rq k)) := by
  -- the store writes one command, which no one else uses
  have hcmd : (s.submitters u).cmd? = some k := by rw [here]; rfl
  have hk := (hown.held u k).mp hcmd
  have hother : ∀ j, j ≠ k →
      (Function.update s.queue k { s.queue k with ioRq := some rq } j).ioRq = (s.queue j).ioRq :=
    fun j hj => by rw [Function.update_of_ne hj]
  refine ⟨fun j r huse => ?_, h.handler.congr fun j hj => hother j ?_, h.ended, h.account⟩
  · by_cases hjk : j = k
    · -- the command is held by `u` alone, so the request is the one just stored
      subst hjk
      have hr : r = rq := by
        rcases huse with hwire | ⟨v, hv⟩
        · have := (hown.wire j).mp (List.mem_map_of_mem hwire)
          exact absurd (hk.symm.trans this) (by simp)
        · by_cases hvu : v = u
          · subst hvu
            rw [Pool.submitters_move_self] at hv
            exact (Submitter.stored.inj hv).1.symm
          · rw [Pool.submitters_move_of_ne hvu] at hv
            have := (hown.held v j).mp (by rw [show s.submitters v = _ from hv]; rfl)
            exact absurd (Owner.submitter.inj (hk.symm.trans this)).symm hvu
      subst hr
      refine ⟨by simp [Pool.move, Pool.setCmd], ?_⟩
      change s.handler.freed? ≠ some j
      rcases hsafe with hnone | hne
      · simp [hnone]
      · rwa [hcmd] at hne
    · have huse' : s.Uses j r := by
        rcases huse with hwire | ⟨v, hv⟩
        · exact Or.inl hwire
        · refine Or.inr ⟨v, ?_⟩
          by_cases hvu : v = u
          · subst hvu
            rw [Pool.submitters_move_self] at hv
            exact absurd (Submitter.stored.inj hv).2.symm hjk
          · rwa [Pool.submitters_move_of_ne hvu] at hv
      exact ⟨(hother j hjk).trans (h.used j r huse').1, (h.used j r huse').2⟩
  · rintro rfl
    exact absurd (hk.symm.trans ((hown.busy j).mp hj)) (by simp)

theorem Faithful.of_effect {owner : Fin depth → Owner m} (hown : OwnedBy s owner)
    (h : Faithful s) (hsafe : s.Safe op) (heff : s.Effect op t) : Faithful t := by
  have hhandler := h.handler
  have haccount := h.account
  cases heff with
  | @enter u rq here =>
    exact h.of_submitter (fun k r => Pool.uses_of_move (s := s) u (.entered rq) (by simp))
      (fun _ => rfl) rfl rfl rfl rfl
  | @refuse u rq here =>
    exact h.of_submitter (fun k r => Pool.uses_of_move (s := s) u .idle (by simp))
      (fun _ => rfl) rfl rfl rfl rfl
  | @scan u rq here hpos =>
    exact h.of_submitter (fun k r => Pool.uses_of_move (s := s) u (.scanning rq _) (by simp))
      (fun _ => rfl) rfl rfl rfl rfl
  | @miss u rq k here taken =>
    exact h.of_submitter (fun k r => Pool.uses_of_move (s := s) u (.scanning rq _) (by simp))
      (fun _ => rfl) rfl rfl rfl rfl
  | @postFail u rq k ret here refused =>
    exact h.of_submitter (fun k r => Pool.uses_of_move (s := s) u .idle (by simp))
      (fun _ => rfl) rfl rfl rfl rfl
  | @take u rq k here free =>
    refine h.of_submitter (fun j r huse => ?_) (fun j => ?_) rfl rfl rfl rfl
    · exact Pool.uses_of_move u (.holding rq k) (by simp)
        (s := s.setCmd k { s.queue k with freeState := false }) huse
    · by_cases hj : j = k
      · subst hj
        simp [Pool.move, Pool.setCmd]
      · simp [Pool.move, Pool.setCmd, hj]
  | @store u rq k here => exact h.of_store hown here hsafe
  | @post u rq k here =>
    refine ⟨fun j r huse => ?_, hhandler, h.ended, haccount.cons _⟩
    rcases huse with hwire | hstored
    · rcases List.mem_cons.mp hwire with hnew | hwire
      · -- the new work request uses the command that its submitter stored
        obtain ⟨rfl, rfl⟩ := Posting.mk.inj hnew
        exact h.used j r (Or.inr ⟨u, here⟩)
      · exact h.used j r (Or.inl hwire)
    · exact h.used j r (Pool.uses_of_move u .idle (by simp) (Or.inr hstored))
  | @complete w success here mem =>
    obtain ⟨rfl, hsingle⟩ := hsafe
    rw [here] at haccount
    refine ⟨fun j r huse => ?_, ⟨(h.used w.cmd w.rq (Or.inl mem)).1, hsingle⟩, h.ended, ?_⟩
    · have huse' : s.Uses j r := huse.imp_left List.mem_of_mem_erase
      exact ⟨(h.used j r huse').1, by simp [Handler.freed?]⟩
    · -- `w` leaves the wire and enters the handler
      refine haccount.trans (List.Perm.append_right _ ?_)
      simp only [Handler.unended, List.append_nil, if_true]
      exact (List.perm_cons_erase mem).trans (List.perm_append_singleton w _).symm
  | @readRq w here =>
    rw [here] at hhandler haccount
    exact ⟨fun j r huse => ⟨(h.used j r huse).1, by simp [Handler.freed?]⟩, hhandler, h.ended,
      haccount⟩
  | @endRq w rq here single =>
    rw [here] at hhandler haccount
    -- what was read is the request of the work request
    obtain rfl := Option.some_inj.mp hhandler.1
    refine ⟨fun j r huse => ⟨(h.used j r huse).1, by simp [Handler.freed?]⟩, trivial, ?_, ?_⟩
    · intro e he
      rcases List.mem_cons.mp he with rfl | he
      · rfl
      · exact h.ended e he
    · rw [List.append_assoc] at haccount
      simpa [Handler.unended] using haccount
  | @endFail w rq here several =>
    rw [here] at hhandler
    -- excluded when the work request completed
    obtain rfl := Option.some_inj.mp hhandler.1
    exact absurd hhandler.2 several
  | @storeFree w here =>
    have hk := (hown.busy w.cmd).mp (by rw [here]; rfl)
    rw [here] at haccount
    refine ⟨fun j r huse => ?_, trivial, h.ended, haccount⟩
    -- the released command is the handler's, so it is not in use
    have hne : j ≠ w.cmd := hown.ne_of_uses (s := s) huse hk
    refine ⟨?_, ?_⟩
    · simpa [Pool.setCmd, hne] using (h.used j r huse).1
    · simpa [Handler.freed?] using hne.symm
  | @clearRq w here =>
    rw [here] at haccount
    refine ⟨fun j r huse => ?_, trivial, h.ended, haccount⟩
    have hused := h.used j r huse
    rw [here] at hused
    -- a used command is not the one being released, so the late store misses it
    have hne : j ≠ w.cmd := fun hj => hused.2 (congrArg some hj.symm)
    exact ⟨by simpa [Pool.setCmd, hne] using hused.1, by simp [Handler.freed?]⟩

theorem faithful_init (depth m : ℕ) : Faithful (Pool.init depth m) where
  used := by simp [Pool.init, Pool.Uses]
  handler := trivial
  ended := by simp [Pool.init]
  account := by simp [Pool.init, Handler.unended]

/-- Each command has one user, and used commands hold their requests. -/
def Pool.Inv (s : Pool depth m) : Prop := (∃ owner, OwnedBy s owner) ∧ Faithful s

theorem Pool.Inv.of_step (h : s.Inv) (hsafe : s.Safe op) (hstep : s.step op = some t) : t.Inv := by
  obtain ⟨⟨owner, hown⟩, hfaith⟩ := h
  have heff := Pool.step_effect hstep
  exact ⟨hown.of_effect heff, hfaith.of_effect hown hsafe heff⟩

/-- For any number of submitters and any interleaving, in every run of safe steps each
posted request is ended exactly once or still to be ended, and only by the completion of
its own work request. -/
theorem completion_ends_its_request (depth m : ℕ) (ops : List (PoolOp depth m))
    (s : Pool depth m) (hops : EachStep Pool.step Pool.Safe (Pool.init depth m) ops)
    (hrun : run Pool.step (Pool.init depth m) ops = some s) : EndsItsRequest s := by
  have hinv : s.Inv := run_invariant (fun _ _ _ h hsafe hstep => h.of_step hsafe hstep)
    ⟨⟨_, ownedBy_init depth m⟩, faithful_init depth m⟩ hops hrun
  exact hinv.2.endsItsRequest

/-- The first submitter's request goes through all its steps. -/
def oneWrite : List (PoolOp rmemQueueDepth 2) :=
  [.enter 0 pageWrite, .scan 0, .test 0, .storeRq 0, .post 0 0,
    .complete ⟨⟨0, by decide⟩, pageWrite⟩ true, .readRq, .endRq, .storeFree]

theorem completion_ends_its_request_oneWrite :
    ∃ s, run Pool.step (Pool.init rmemQueueDepth 2) oneWrite = some s ∧
      s.endedRqs.length = 1 ∧ EndsItsRequest s := by
  have hends : (run Pool.step (Pool.init rmemQueueDepth 2) oneWrite).any
      fun s => s.endedRqs.length = 1 := by decide +kernel
  obtain ⟨s, hs, hlen⟩ := (Option.any_eq_true _ _).mp hends
  exact ⟨s, hs, of_decide_eq_true hlen,
    completion_ends_its_request rmemQueueDepth 2 oneWrite s (by decide +kernel) hs⟩

/-- A second request takes the first one's command between the two stores of its
release, and is completed. -/
def takenTooEarly : List (PoolOp rmemQueueDepth 2) :=
  oneWrite ++ [.enter 1 { pageWrite with tag := 1 }, .scan 1, .test 1, .storeRq 1, .clearRq,
    .post 1 0, .complete ⟨⟨0, by decide⟩, { pageWrite with tag := 1 }⟩ true, .readRq]

/-- The late store clears the second request, and its completion finds `NULL`. -/
theorem completion_finds_null :
    ∃ s, run Pool.step (Pool.init rmemQueueDepth 2) takenTooEarly = some s ∧
      s.handler = .read ⟨⟨0, by decide⟩, { pageWrite with tag := 1 }⟩ none ∧
      ¬ EndsItsRequest s := by
  have hends : (run Pool.step (Pool.init rmemQueueDepth 2) takenTooEarly).any
      fun s => s.handler = .read ⟨⟨0, by decide⟩, { pageWrite with tag := 1 }⟩ none := by
    decide +kernel
  obtain ⟨s, hs, hnull⟩ := (Option.any_eq_true _ _).mp hends
  have hnull := of_decide_eq_true hnull
  exact ⟨s, hs, hnull, fun h => h.not_null _ hnull⟩

end SystemDev.Octopus
